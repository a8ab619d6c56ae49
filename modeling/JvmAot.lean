import JvmAot.Asm.Buffer
import JvmAot.Asm.Instr
import JvmAot.Asm.Line
import JvmAot.Asm.Register
import JvmAot.Bytecode.Constant
import JvmAot.Bytecode.Instruction
import JvmAot.Bytecode.Opcode
import JvmAot.ClassFile.Basic
import JvmAot.ClassFile.Bytecode
import JvmAot.ClassFile.Cursor
import JvmAot.ClassFile.Decode
import JvmAot.ClassFile.ModifiedUtf8
import JvmAot.ClassFile.Pool
import JvmAot.ClassName
import JvmAot.ClassPath
import JvmAot.CommandLine.Flag
import JvmAot.CommandLine.Inputs
import JvmAot.CommandLine.Options
import JvmAot.CommandLine.Run
import JvmAot.Config
import JvmAot.Descriptor.BaseType
import JvmAot.Descriptor.FieldType
import JvmAot.Descriptor.MethodType
import JvmAot.Failure
import JvmAot.Files.Path
import JvmAot.Files.Refusal
import JvmAot.Files.Tree
import JvmAot.Heap.Basic
import JvmAot.Heap.Block
import JvmAot.Heap.Emission
import JvmAot.Heap.Labels
import JvmAot.Layout.Fields
import JvmAot.Layout.Vtable
import JvmAot.LogScope
import JvmAot.Lowering.Access
import JvmAot.Lowering.Instruction
import JvmAot.Lowering.Method
import JvmAot.Lowering.Question
import JvmAot.Lowering.Stack
import JvmAot.Main
import JvmAot.Project
import JvmAot.Proofs.Asm.Data
import JvmAot.Proofs.Asm.Symbols
import JvmAot.Proofs.Bytecode.Frame
import JvmAot.Proofs.ClassFile.Encoding
import JvmAot.Proofs.ClassFile.Extent
import JvmAot.Proofs.ClassFile.Format
import JvmAot.Proofs.ClassFile.Instructions
import JvmAot.Proofs.ClassFile.Offsets
import JvmAot.Proofs.ClassFile.PoolEnd
import JvmAot.Proofs.ClassFile.PoolEntries
import JvmAot.Proofs.ClassFile.PoolTable
import JvmAot.Proofs.ClassFile.Reads
import JvmAot.Proofs.ClassFile.Refusals
import JvmAot.Proofs.ClassFile.RoundTrip
import JvmAot.Proofs.ClassFile.Spelling
import JvmAot.Proofs.ClassFile.Tiling
import JvmAot.Proofs.Descriptor.Grammar
import JvmAot.Proofs.Descriptor.Reading
import JvmAot.Proofs.Heap.Alignment
import JvmAot.Proofs.Heap.Arrays
import JvmAot.Proofs.Heap.Emission
import JvmAot.Proofs.Heap.FixedPoint
import JvmAot.Proofs.Heap.Graph
import JvmAot.Proofs.Heap.Growth
import JvmAot.Proofs.Heap.Placement
import JvmAot.Proofs.Heap.Queries
import JvmAot.Proofs.Heap.Serialization
import JvmAot.Proofs.Heap.Termination
import JvmAot.Proofs.Layout.Family
import JvmAot.Proofs.Layout.Fields
import JvmAot.Proofs.Layout.Packing
import JvmAot.Proofs.Layout.SlotKeys
import JvmAot.Proofs.Layout.Vtable
import JvmAot.Proofs.Layout.VtableFamily
import JvmAot.Proofs.Lowering.Activation
import JvmAot.Proofs.Lowering.Allocation
import JvmAot.Proofs.Lowering.BranchLabels
import JvmAot.Proofs.Lowering.Calls
import JvmAot.Proofs.Lowering.Dependencies
import JvmAot.Proofs.Lowering.Failures
import JvmAot.Proofs.Lowering.Immediates
import JvmAot.Proofs.Lowering.Instructions
import JvmAot.Proofs.Lowering.Labels
import JvmAot.Proofs.Lowering.Operations
import JvmAot.Proofs.Lowering.Placement
import JvmAot.Proofs.Lowering.Simulation
import JvmAot.Proofs.Lowering.Storage
import JvmAot.Proofs.Lowering.Symbols
import JvmAot.Proofs.Lowering.Templates
import JvmAot.Proofs.Rv32.Load
import JvmAot.Proofs.Rv32.Machine
import JvmAot.Proofs.Rv32.Memory
import JvmAot.Proofs.Rv32.Stack
import JvmAot.Proofs.Session.ArrayFormat
import JvmAot.Proofs.Session.ArrayTypes
import JvmAot.Proofs.Session.Bodies
import JvmAot.Proofs.Session.Closing
import JvmAot.Proofs.Session.Closure
import JvmAot.Proofs.Session.CodeStorage
import JvmAot.Proofs.Session.Contents
import JvmAot.Proofs.Session.Data
import JvmAot.Proofs.Session.Definitions
import JvmAot.Proofs.Session.Determinacy
import JvmAot.Proofs.Session.Dispatch
import JvmAot.Proofs.Session.FailedResolution
import JvmAot.Proofs.Session.FieldStorage
import JvmAot.Proofs.Session.Hierarchy
import JvmAot.Proofs.Session.Immediates
import JvmAot.Proofs.Session.LayoutMap
import JvmAot.Proofs.Session.Memo
import JvmAot.Proofs.Session.Metadata
import JvmAot.Proofs.Session.Program
import JvmAot.Proofs.Session.References
import JvmAot.Proofs.Session.Resolution
import JvmAot.Proofs.Session.Steps
import JvmAot.Proofs.Session.Termination
import JvmAot.Proofs.Session.Texts
import JvmAot.Proofs.Symbol.Mangling
import JvmAot.Proofs.Text.Units
import JvmAot.Session.Basic
import JvmAot.Session.ClassInfo
import JvmAot.Session.ClassTable
import JvmAot.Session.Compile
import JvmAot.Session.Context
import JvmAot.Session.LayoutMap
import JvmAot.Session.LayoutText
import JvmAot.Session.Resolve
import JvmAot.Symbol
import JvmAot.Text.Integer
import JvmAot.Text.Printable
import JvmAot.Text.Quoted
import JvmAot.Text.Utf16
import JvmAot.Text.Utf8
import JvmAot.Toml.Basic
import JvmAot.Toml.Document
import JvmAot.Toml.Quoted
import JvmAot.Toml.Scalar
import JvmAot.Toml.Statements
import JvmAot.Toml.Text

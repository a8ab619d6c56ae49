import JvmAot.Asm.Instr

/-! # Lines of assembly text

An assembly file is a list of lines, of which some are several lines of text or none. It stays a list
of values until `Line.render` writes it out. -/

namespace JvmAot

/-- One entry of an assembly file. -/
inductive Line where
  /-- Bytes copied as they are. -/
  | raw (bytes : ByteArray)
  | blank
  /-- A heading in a block of comment lines, followed by an empty line. -/
  | banner (text : String)
  | comment (text : String)
  /-- Defines a symbol at this place. -/
  | label (name : String)
  /-- Switches to another part of the output, such as `.data`. -/
  | segment (name : String)
  /-- Defines a symbol as another name of a value. -/
  | equate (symbol value : String)
  /-- A data directive with its items. -/
  | directive (name : String) (items : List String)
  | instr (instr : Instr)
  deriving Inhabited

namespace Line

/-- A word and its operands, indented. -/
def indented (word : String) (operands : List String) : String :=
  if operands = [] then "\t" ++ word else "\t" ++ word ++ " " ++ String.intercalate ", " operands

/-- The lines of text of an entry, without line ends. Raw bytes have none. -/
def rows : Line → List String
  | raw _ => []
  | blank => [""]
  | banner text => ["//", "// " ++ text, "//", ""]
  | comment text => ["\t// " ++ text]
  | label name => [name ++ ":"]
  | segment name => [name]
  | equate symbol value => [".set " ++ symbol ++ ", " ++ value]
  | directive name items => [indented name items]
  | instr i => [indented i.mnemonic.name i.operands]

/-- The pieces in which an entry is written, one after the other. -/
def pieces : Line → List ByteArray
  | raw bytes => [bytes]
  | line => line.rows.flatMap fun row => [row.toUTF8, "\n".toUTF8]

/-- The file made of some lines. -/
def render (lines : List Line) : ByteArray :=
  lines.foldl (fun text line => line.pieces.foldl (· ++ ·) text) ByteArray.empty

end Line

end JvmAot

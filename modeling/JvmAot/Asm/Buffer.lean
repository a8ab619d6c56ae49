import JvmAot.Asm.Line

/-! # Buffered output

An assembly file is passed on to its destination in blocks. When a compilation fails, what is still in
the buffer is lost, so the destination has seen only the blocks before it. -/

namespace JvmAot.Buffer

/-- The size of a block in bytes. -/
def capacity : Nat := 4096

/-- How many bytes wait in the buffer after a piece of `size` bytes was written, when `waiting` bytes
did before. A piece that does not fit fills the block, which is then passed on; what is left of the
piece waits, unless it is larger than a block and passed on directly. -/
def waitingAfter (waiting size : Nat) : Nat :=
  if size ≤ capacity - waiting then waiting + size
  else
    let rest := if waiting = 0 then size else size - (capacity - waiting)
    if rest ≤ capacity then rest else 0

/-- The part of a file that has been passed on when its last piece was written and nothing more came. -/
def passedOn (lines : List Line) : ByteArray :=
  let waiting := (lines.flatMap Line.pieces).foldl (fun n piece => waitingAfter n piece.size) 0
  let text := Line.render lines
  text.extract 0 (text.size - waiting)

end JvmAot.Buffer

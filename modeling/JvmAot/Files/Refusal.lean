/-! # Refusals of the file system -/

namespace JvmAot

/-- Why the file system refuses an operation. -/
inductive Refusal where
  | notFound
  | notADirectory
  | isADirectory
  | alreadyExists
  | nameTooLong
  | invalidArgument
  deriving DecidableEq, Repr, Inhabited

namespace Refusal

/-- The refusal in words. -/
def text : Refusal → String
  | notFound => "no such file or directory"
  | notADirectory => "not a directory"
  | isADirectory => "is a directory"
  | alreadyExists => "file exists"
  | nameTooLong => "file name too long"
  | invalidArgument => "invalid argument"

end Refusal

end JvmAot

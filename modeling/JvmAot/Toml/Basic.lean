import JvmAot.Toml.Quoted

/-! # Statements of a TOML file

A file is a list of statements: headers of tables and of elements of table arrays, and settings. -/

namespace JvmAot.Toml

/-- The value of a setting. Numbers, truth values and dates are not told apart. -/
inductive Expr where
  | text (value : String)
  | scalar
  | array (items : List Expr)
  | table (entries : List (Key × Expr))
  deriving Repr, Inhabited

/-- A statement of a file. -/
inductive Statement where
  /-- The header of a table. -/
  | table (key : Key)
  /-- The header of a new element of an array of tables. -/
  | element (key : Key)
  /-- A setting in the table of the last header. -/
  | setting (key : Key) (value : Expr)
  deriving Repr, Inhabited

end JvmAot.Toml

import JvmAot.Session.LayoutMap
import JvmAot.Toml.Quoted

/-! # Layout maps as text

A layout map is written as a TOML document: a table for each class, and in it one for each of its
fields. What is empty or false is left out. -/

namespace JvmAot

namespace LayoutText

/-- A line that sets a key. -/
def line (indent key value : String) : String :=
  indent ++ key ++ " = " ++ value ++ "\n"

/-- A line that sets a key to a text. -/
def textLine (indent key : String) (value : Option String) : String :=
  match value with
  | some text => line indent key (Toml.quoted text)
  | none => ""

/-- A line that marks something. -/
def markLine (indent key : String) (isSet : Bool) : String :=
  if isSet then line indent key "true" else ""

end LayoutText

open LayoutText in
/-- The table of a field. -/
def FieldEntry.toToml (f : FieldEntry) : String :=
  "\n  [[class.field]]\n" ++
    textLine "    " "name" (some f.name) ++
    textLine "    " "descriptor" (some f.descriptor) ++
    line "    " "offset" (toString f.offset) ++
    markLine "    " "static" f.isStatic

open LayoutText in
/-- The table of a class. -/
def ClassLayout.toToml (c : ClassLayout) : String :=
  "\n[[class]]\n" ++
    textLine "  " "name" (some c.name) ++
    textLine "  " "super" (c.superName.filter (· ≠ "")) ++
    markLine "  " "interface" c.isInterface ++
    line "  " "size" (toString c.size) ++
    textLine "  " "vtable_symbol" c.vtableSymbol ++
    (if c.vtable = [] then ""
     else line "  " "vtable"
      ("[" ++ ", ".intercalate (c.vtable.map fun s => Toml.quoted (s.getD "")) ++ "]")) ++
    String.join (c.fields.map FieldEntry.toToml)

open LayoutText in
/-- The document of a program. -/
def LayoutMap.toToml (m : LayoutMap) : String :=
  line "" "static_words" (toString m.staticWords) ++
    line "" "array_header_size" (toString m.arrayHeaderSize) ++
    String.join (m.classes.map ClassLayout.toToml)

end JvmAot

import ConfigAtlas.Text.Basic

/-!
# Dialects

The three families of configuration text, chosen by a keyword or by the name of a file.
-/

namespace ConfigAtlas

inductive Dialect where
  /-- Blocks nested by indentation. -/
  | outline
  /-- One `key=value` a line, in sections. -/
  | flat
  /-- Nested tags. -/
  | markup
deriving DecidableEq

namespace Dialect

inductive Error where
  | unknownName (name : String)
  | unsupportedFile (path : String)
deriving DecidableEq

def Error.message : Error → String
  | .unknownName name => s!"unknown source dialect '{name}'"
  | .unsupportedFile path => s!"no source dialect is registered for '{path}'"

def name : Dialect → String
  | .outline => "indentation"
  | .flat => "flat"
  | .markup => "markup"

/-! ## By keyword -/

/-- The dialect of a keyword in small letters. -/
def ofKeyword? : String → Option Dialect
  | "indentation" | "yaml" | "yml" => some .outline
  | "flat" | "properties" | "ini" | "toml" | "cfg" | "conf" => some .flat
  | "markup" | "xml" => some .markup
  | _ => none

/-- Blanks around a keyword and the case of its ASCII letters do not matter. -/
def read (name : String) : Except Error Dialect :=
  match ofKeyword? (String.ofList ((Text.trim name.toList).map Char.toLower)) with
  | some dialect => .ok dialect
  | none => .error (.unknownName name)

theorem ofKeyword?_name (d : Dialect) : ofKeyword? d.name = some d := by
  cases d <;> rfl

/-! ## By file name -/

/-- The last component of a path. Empty components and `.` name nothing, and `..` names no file. -/
def fileName? (path : List Char) : Option (List Char) :=
  match ((path.splitOn '/').filter fun part => part ≠ [] ∧ part ≠ ['.']).getLast? with
  | some part => if part = ['.', '.'] then none else some part
  | none => none

/-- What follows the last dot of a file name. A dot in front makes no extension. -/
def extension? (name : List Char) : Option (List Char) :=
  let afterDot := (name.reverse.takeWhile (· != '.')).reverse
  if afterDot.length + 1 < name.length then some afterDot else none

def ofExtension? : String → Option Dialect
  | "yaml" | "yml" => some .outline
  | "properties" | "ini" | "cfg" | "conf" | "toml" => some .flat
  | "xml" => some .markup
  | _ => none

/-- The dialect of a file. The case of ASCII letters in its extension does not matter. -/
def ofFile (path : String) : Except Error Dialect :=
  match ((fileName? path.toList).bind extension?).bind
      fun ext => ofExtension? (String.ofList (ext.map Char.toLower)) with
  | some dialect => .ok dialect
  | none => .error (.unsupportedFile path)

end Dialect

end ConfigAtlas

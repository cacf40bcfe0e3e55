import Mathlib
import Whatspec.Library.StableSort
import Whatspec.Proto.Entity

/-!
# The printed protobuf text

`stringify` prints the resolved entities as a `.proto` file: the entities sorted by name, a line for
each field and enum value, two blanks for each level, one blank line behind each message.  A message
that declares nothing is one line, and what a message ends with loses its blank lines before the
closing brace.

A default of a `string` or `bytes` field is a literal in quotes, any other default is printed as it
is.
-/

namespace Whatspec.Proto

open Whatspec.Library

/-- A whole file, as it is printed. -/
structure ProtoFile where
  waVersion : String
  entities : List ProtoEntity
  deriving DecidableEq

abbrev Line := List Char

/-- `INDENT`. -/
def indentUnit : Line := [' ', ' ']

/-! ### Fields -/

/-- `is_ascii_control`. -/
def isAsciiControl (c : Char) : Bool := c.toNat < 32 || c.toNat = 127

/-- One character of a default in quotes. -/
def escapeDefault (c : Char) : List Char :=
  if c = '\\' then ['\\', '\\']
  else if c = '"' then ['\\', '"']
  else if c = '\n' then ['\\', 'n']
  else if c = '\r' then ['\\', 'r']
  else if c = '\t' then ['\\', 't']
  else if isAsciiControl c then '\\' :: (Nat.toDigits 8 c.toNat).leftpad 3 '0'
  else [c]

/-- Whether a default of the field is a literal in quotes. -/
def ProtoField.isText (f : ProtoField) : Bool := f.typeName = "string" || f.typeName = "bytes"

def defaultOption (f : ProtoField) (d : String) : Line :=
  if f.isText then "default = \"".toList ++ d.toList.flatMap escapeDefault ++ ['"']
  else "default = ".toList ++ d.toList

/-- What stands between the brackets of a field. -/
def fieldOptions (f : ProtoField) : List Line :=
  (if f.packed then ["packed = true".toList] else []) ++
    match f.default with
    | some d => [defaultOption f d]
    | none => []

/-- `field_line`. -/
def fieldLine (f : ProtoField) : Line :=
  let flags := [' '].intercalate (f.flags.map String.toList)
  let sep := if f.flags.isEmpty then [] else [' ']
  let opts := fieldOptions f
  let options := if opts.isEmpty then [] else " [".toList ++ [',', ' '].intercalate opts ++ [']']
  flags ++ sep ++ f.typeName.toList ++ [' '] ++ f.name.toList ++ " = ".toList ++
    Rendering.int f.id ++ options ++ [';']

/-! ### Declarations -/

/-- Every line but the blank ones goes in by one level. -/
def indent (lines : List Line) : List Line :=
  lines.map fun l => if l.isEmpty then l else indentUnit ++ l

/-- A line that opens a block. -/
def opening (keyword : String) (name : String) : Line :=
  keyword.toList ++ [' '] ++ name.toList ++ [' ', '\x7b']

def closing : Line := ['\x7d']

def enumValueLine (v : ProtoEnumValue) : Line :=
  indentUnit ++ v.name.toList ++ " = ".toList ++ Rendering.int v.id ++ [';']

/-- `enum_lines`. -/
def enumLines (e : ProtoEnum) : List Line :=
  opening "enum" e.name :: e.values.map enumValueLine ++ [closing]

/-- `member_lines`. -/
def memberLines : ProtoMember → List Line
  | .field f => [fieldLine f]
  | .oneOf o =>
    opening "oneof" o.name :: (o.fields.map fun f => indentUnit ++ fieldLine f) ++ [closing]

/-- `message_lines`, with the lines of what the message declares. -/
def messageLines (name : String) (members : List ProtoMember) (nested : List ProtoEntity)
    (inner : List Line) : List Line :=
  if members.isEmpty && nested.isEmpty then [opening "message" name ++ closing, []]
  else
    (opening "message" name :: (members.flatMap fun m => indent (memberLines m)) ++
      inner).rdropWhile List.isEmpty ++ [closing, []]

mutual

/-- `entity_lines`. -/
def entityLines : ProtoEntity → List Line
  | .message name members nested => messageLines name members nested (nestedLines nested)
  | .enum e => enumLines e

def nestedLines : List ProtoEntity → List Line
  | [] => []
  | e :: es => indent (entityLines e) ++ nestedLines es

end

/-- The lines before the version. -/
def fileHeader : List Char :=
  "syntax = \"proto2\";\npackage whatsapp;\n\n/// WhatsApp Version: ".toList

/-- `stringify`. -/
def stringify (file : ProtoFile) : List Char :=
  let entities := StableSort.sortBy ProtoEntity.name file.entities
  let body := ['\n'].intercalate (entities.map fun e => ['\n'].intercalate (entityLines e))
  fileHeader ++ file.waVersion.toList ++ ['\n', '\n'] ++ body

end Whatspec.Proto

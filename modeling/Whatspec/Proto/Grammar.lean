import Whatspec.Library.ProtobufTokens
import Whatspec.Library.Readers
import Whatspec.Proto.Entity

/-!
# Reading a protobuf text

The part of the grammar of `proto2` that declares messages and enums, read over the tokens of the
text: fields with their labels and options, maps, `oneof` groups, nested declarations.  It builds
the tree of `ProtoEntity` that an extractor hands on.

What the tree has no place for is refused: imports, extensions, groups, services, reserved ranges
and options other than `packed` and `default`.  A default in quotes belongs to a field of type
`string` or `bytes`, any other default to the rest.
-/

namespace Whatspec.Proto.Grammar

open Whatspec.Library Whatspec.Library.Protobuf Whatspec.Library.Reader

abbrev Parser := Reader Token

/-- The next token, left where it is. -/
def peek : Parser Token := fun s => s.head?.map (·, s)

/-- One token that has to be there. -/
def expect (t : Token) : Parser Unit := do
  let u ← next
  if u = t then pure () else failure

def symbol (c : Char) : Parser Unit := expect (.symbol c)

/-- The word of a token. -/
def Word.of : Token → Option String
  | .word w => some w
  | _ => none

def word : Parser String := do
  let t ← next
  given (Word.of t)

/-! ### Types -/

def labels : List String := ["required", "optional", "repeated"]

def scalarTypes : List String :=
  ["double", "float", "int32", "int64", "uint32", "uint64", "sint32", "sint64", "fixed32",
    "fixed64", "sfixed32", "sfixed64", "bool", "string", "bytes"]

def mapKeyTypes : List String :=
  ["int32", "int64", "uint32", "uint64", "sint32", "sint64", "fixed32", "fixed64", "sfixed32",
    "sfixed64", "bool", "string"]

/-- The parts of a name behind its first word. -/
def dottedRest : List Token → String × List Token
  | .symbol c :: .word w :: rest =>
    if c = '.' then ("." ++ w ++ (dottedRest rest).1, (dottedRest rest).2)
    else ("", .symbol c :: .word w :: rest)
  | s => ("", s)

/-- A type, of which the first token was taken. -/
def typeFrom (t : Token) : Parser String := do
  let w ← given (Word.of t)
  if w ∈ scalarTypes then pure w
  else if w = "group" then failure
  else
    let parts ← (fun s => some (dottedRest s) : Parser String)
    pure (w ++ parts)

def typeName : Parser String := do
  let t ← next
  typeFrom t

/-- What stands behind the word `map`. -/
def mapType : Parser String := do
  symbol '<'
  let key ← word
  if key ∈ mapKeyTypes then
    symbol ','
    let value ← typeName
    symbol '>'
    pure ("map<" ++ key ++ ", " ++ value ++ ">")
  else failure

/-! ### Fields -/

/-- The value of an option. -/
inductive Constant where
  | text (s : String)
  | bare (w : String)
  deriving DecidableEq, Repr

def constant : Parser Constant := do
  match ← next with
  | .str s => pure (.text s)
  | .word w => pure (.bare w)
  | .number w => pure (.bare w)
  | .symbol c =>
    if c = '-' then
      match ← next with
      | .number w => pure (.bare ("-" ++ w))
      | _ => failure
    else failure

def fieldOption : Parser (String × Constant) := do
  let name ← word
  symbol '='
  let value ← constant
  pure (name, value)

/-- The options behind the first, up to the closing bracket. -/
def moreOptions : ℕ → Parser (List (String × Constant))
  | 0 => failure
  | n + 1 => do
    let t ← next
    if t = .symbol ']' then pure []
    else if t = .symbol ',' then do
      let o ← fieldOption
      let os ← moreOptions n
      pure (o :: os)
    else failure

/-- The options of a field, up to the end of its statement. -/
def optionsAndEnd : Parser (List (String × Constant)) := do
  let t ← next
  if t = .symbol ';' then pure []
  else if t = .symbol '[' then do
    let o ← fieldOption
    let fuel ← (fun s => some (s.length, s) : Parser ℕ)
    let os ← moreOptions fuel
    symbol ';'
    pure (o :: os)
  else failure

/-- `packed` is yes or no. -/
def packedOf : Option Constant → Option Bool
  | none => some false
  | some (.bare w) => if w = "true" then some true else if w = "false" then some false else none
  | some (.text _) => none

/-- A default is in quotes exactly for a field of text. -/
def defaultOf (isText : Bool) : Option Constant → Option (Option String)
  | none => some none
  | some (.text s) => if isText then some (some s) else none
  | some (.bare w) => if isText then none else some (some w)

/-- A field from its parts, when its options are those of the tree. -/
def fieldFrom (flags : List String) (typeName name : String) (id : ℤ)
    (options : List (String × Constant)) : Option ProtoField :=
  if (options.map Prod.fst).Nodup ∧ ∀ o ∈ options, o.1 = "packed" ∨ o.1 = "default" then
    (packedOf (options.lookup "packed")).bind fun packed =>
      (defaultOf (typeName = "string" || typeName = "bytes") (options.lookup "default")).map
        fun default => ⟨name, id, typeName, flags, packed, default⟩
  else none

def numberOf : Token → Option ℕ
  | .number w => intValue w.toList
  | _ => none

/-- A field behind its type. -/
def field (flags : List String) (typeName : String) : Parser ProtoField := do
  let name ← word
  symbol '='
  let t ← next
  let id ← given (numberOf t)
  let options ← optionsAndEnd
  given (fieldFrom flags typeName name id options)

/-! ### Blocks -/

/-- Statements up to the closing brace. -/
def untilClose {α : Type} (one : Parser (List α)) : ℕ → Parser (List α)
  | 0 => failure
  | n + 1 => do
    let t ← peek
    if t = .symbol '\x7d' then do
      let _ ← next
      pure []
    else do
      let x ← one
      let xs ← untilClose one n
      pure (x ++ xs)

/-- The statements of a block are at most as many as the tokens that are left. -/
def closed {α : Type} (one : Parser (List α)) : Parser (List α) := do
  let fuel ← (fun s => some (s.length + 1, s) : Parser ℕ)
  untilClose one fuel

/-- The number of an enum value, with its sign. -/
def enumNumber : Parser ℤ := do
  let t ← next
  if t = .symbol '-' then do
    let u ← next
    let n ← given (numberOf u)
    pure (-(n : ℤ))
  else do
    let n ← given (numberOf t)
    pure (n : ℤ)

def enumStatement : Parser (List ProtoEnumValue) := do
  let t ← next
  if t = .symbol ';' then pure []
  else do
    let name ← given (Word.of t)
    if name = "option" ∨ name = "reserved" then failure
    else do
      symbol '='
      let id ← enumNumber
      symbol ';'
      pure [⟨name, id⟩]

def oneofStatement : Parser (List ProtoField) := do
  let t ← next
  if t = .symbol ';' then pure []
  else do
    let first ← given (Word.of t)
    if first = "option" ∨ first ∈ labels then failure
    else do
      let typeName ← typeFrom t
      let f ← field [] typeName
      pure [f]

/-- A statement of a message. -/
abbrev Item := ProtoMember ⊕ ProtoEntity

def membersOf (items : List Item) : List ProtoMember := items.filterMap Sum.getLeft?

def nestedOf (items : List Item) : List ProtoEntity := items.filterMap Sum.getRight?

/-- An enum behind its keyword. -/
def enum : Parser ProtoEntity := do
  let name ← word
  symbol '\x7b'
  let values ← closed enumStatement
  pure (.enum ⟨name, values⟩)

/-- A message behind its keyword, with the reader of its block. -/
def message (inner : Parser (List Item)) : Parser ProtoEntity := do
  let name ← word
  symbol '\x7b'
  let items ← inner
  pure (.message name (membersOf items) (nestedOf items))

/-- A group behind its keyword. -/
def oneof : Parser ProtoMember := do
  let name ← word
  symbol '\x7b'
  let fields ← closed oneofStatement
  pure (.oneOf ⟨name, fields⟩)

/-- A message or an enum, of which the keyword was taken. -/
def declarationFrom (inner : Parser (List Item)) (t : Token) : Parser ProtoEntity :=
  if t = .word "message" then message inner
  else if t = .word "enum" then enum
  else failure

/-- A statement of a message, with the reader of the blocks inside. -/
def statement (inner : Parser (List Item)) : Parser (List Item) := do
  let t ← next
  if t = .symbol ';' then pure []
  else if t = .word "oneof" then do
    let m ← oneof
    pure [.inl m]
  else if t = .word "map" then do
    let typeName ← mapType
    let f ← field [] typeName
    pure [.inl (.field f)]
  else if t = .word "message" ∨ t = .word "enum" then do
    let e ← declarationFrom inner t
    pure [.inr e]
  else do
    let label ← given (Word.of t)
    if label ∈ labels then do
      let typeName ← typeName
      let f ← field [label] typeName
      pure [.inl (.field f)]
    else failure

/-- The block of a message, down to a depth of nesting. -/
def block : ℕ → Parser (List Item)
  | 0 => failure
  | depth + 1 => closed (statement (block depth))

/-! ### Files -/

def topLevel (inner : Parser (List Item)) : Parser (List ProtoEntity) := do
  let t ← next
  if t = .symbol ';' then pure []
  else do
    let e ← declarationFrom inner t
    pure [e]

/-- The syntax and the package. -/
def fileHead : Parser String := do
  expect (.word "syntax")
  symbol '='
  expect (.str "proto2")
  symbol ';'
  expect (.word "package")
  let package ← word
  symbol ';'
  pure package

/-- The package of a file and what it declares. -/
def file (tokens : List Token) : Option (String × List ProtoEntity) :=
  (fileHead.run tokens).bind fun p =>
    (all (topLevel (block p.2.length)) p.2.length p.2).map fun ess => (p.1, ess.flatten)

/-- **Reading a text** by the grammar. -/
def parse (text : List Char) : Option (String × List ProtoEntity) := (lex text).bind file

end Whatspec.Proto.Grammar

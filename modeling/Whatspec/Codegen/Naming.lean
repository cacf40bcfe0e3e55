import Mathlib.Data.List.Basic

/-!
# Names in generated code

Wire names become identifiers of generated code: `pascalCase` spells a type or a variant,
`snakeCase` a field, and `ensureIdent` keeps what is spelled from being empty, led by a digit or a
reserved word.

Everything that is not a letter or a digit of ASCII is a boundary, so only such characters are
left when the case of a letter is changed.
-/

namespace Whatspec.Codegen

def rustKeywords : List String :=
  ["as", "break", "const", "continue", "crate", "else", "enum", "extern", "false", "fn", "for",
    "if", "impl", "in", "let", "loop", "match", "mod", "move", "mut", "pub", "ref", "return",
    "self", "Self", "static", "struct", "super", "trait", "true", "type", "unsafe", "use", "where",
    "while", "async", "await", "dyn", "abstract", "become", "box", "do", "final", "macro",
    "override", "priv", "typeof", "unsized", "virtual", "yield"]

/-- The reserved words that cannot be raw identifiers. -/
def rawIneligible : List String := ["self", "Self", "crate", "super"]

def isAsciiLower (c : Char) : Bool := 'a' ≤ c && c ≤ 'z'

def isAsciiUpper (c : Char) : Bool := 'A' ≤ c && c ≤ 'Z'

def isAsciiDigit (c : Char) : Bool := '0' ≤ c && c ≤ '9'

def isAsciiAlnum (c : Char) : Bool := isAsciiLower c || isAsciiUpper c || isAsciiDigit c

def ensureIdent (s : String) : String :=
  let base := match s.toList with
    | [] => "_"
    | c :: _ => if isAsciiDigit c then "_" ++ s else s
  if base ∈ rawIneligible then base ++ "_"
  else if base ∈ rustKeywords then "r#" ++ base
  else base

/-- An identifier is not empty. -/
theorem ensureIdent_ne_empty (s : String) : ensureIdent s ≠ "" := by
  have happend : ∀ t : String, ∀ c cs, t.toList = c :: cs → t ≠ "" := by
    rintro t c cs h rfl
    cases h
  unfold ensureIdent
  extract_lets base
  have hbase : base ≠ "" := by
    unfold base
    split
    · decide
    · next c cs hs =>
      split
      · exact happend _ '_' s.toList (by rw [String.toList_append]; rfl)
      · exact happend s c cs hs
  split_ifs
  · intro h
    exact hbase (String.append_eq_empty_iff.mp h).1
  · intro h
    exact absurd (String.append_eq_empty_iff.mp h).1 (by decide)
  · exact hbase

/-- A lower letter or a digit before an upper letter: the separator goes between them. -/
def camelBoundary (separator : Char) : List Char → List Char
  | a :: b :: cs =>
    if (isAsciiLower a || isAsciiDigit a) && isAsciiUpper b then
      a :: separator :: b :: camelBoundary separator cs
    else a :: camelBoundary separator (b :: cs)
  | cs => cs

/-- An upper letter before a capitalized word: the separator goes between them. -/
def acronymBoundary (separator : Char) : List Char → List Char
  | a :: b :: c :: cs =>
    if isAsciiUpper a && isAsciiUpper b && isAsciiLower c then
      a :: separator :: b :: c :: acronymBoundary separator cs
    else a :: acronymBoundary separator (b :: c :: cs)
  | cs => cs

/-- The words of a name, as the boundaries divide it. -/
def nameWords (separator : Char) (s : String) : List (List Char) :=
  let cs := acronymBoundary separator (camelBoundary separator s.toList)
  ((cs.map fun c => if isAsciiAlnum c then c else separator).splitOn separator).filter (· ≠ [])

def snakeCase (s : String) : String :=
  String.ofList ((['_'].intercalate (nameWords '_' s)).map Char.toLower)

def rustIdent (s : String) : String := ensureIdent (snakeCase s)

def capitalized : List Char → List Char
  | [] => []
  | c :: cs => c.toUpper :: cs

def pascalCase (s : String) : String :=
  ensureIdent (String.ofList ((nameWords ' ' s).flatMap capitalized))

example : [snakeCase "FooBarBaz", snakeCase "HTTPServer", snakeCase "w:g2", pascalCase "foo_bar",
    pascalCase "getGroupInfo", rustIdent "type", rustIdent "self", rustIdent "2fa"] =
    ["foo_bar_baz", "http_server", "w_g2", "FooBar", "GetGroupInfo", "r#type", "self_", "_2fa"] := by
  decide

end Whatspec.Codegen

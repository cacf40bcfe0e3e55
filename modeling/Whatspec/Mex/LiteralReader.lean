import Whatspec.Library.Calls
import Whatspec.Mex.Selections
import Whatspec.Text
import Whatspec.Text.Scanners

/-!
# The reader of operation literals

A compiled operation is a literal in the text of its module.  The reader finds it from the marker
`"Request"`, going out brace by brace, and parses it; an identifier is traced to the literals that are
assigned to it in the same text, the last one counting.

The parsers call one another, so they are the bodies of a group of calls (`Call`), each with the
cache of the tracer passed along.  Loops are calls of their own, one for each pass.
-/

namespace Whatspec.Mex

open Whatspec.Library Whatspec.Text

/-- The identifiers traced so far, with what they were traced to. -/
abbrev Cache := List (String × Option Val)

/-- The calls of the reader. -/
inductive Call where
  | value (start : ℕ) (cache : Cache)
  | object (start : ℕ) (cache : Cache)
  | objectLoop (i : ℕ) (out : List (String × Val)) (cache : Cache)
  | array (start : ℕ) (cache : Cache)
  | arrayLoop (i : ℕ) (out : List Val) (cache : Cache)
  | trace (ident : String) (cache : Cache)
  | traceLoop (ident : String) (search : ℕ) (last : Option Val) (cache : Cache)

/-- What each call returns: what was read, the offset behind it, and the cache. -/
abbrev Read : Call → Type
  | .value .. | .object .. | .array .. => Val × ℕ × Cache
  | .objectLoop .. => List (String × Val) × ℕ × Cache
  | .arrayLoop .. => List Val × ℕ × Cache
  | .trace .. | .traceLoop .. => Option Val × Cache

/-- A part of the reader. -/
abbrev Reader (α : Type) := Prog Read α

abbrev askValue (start : ℕ) (cache : Cache) : Reader (Val × ℕ × Cache) :=
  .ask (Call.value start cache)

abbrev askObject (start : ℕ) (cache : Cache) : Reader (Val × ℕ × Cache) :=
  .ask (Call.object start cache)

abbrev askObjectLoop (i : ℕ) (out : List (String × Val)) (cache : Cache) :
    Reader (List (String × Val) × ℕ × Cache) :=
  .ask (Call.objectLoop i out cache)

abbrev askArray (start : ℕ) (cache : Cache) : Reader (Val × ℕ × Cache) :=
  .ask (Call.array start cache)

abbrev askArrayLoop (i : ℕ) (out : List Val) (cache : Cache) : Reader (List Val × ℕ × Cache) :=
  .ask (Call.arrayLoop i out cache)

abbrev askTrace (ident : String) (cache : Cache) : Reader (Option Val × Cache) :=
  .ask (Call.trace ident cache)

abbrev askTraceLoop (ident : String) (search : ℕ) (last : Option Val) (cache : Cache) :
    Reader (Option Val × Cache) :=
  .ask (Call.traceLoop ident search last cache)

def isIdentByte (c : UInt8) : Bool :=
  (Char.ofNat c.toNat).isAlphanum || c = byte '_' || c = byte '$'

/-- A word character of a regular expression, which `$` is not. -/
def isWordJs (c : UInt8) : Bool := (Char.ofNat c.toNat).isAlphanum || c = byte '_'

/-! ### Assignments -/

/-- The offset behind `ident =` when it stands at an offset, on a word boundary. -/
def assignmentAt (b ident : Source) (i : ℕ) : Option ℕ :=
  if ident.isPrefixOf (b.drop i) then
    let firstWord := isWordJs (ident.headD 0)
    let prevWord := decide (0 < i) && isWordJs (b.getD (i - 1) 0)
    let j := skipWs b (i + ident.length)
    if prevWord ≠ firstWord ∧ b[j]? = some (byte '=') ∧ b[j + 1]? ≠ some (byte '=') ∧
        b[j + 1]? ≠ some (byte '>') then
      some (skipWs b (j + 1))
    else none
  else none

def findAssignmentFrom (b ident : Source) (i : ℕ) : Option ℕ :=
  if i + ident.length < b.length then
    match assignmentAt b ident i with
    | some pos => some pos
    | none => findAssignmentFrom b ident (i + 1)
  else none
termination_by b.length - i

def findAssignment (b ident : Source) (start : ℕ) : Option ℕ :=
  if ident.isEmpty then none else findAssignmentFrom b ident start

/-! ### Pieces of a literal -/

/-- The offset behind a comma, when one stands there. -/
def skipComma (b : Source) (i : ℕ) : ℕ := if b[i]? = some (byte ',') then i + 1 else i

/-- The bytes a value ends at. -/
def valueStops : Source := bytes ",\x7d]):"

/-- The members and calls behind an identifier: whether there are any, and where they end. -/
def memberChain (b : Source) (j : ℕ) : Bool × ℕ :=
  if h : j < b.length then
    if b[j] = byte '.' ∨ b[j] = byte '(' ∨ b[j] = byte '[' then (true, skipExpr b j valueStops)
    else if isAsciiSpace b[j] then memberChain b (j + 1)
    else (false, j)
  else (false, j)
termination_by b.length - j

def isDigit (c : UInt8) : Bool := (Char.ofNat c.toNat).isDigit

def isNumberByte (c : UInt8) : Bool :=
  isDigit c || c = byte '.' || c = byte 'e' || c = byte 'E' || c = byte '+' || c = byte '-'

/-- The end of a number, its sign in front. -/
def numberEnd (b : Source) (i : ℕ) : ℕ :=
  spanEnd isNumberByte b (if b[i]? = some (byte '-') then i + 1 else i)

section

variable (decode : List UInt8 → String) (b : Source)

/-- A key and the offset behind it; nothing when the range of a quoted key runs over the end. -/
def parseKey (start : ℕ) : Option (Option String × ℕ) :=
  let i := skipWs b start
  if h : i < b.length then
    if b[i] = byte '"' ∨ b[i] = byte '\'' then
      let last := closing b b[i] (i + 1)
      if last ≤ b.length then some (some (decode (slice b (i + 1) last)), last + 1) else none
    else if b[i] = byte '[' then some (none, skipExpr b (i + 1) (bytes "]") + 1)
    else
      let last := spanEnd isIdentByte b i
      if i < last then some (some (decode (slice b i last)), last) else some (none, i)
  else some (none, i)

/-- The properties of a spread that are not there yet. -/
def spread (out : List (String × Val)) : Val → List (String × Val)
  | .obj props =>
    props.foldl (fun out p => if out.any (·.1 = p.1) then out else out ++ [p]) out
  | _ => out

/-! ### The parsers -/

/-- What an identifier is read as. -/
def parseIdent (ident : String) (last : ℕ) (cache : Cache) : Reader (Val × ℕ × Cache) :=
  if ident = "true" then .ret (.bool true, last, cache)
  else if ident = "false" then .ret (.bool false, last, cache)
  else if ident = "null" then .ret (.null, last, cache)
  else if ident = "undefined" ∨ ident = "void" then .ret (.undefined, last, cache)
  else do
    let (v, cache) ← askTrace ident cache
    .ret (v.getD (.ref ident), last, cache)

def parseValue (start : ℕ) (cache : Cache) : Reader (Val × ℕ × Cache) :=
  let i := skipWs b start
  if h : i < b.length then
    let c := b[i]
    if isQuote c then
      let last := skipString b i
      .ret (.str (decode (slice b (i + 1) (last - 1))), last, cache)
    else if c = byte '\x7b' then askObject i cache
    else if c = byte '[' then askArray i cache
    else if c = byte '!' ∧ b[i + 1]? = some (byte '0') then .ret (.bool true, i + 2, cache)
    else if c = byte '!' ∧ b[i + 1]? = some (byte '1') then .ret (.bool false, i + 2, cache)
    else if isDigit c ∨ c = byte '.' ∨ c = byte '-' then
      .ret (.num, numberEnd b i, cache)
    else if (Char.ofNat c.toNat).isAlpha ∨ c = byte '_' ∨ c = byte '$' then
      let last := spanEnd isIdentByte b i
      let chain := memberChain b last
      if chain.1 then
        .ret (.ref (String.ofList (trim (decode (slice b i chain.2)).toList)), chain.2, cache)
      else parseIdent (decode (slice b i last)) last cache
    else .ret (.null, skipExpr b i valueStops, cache)
  else .ret (.null, i, cache)

def parseObject (start : ℕ) (cache : Cache) : Reader (Val × ℕ × Cache) := do
  let (out, i, cache) ← askObjectLoop (skipWs b (start + 1)) [] cache
  .ret (.obj out, if i < b.length then i + 1 else i, cache)

/-- One pass over an object, from behind the whitespace on. -/
def objectPass (i : ℕ) (out : List (String × Val)) (cache : Cache) :
    Reader (List (String × Val) × ℕ × Cache) :=
  if (bytes "...").isPrefixOf (b.drop i) then do
    let (v, last, cache) ← askValue (i + 3) cache
    askObjectLoop (skipComma b (skipWs b last)) (spread out v) cache
  else
    match parseKey decode b i with
    | none => .abort
    | some (key, last) =>
      let j := skipWs b last
      if b[j]? = some (byte '(') then
        askObjectLoop (skipComma b (skipExpr b j (bytes ",\x7d"))) out cache
      else if b[j]? ≠ some (byte ':') then
        askObjectLoop (skipComma b j) (out ++ key.toList.map fun k => (k, .ref k)) cache
      else do
        let (v, last, cache) ← askValue (j + 1) cache
        askObjectLoop (skipComma b (skipWs b last)) (out ++ key.toList.map fun k => (k, v)) cache

def parseObjectLoop (i : ℕ) (out : List (String × Val)) (cache : Cache) :
    Reader (List (String × Val) × ℕ × Cache) :=
  if b[i]? = none ∨ b[i]? = some (byte '\x7d') then .ret (out, i, cache)
  else
    let i := skipWs b i
    if b[i]? = none ∨ b[i]? = some (byte '\x7d') then .ret (out, i, cache)
    else objectPass decode b i out cache

def parseArray (start : ℕ) (cache : Cache) : Reader (Val × ℕ × Cache) := do
  let (out, i, cache) ← askArrayLoop (skipWs b (start + 1)) [] cache
  .ret (.arr out, if i < b.length then i + 1 else i, cache)

def parseArrayLoop (i : ℕ) (out : List Val) (cache : Cache) : Reader (List Val × ℕ × Cache) :=
  if b[i]? = none ∨ b[i]? = some (byte ']') then .ret (out, i, cache)
  else do
    let (v, last, cache) ← askValue i cache
    askArrayLoop (skipWs b (skipComma b (skipWs b last))) (out ++ [v]) cache

/-- `Tracer::trace`; an identifier counts as traced to nothing while it is being traced. -/
def trace (ident : String) (cache : Cache) : Reader (Option Val × Cache) :=
  match cache.lookup ident with
  | some v => .ret (v, cache)
  | none => do
    let (last, cache) ← askTraceLoop ident 0 none ((ident, none) :: cache)
    .ret (last, (ident, last) :: cache)

def traceLoop (ident : String) (search : ℕ) (last : Option Val) (cache : Cache) :
    Reader (Option Val × Cache) :=
  match findAssignment b (utf8 ident) search with
  | none => .ret (last, cache)
  | some pos =>
    let after := skipWs b pos
    if b[after]? = some (byte '\x7b') ∨ b[after]? = some (byte '[') then do
      let (v, _, cache) ← askValue after cache
      let last := match v with
        | .null | .undefined => last
        | v => some v
      askTraceLoop ident (pos + 1) last cache
    else askTraceLoop ident (pos + 1) last cache

/-- The bodies of the calls. -/
def body : ∀ c : Call, Reader (Read c)
  | .value start cache => parseValue decode b start cache
  | .object start cache => parseObject b start cache
  | .objectLoop i out cache => parseObjectLoop decode b i out cache
  | .array start cache => parseArray b start cache
  | .arrayLoop i out cache => parseArrayLoop b i out cache
  | .trace ident cache => trace ident cache
  | .traceLoop ident search last cache => traceLoop b ident search last cache

/-! ### The operation -/

/-- The first place of some bytes from an offset on. -/
def findSub (needle : Source) : ℕ → Source → Option ℕ
  | _, [] => none
  | i, c :: rest =>
    if needle.isPrefixOf (c :: rest) then some i else findSub needle (i + 1) rest

/-- The loop out of the braces around a place; `n` is one more than the offset. -/
def findLiteralFrom : ℕ → BitVec 32 → Cache → Reader (Option Val)
  | 0, _, _ => .ret none
  | n + 1, depth, cache =>
    let c := b.getD n 0
    if c ∈ bytes "\x7d)]" then findLiteralFrom n (depth + 1) cache
    else if c = byte '\x7b' then
      if depth = 0 then do
        let (v, _, cache) ← askObject n cache
        if v.kind = "Request" then .ret (some v) else findLiteralFrom n 0 cache
      else findLiteralFrom n (depth - 1) cache
    else if (c = byte '(' ∨ c = byte '[') ∧ 0 < depth.toInt then
      findLiteralFrom n (depth - 1) cache
    else findLiteralFrom n depth cache

def findOperationLiteral : Reader (Option Val) :=
  match findSub (bytes "\"Request\"") 0 b with
  | none => .ret none
  | some marker => findLiteralFrom b (marker + 1) 0 []

end

/-! ### Types of the leaves -/

/-- The type a field's name suggests. -/
def inferScalar (name : String) : String :=
  let boolPrefix := ["is_", "has_", "can_", "should_", "allow_", "are_", "was_", "did_", "fetch_",
    "include_", "enable", "disable"]
  let boolSuffix := ["_enabled", "_disabled", "_allowed", "_required"]
  let numSuffix := ["_count", "_time", "_timestamp", "_ts", "_at", "_secs", "_seconds", "_ms",
    "_index", "_size", "_width", "_height", "_duration", "_revision", "_version", "_number"]
  let numName := ["count", "index", "size", "width", "height", "duration", "timestamp", "limit",
    "offset", "version"]
  let starts := fun p : String => p.toList.isPrefixOf name.toList
  let ends := fun p : String => p.toList.isSuffixOf name.toList
  if boolPrefix.any starts || boolSuffix.any ends || name = "enabled" then "boolean"
  else if numSuffix.any ends || numName.contains name then "number"
  else "string"

/-- A name of a list of ids. -/
def isIdListName (name : String) : Bool :=
  "_ids".toList.isSuffixOf name.toList || "_jids".toList.isSuffixOf name.toList

mutual

/-- Type the leaves below a node; `vars` is for the variables of an operation. -/
def typeNode (vars : Bool) (keyHint : String) : TypeNode → TypeNode
  | .leaf tag => .leaf (if tag = TypeNode.unknown then inferScalar keyHint else tag)
  | .array items => .array (typeItems vars keyHint items)
  | .object fields => .object (typeFields vars fields)

def typeItems (vars : Bool) (keyHint : String) : List TypeNode → List TypeNode
  | [] => []
  | n :: rest => typeNode vars keyHint n :: typeItems vars keyHint rest

/-- `type_field` for every field; an untyped list of ids among variables is a list of strings. -/
def typeFields (vars : Bool) : List (String × TypeNode) → List (String × TypeNode)
  | [] => []
  | (key, n) :: rest =>
    (key, match n with
      | .leaf tag =>
        if vars && tag = TypeNode.unknown && isIdListName key then .array [.leaf "string"]
        else typeNode vars key (.leaf tag)
      | n => typeNode vars key n) :: typeFields vars rest

end

/-- The response tree of a module's operation. -/
def responseFromModule (b : Source) : Reader (List (String × TypeNode)) := do
  let op ← findOperationLiteral b
  let selections := (op.bind fun op => op.get "operation").bind fun o => o.get "selections"
  .ret (typeFields false ((selections.map shapeFromSelections).getD []))

end Whatspec.Mex

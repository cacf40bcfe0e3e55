import Mathlib.Data.List.Basic

/-!
# Reading a cascade off its text

A cascade tries one parser after the other and returns the first result under a name.  The text of
the cascade is searched for the names; the parser of a name is the one called nearest before it.

* `position` and `lastPosition` are the searches for a piece of text;
* `nearestParseCallBefore` finds the call, `scanCascadeVariants` the arms.
-/

namespace Whatspec.Scan.Cascades

/-- An arm of a cascade: the name it returns, and the module and function of its parser. -/
abbrev Arm := String × String × String

/-- The first place of a piece of text. -/
def position (piece : List Char) : List Char → Option ℕ
  | [] => if piece = [] then some 0 else none
  | c :: rest =>
    if piece.isPrefixOf (c :: rest) then some 0 else (position piece rest).map (· + 1)

/-- The last place of a piece of text. -/
def lastPosition (piece : List Char) : List Char → Option ℕ
  | [] => if piece = [] then some 0 else none
  | c :: rest =>
    match lastPosition piece rest with
    | some i => some (i + 1)
    | none => if piece.isPrefixOf (c :: rest) then some 0 else none

/-- What stands before the name of an arm. -/
def nameMark : List Char := "\x7bname:\"".toList

/-- What stands before the module of a parser. -/
def callMark : List Char := "o(\"WASmaxIn".toList

/-- `nearest_parse_call_before`: the parser whose call begins nearest before a place.  The two bytes
after the module's name are passed over; a longer letter there would be cut. -/
def nearestParseCallBefore (source : List Char) (pos : ℕ) : Option (String × String) := do
  let start ← lastPosition callMark (source.take pos)
  let nameStart := start + "o(\"".length
  let stop ← position ['"'] (source.drop nameStart)
  match source.drop (nameStart + stop) with
  | _ :: c :: '.' :: dot =>
    if c.val < 128 then do
      let paren ← position ['('] dot
      some (String.ofList ((source.drop nameStart).take stop), String.ofList (dot.take paren))
    else none
  | _ => none

/-- The loop over the names from a place on; every round passes one, so that the length of the text
bounds the rounds. -/
def scanFrom (source : List Char) : ℕ → ℕ → List Arm
  | 0, _ => []
  | rounds + 1, start =>
    match position nameMark (source.drop start) with
    | none => []
    | some rel =>
      let nameStart := start + rel + nameMark.length
      match position ['"'] (source.drop nameStart) with
      | none => []
      | some stop =>
        let rest := scanFrom source rounds (nameStart + stop)
        match nearestParseCallBefore source (start + rel) with
        | some (module, function) =>
          (String.ofList ((source.drop nameStart).take stop), module, function) :: rest
        | none => rest

/-- `scan_cascade_variants`: the arms of a cascade, in the order of their names in the text. -/
def scanCascadeVariants (slice : String) : List Arm :=
  scanFrom slice.toList (slice.toList.length + 1) 0

end Whatspec.Scan.Cascades

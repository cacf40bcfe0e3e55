import Whatspec.Library.StringLiterals

/-!
# Text inside the messages of the generated code

A wire name stands inside a message of `anyhow!`, `ensure!` or `bail!`, which is a string literal and
a format string at once.  `fmtLitInner` doubles the braces first and escapes what comes out, and the
compiler undoes the two in the other order.

**`fmtLitInner_read`**: the literal goes on after the text, and the text is read as it was.
-/

namespace Whatspec.Codegen

open Whatspec.Library StringLiterals

variable (printable : Char → Bool)

def rustLit (s : String) : String := String.ofList (Rendering.quoted printable s)

/-- The literal without its quotes. -/
def rustLitInner (s : String) : String :=
  let lit := rustLit printable s
  String.ofList ((lit.toList.drop 1).dropLast)

/-- Every occurrence of a character replaced. -/
def replaced (c : Char) (written : List Char) (s : String) : String :=
  String.ofList (s.toList.flatMap fun d => if d = c then written else [d])

def fmtLitInner (s : String) : String :=
  rustLitInner printable (replaced '\x7d' ['\x7d', '\x7d'] (replaced '\x7b' ['\x7b', '\x7b'] s))

theorem toList_rustLitInner (s : String) :
    (rustLitInner printable s).toList = s.toList.flatMap (Rendering.escape printable) := by
  rw [rustLitInner, rustLit, String.toList_ofList, String.toList_ofList, Rendering.quoted]
  show (s.toList.flatMap (Rendering.escape printable) ++ ['"']).dropLast = _
  exact List.dropLast_concat

/-- One replacement after the other doubles both braces. -/
theorem toList_replaced (s : String) :
    (replaced '\x7d' ['\x7d', '\x7d'] (replaced '\x7b' ['\x7b', '\x7b'] s)).toList =
      s.toList.flatMap doubled := by
  rw [replaced, replaced, String.toList_ofList, String.toList_ofList, List.flatMap_assoc]
  congr 1
  funext c
  rw [doubled]
  by_cases hopen : c = '\x7b'
  · subst hopen
    rfl
  · rw [if_neg hopen, List.flatMap_singleton]
    by_cases hclose : c = '\x7d'
    · rw [if_pos hclose, if_pos (Or.inr hclose), hclose]
    · rw [if_neg hclose, if_neg (not_or.mpr ⟨hopen, hclose⟩)]

/-- **The text of a message does not end the literal, holds no placeholder, and is read back.** -/
theorem fmtLitInner_read (s : String) (rest : List Char) :
    ∃ text, lexLiteral ((fmtLitInner printable s).toList ++ '"' :: rest) = some (text, rest) ∧
      interpret text = some s.toList := by
  refine ⟨s.toList.flatMap doubled, ?_, interpret_doubled s.toList⟩
  rw [fmtLitInner, toList_rustLitInner, toList_replaced]
  exact lexLiteral_escaped printable _ rest

end Whatspec.Codegen

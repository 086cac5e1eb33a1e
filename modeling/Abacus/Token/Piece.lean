import Abacus.Span
import Abacus.Unicode.Numeric

namespace Abacus

-- Whether a numeric run goes on with the character.
def continuesRun (c : Char) : Bool :=
  Unicode.isNumeric c || c = '.'

inductive Piece where
  | run (s : List Char)
  | mark (c : Char)
  deriving DecidableEq, Repr

namespace Piece

def text : Piece → List Char
  | run s => s
  | mark c => [c]

-- The pieces of a text whose first character is at position `p`.
def pieces (p : Nat) : List Char → List (Spanned Piece)
  | [] => []
  | c :: s =>
    if Unicode.isNumeric c then
      let r := c :: s.takeWhile continuesRun
      ⟨.run r, p, p + r.length⟩ :: pieces (p + r.length) (s.dropWhile continuesRun)
    else
      ⟨.mark c, .single p⟩ :: pieces (p + 1) s
termination_by s => s.length
decreasing_by
  · have := (s.dropWhile_suffix continuesRun).length_le
    simp only [List.length_cons]
    omega
  · simp

theorem flatMap_text_pieces (p : Nat) (s : List Char) :
    (pieces p s).flatMap (·.value.text) = s := by
  fun_induction pieces p s with
  | case1 => rfl
  | case2 p c s _ r ih =>
    rw [List.flatMap_cons, ih]
    exact congrArg (c :: ·) List.takeWhile_append_dropWhile
  | case3 p c s _ ih =>
    rw [List.flatMap_cons, ih]
    rfl

end Piece

end Abacus

import Abacus.Decimal.Literal
import Abacus.Fault
import Abacus.Token
import Abacus.Token.Piece

namespace Abacus

-- How far a text has been read. Both lists have their newest entry first.
structure Scan where
  tokens : List (Spanned Token) := []
  -- The places of the opening brackets that are still without a partner.
  unclosed : List Span := []

namespace Scan

def last? (s : Scan) : Option Token :=
  s.tokens.head?.map (·.value)

def push (s : Scan) (t : Token) (place : Span) : Scan :=
  { s with tokens := ⟨t, place⟩ :: s.tokens }

-- Adds the `*` that a closing bracket implies when an operand follows it at `p`.
def imply (s : Scan) (p : Nat) : Scan :=
  if s.last? = some .closing then s.push (.operator .times) (.before p) else s

def number (s : Scan) (r : List Char) (place : Span) : Except (Spanned Fault) Scan :=
  match Decimal.doubleOfLiteral? r with
  -- Two numbers never meet, as a run takes in all the numeric characters there are.
  | some x => .ok ((s.imply place.start).push (.number x) place)
  | none => .error ⟨.unreadableNumber, place⟩

def opening (s : Scan) (place : Span) : Scan :=
  let s := (s.imply place.start).push .opening place
  { s with unclosed := place :: s.unclosed }

def closing (s : Scan) (place : Span) : Except (Spanned Fault) Scan :=
  match s.unclosed with
  | [] => .error ⟨.unpairedBracket, place⟩
  | _ :: outer => .ok { s.push .closing place with unclosed := outer }

def operator (s : Scan) (o : Operator) (place : Span) : Except (Spanned Fault) Scan :=
  if s.last?.any Token.isOperator then
    .error ⟨.missingOperand, place⟩
  else
    .ok (s.push (.operator o) place)

def mark (s : Scan) (c : Char) (place : Span) : Except (Spanned Fault) Scan :=
  match c with
  | '(' => .ok (s.opening place)
  | ')' => s.closing place
  | _ =>
    match Operator.ofChar? c with
    | some o => s.operator o place
    | none => .error ⟨.foreignCharacter, place⟩

def step (s : Scan) (p : Spanned Piece) : Except (Spanned Fault) Scan :=
  match p.value with
  | .run r => s.number r p.span
  | .mark c => s.mark c p.span

-- Reads on through a text whose first character is at position `p`.
def run (s : Scan) (p : Nat) : List Char → Except (Spanned Fault) Scan
  | [] => .ok s
  | c :: cs =>
    if Unicode.isNumeric c then
      let r := c :: cs.takeWhile continuesRun
      match s.number r ⟨p, p + r.length⟩ with
      | .ok s => s.run (p + r.length) (cs.dropWhile continuesRun)
      | .error e => .error e
    else
      match s.mark c (.single p) with
      | .ok s => s.run (p + 1) cs
      | .error e => .error e
termination_by cs => cs.length
decreasing_by
  · have := (cs.dropWhile_suffix continuesRun).length_le
    simp only [List.length_cons]
    omega
  · simp

-- Reading on is a step for each piece.
theorem run_eq_foldlM (s : Scan) (p : Nat) (cs : List Char) :
    s.run p cs = (Piece.pieces p cs).foldlM step s := by
  fun_induction run s p cs with
  | case1 => rw [Piece.pieces]; rfl
  | case2 s p c cs h r s' hs ih =>
    have hstep : s.step ⟨.run r, p, p + r.length⟩ = .ok s' := hs
    rw [ih, Piece.pieces, if_pos h, List.foldlM_cons, hstep]
    rfl
  | case3 s p c cs h r e hs =>
    have hstep : s.step ⟨.run r, p, p + r.length⟩ = .error e := hs
    rw [Piece.pieces, if_pos h, List.foldlM_cons, hstep]
    rfl
  | case4 s p c cs h s' hs ih =>
    have hstep : s.step ⟨.mark c, .single p⟩ = .ok s' := hs
    rw [ih, Piece.pieces, if_neg h, List.foldlM_cons, hstep]
    rfl
  | case5 s p c cs h e hs =>
    have hstep : s.step ⟨.mark c, .single p⟩ = .error e := hs
    rw [Piece.pieces, if_neg h, List.foldlM_cons, hstep]
    rfl

-- The tokens of a text that has been read to its end.
def finish (s : Scan) : Except (Spanned Fault) (List (Spanned Token)) :=
  match s.unclosed with
  | [] => .ok s.tokens.reverse
  | place :: _ => .error ⟨.unpairedBracket, place⟩

end Scan

-- Brackets that are left open are at fault only where nothing else is.
def tokenize (source : List Char) : Except (Spanned Fault) (List (Spanned Token)) :=
  match Scan.run {} 0 source with
  | .ok s => s.finish
  | .error e => .error e

end Abacus

import Abacus.Calculator
import Abacus.Proofs.Language
import Abacus.Proofs.Places

namespace Abacus

-- What moves a place of no width as it moves any other place that starts there.
def KeepsStarts (g : Span → Span) : Prop :=
  ∀ s : Span, g (.before s.start) = .before (g s).start

namespace Scan

def move (g : Span → Span) (s : Scan) : Scan where
  tokens   := s.tokens.map (.move g)
  unclosed := s.unclosed.map g

variable {g : Span → Span}

theorem last?_move (s : Scan) : (s.move g).last? = s.last? := by
  simp only [last?, move, List.head?_map, Option.map_map]
  rfl

theorem imply_move (hg : KeepsStarts g) (s : Scan) (place : Span) :
    (s.move g).imply (g place).start = (s.imply place.start).move g := by
  unfold imply
  rw [last?_move, ← hg]
  split <;> rfl

theorem number_move (hg : KeepsStarts g) (s : Scan) (r : List Char) (place : Span) :
    (s.move g).number r (g place) = ((s.number r place).map (.move g)).mapError (.move g) := by
  unfold number
  rw [imply_move hg]
  split <;> rfl

theorem opening_move (hg : KeepsStarts g) (s : Scan) (place : Span) :
    (s.move g).opening (g place) = (s.opening place).move g := by
  unfold opening
  rw [imply_move hg]
  rfl

theorem closing_move (s : Scan) (place : Span) :
    (s.move g).closing (g place) = ((s.closing place).map (.move g)).mapError (.move g) := by
  have ⟨tokens, unclosed⟩ := s
  cases unclosed <;> rfl

theorem operator_move (s : Scan) (o : Operator) (place : Span) :
    (s.move g).operator o (g place) =
      ((s.operator o place).map (.move g)).mapError (.move g) := by
  unfold operator
  rw [last?_move]
  split <;> rfl

theorem mark_move (hg : KeepsStarts g) (s : Scan) (c : Char) (place : Span) :
    (s.move g).mark c (g place) = ((s.mark c place).map (.move g)).mapError (.move g) := by
  unfold mark
  split
  case h_1 => exact congrArg Except.ok (opening_move hg s place)
  case h_2 => exact closing_move s place
  case h_3 =>
    split
    case h_1 o _ => exact operator_move s o place
    case h_2 => rfl

theorem step_move (hg : KeepsStarts g) (s : Scan) (p : Spanned Piece) :
    (s.move g).step (p.move g) = ((s.step p).map (.move g)).mapError (.move g) := by
  have ⟨piece, place⟩ := p
  cases piece
  case run r => exact number_move hg s r place
  case mark c => exact mark_move hg s c place

theorem foldlM_move (hg : KeepsStarts g) (s : Scan) (ps : List (Spanned Piece)) :
    (ps.map (.move g)).foldlM step (s.move g) =
      ((ps.foldlM step s).map (.move g)).mapError (.move g) := by
  induction ps generalizing s
  case nil => rfl
  case cons p ps ih =>
    rw [List.map_cons, List.foldlM_cons, List.foldlM_cons, step_move hg]
    cases s.step p
    case error e => rfl
    case ok s' => exact ih s'

theorem finish_move (s : Scan) :
    (s.move g).finish = (s.finish.map (.map (.move g))).mapError (.move g) := by
  have ⟨tokens, unclosed⟩ := s
  cases unclosed
  case nil => exact congrArg Except.ok List.map_reverse.symm
  case cons => rfl

end Scan

-- The tokens of a text by its pieces.
def tokenizePieces (ps : List (Spanned Piece)) : Except (Spanned Fault) (List (Spanned Token)) :=
  ps.foldlM Scan.step {} >>= Scan.finish

theorem tokenize_eq_tokenizePieces (source : List Char) :
    tokenize source = tokenizePieces (Piece.pieces 0 source) := by
  rw [tokenize, tokenizePieces, Scan.run_eq_foldlM]
  cases (Piece.pieces 0 source).foldlM Scan.step {} <;> rfl

theorem tokenizePieces_move {g : Span → Span} (hg : KeepsStarts g) (ps : List (Spanned Piece)) :
    tokenizePieces (ps.map (.move g)) =
      ((tokenizePieces ps).map (.map (.move g))).mapError (.move g) := by
  have h : (ps.map (.move g)).foldlM Scan.step {} = _ := Scan.foldlM_move hg {} ps
  rw [tokenizePieces, tokenizePieces, h]
  cases ps.foldlM Scan.step {}
  case error e => rfl
  case ok s => exact s.finish_move

-- What a text is read as, wherever it stands.
def unplaced (result : Except (Spanned Fault) (List (Spanned Token))) :
    Except Fault (List Token) :=
  (result.map (.map (·.value))).mapError (·.value)

theorem unplaced_move (g : Span → Span) (result : Except (Spanned Fault) (List (Spanned Token))) :
    unplaced ((result.map (.map (.move g))).mapError (.move g)) = unplaced result := by
  cases result
  case error e => rfl
  case ok tokens => simp [unplaced, Except.map, Except.mapError, Spanned.move, Function.comp_def]

theorem unplaced_tokenize (source : List Char) :
    unplaced (tokenize source) =
      unplaced (tokenizePieces ((Piece.ofText source).map .bare)) := by
  have hg : KeepsStarts fun _ => .before 0 := fun _ => rfl
  have hm := tokenizePieces_move hg (Piece.pieces 0 source)
  rw [Piece.ofText, List.map_map, ← Spanned.move_const, hm, unplaced_move,
    tokenize_eq_tokenizePieces]

theorem unplaced_tokenize_eq_ok_iff {source : List Char} {ts : List Token} :
    unplaced (tokenize source) = .ok ts ↔
      ∃ tokens, tokenize source = .ok tokens ∧ tokens.map (·.value) = ts := by
  cases tokenize source
  case error e => exact iff_of_false nofun nofun
  case ok tokens =>
    constructor
    case mp => exact fun h => ⟨tokens, rfl, Except.ok.inj h⟩
    case mpr =>
      rintro ⟨_, h, rfl⟩
      cases h
      rfl

theorem calculate_eq_unplaced (calculator : Calculator) (source : String) :
    calculator.calculate source =
      unplaced (tokenize source.toList) >>= fun ts =>
        (evaluate calculator.maxDepth (ts.map .bare)).mapError (·.value) := by
  rw [Calculator.calculate, Calculator.evaluate]
  cases tokenize source.toList
  case error e => rfl
  case ok tokens => exact evaluate_bare calculator.maxDepth tokens

end Abacus

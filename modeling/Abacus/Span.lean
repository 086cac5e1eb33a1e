namespace Abacus

-- A half-open range of character positions. Nothing asks that it ends behind its start.
@[ext]
structure Span where
  start : Nat
  stop : Nat
  deriving DecidableEq, Repr, Inhabited

namespace Span

-- The place of the single character at `p`.
def single (p : Nat) : Span :=
  ⟨p, p + 1⟩

-- The place of no width in front of the character at `p`.
def before (p : Nat) : Span :=
  ⟨p, p⟩

-- The smallest place that holds both.
def cover (s t : Span) : Span where
  start := min s.start t.start
  stop := max s.stop t.stop

def shift (s : Span) (n : Nat) : Span :=
  ⟨s.start + n, s.stop + n⟩

def IsEmpty (s : Span) : Prop :=
  s.start = s.stop

instance (s : Span) : Decidable s.IsEmpty :=
  inferInstanceAs (Decidable (s.start = s.stop))

theorem before_isEmpty (p : Nat) : (before p).IsEmpty :=
  rfl

theorem cover_self (s : Span) : s.cover s = s := by
  simp [cover]

theorem shift_cover (s t : Span) (n : Nat) :
    (s.cover t).shift n = (s.shift n).cover (t.shift n) := by
  simp [cover, shift]

theorem shift_zero (s : Span) : s.shift 0 = s :=
  rfl

end Span

-- Something together with its place in the source.
@[ext]
structure Spanned (α : Type) where
  value : α
  span : Span
  deriving DecidableEq, Repr

namespace Spanned

def map {α β : Type} (f : α → β) (x : Spanned α) : Spanned β :=
  ⟨f x.value, x.span⟩

def shift {α : Type} (x : Spanned α) (n : Nat) : Spanned α :=
  ⟨x.value, x.span.shift n⟩

end Spanned

end Abacus

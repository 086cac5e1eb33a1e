import Abacus.Json.Lexeme
import Mathlib.Tactic.SplitIfs

namespace Abacus

def utf8 (s : List Char) : List UInt8 :=
  s.flatMap String.utf8EncodeChar

namespace Json

-- One spelling behind the other.
inductive Row {α β : Type} (Spelled : α → List β → Prop) : List α → List β → Prop
  | nil : Row Spelled [] []
  | cons {a : α} {as : List α} {t ts : List β} :
    Spelled a t → Row Spelled as ts → Row Spelled (a :: as) (t ++ ts)

-- The letters behind a backslash, each with the character that it stands for.
def shortEscapes : List (Char × Char) :=
  [('"', '"'), ('\\', '\\'), ('/', '/'), ('b', '\x08'), ('f', '\x0c'), ('n', '\n'), ('r', '\r'),
    ('t', '\t')]

-- A hexadecimal digit in either case.
def IsHexDigit (d : Nat) (c : Char) : Prop :=
  d < 16 ∧ (c = Nat.digitChar d ∨ c = (Nat.digitChar d).toUpper)

-- The four digits of a code unit.
inductive IsHex : Nat → List Char → Prop
  | digits {a b c d : Nat} {c₁ c₂ c₃ c₄ : Char} :
    IsHexDigit a c₁ → IsHexDigit b c₂ → IsHexDigit c c₃ → IsHexDigit d c₄ →
    IsHex (((a * 16 + b) * 16 + c) * 16 + d) [c₁, c₂, c₃, c₄]

-- Bytes may be anything but quotes, backslashes and control characters.
inductive Mark.IsSpelled : Mark → List UInt8 → Prop
  | raw {b : UInt8} : 0x20 ≤ b → b ≠ 0x22 → b ≠ 0x5c → IsSpelled (.byte b) [b]
  | short {l c : Char} : (l, c) ∈ shortEscapes → IsSpelled (.byte c.toUInt8) (utf8 ['\\', l])
  | unit {u : Nat} {digits : List Char} :
    IsHex u digits → IsSpelled (.unit u) (utf8 ('\\' :: 'u' :: digits))

-- The surrogates of a character that one code unit can not hold.
def highSurrogate (c : Char) : Nat :=
  0xD800 + (c.toNat - 0x10000) / 0x400

def lowSurrogate (c : Char) : Nat :=
  0xDC00 + (c.toNat - 0x10000) % 0x400

-- The marks of a character.
inductive IsMarked : Char → List Mark → Prop
  | bytes {c : Char} : IsMarked c ((String.utf8EncodeChar c).map .byte)
  | unit {c : Char} : c.toNat < 0x10000 → IsMarked c [.unit c.toNat]
  | pair {c : Char} :
    0x10000 ≤ c.toNat → IsMarked c [.unit (highSurrogate c), .unit (lowSurrogate c)]

def Spells (s : String) (marks : List Mark) : Prop :=
  Row IsMarked s.toList marks

end Json

theorem utf8_cons (c : Char) (s : List Char) : utf8 (c :: s) = String.utf8EncodeChar c ++ utf8 s :=
  rfl

theorem utf8_append (s t : List Char) : utf8 (s ++ t) = utf8 s ++ utf8 t :=
  List.flatMap_append

theorem utf8_toList (s : String) : utf8 s.toList = s.toUTF8.data.toList := by
  have h : s.toList.utf8Encode = s.toByteArray := String.utf8Encode_toList
  rw [String.toUTF8_eq_toByteArray, ← h, List.utf8Encode, List.toList_data_toByteArray]
  rfl

theorem fromUTF8?_utf8 (s : String) : String.fromUTF8? ⟨(utf8 s.toList).toArray⟩ = some s := by
  have h : (⟨(utf8 s.toList).toArray⟩ : ByteArray) = s.toByteArray := by
    rw [utf8_toList]
    rfl
  rw [h, String.fromUTF8?, dif_pos s.isValidUTF8]
  rfl

theorem utf8EncodeChar_ascii {c : Char} (h : c.toNat < 0x80) :
    String.utf8EncodeChar c = [c.toUInt8] := by
  have hv : c.val.toNat ≤ 0x7f := Nat.le_of_lt_succ h
  simp only [String.utf8EncodeChar, if_pos hv]
  rfl

theorem ofUInt8_toUInt8 {c : Char} (h : c.toNat < 0x80) : Char.ofUInt8 c.toUInt8 = c := by
  have hv : c.val.toNat < 256 := Nat.lt_trans h (by decide)
  apply Char.ext
  apply UInt32.toNat_inj.mp
  change (c.val.toUInt8).toUInt32.toNat = c.val.toNat
  rw [UInt8.toNat_toUInt32, UInt32.toNat_toUInt8, Nat.mod_eq_of_lt hv]

theorem ofUInt8_injective {b b' : UInt8} (h : Char.ofUInt8 b = Char.ofUInt8 b') : b = b' := by
  have hv : b.toUInt32.toNat = b'.toUInt32.toNat := congrArg (fun c : Char => c.val.toNat) h
  rw [UInt8.toNat_toUInt32, UInt8.toNat_toUInt32] at hv
  exact UInt8.toNat_inj.mp hv

-- The bytes of a character that is not ASCII are no ASCII characters either.
theorem le_of_mem_utf8EncodeChar {c : Char} (h : 0x80 ≤ c.toNat) {b : UInt8}
    (hb : b ∈ String.utf8EncodeChar c) : 0x80 ≤ b := by
  have hv : ¬c.val.toNat ≤ 0x7f := Nat.not_le.mpr h
  change 128 ≤ b.toNat
  simp only [String.utf8EncodeChar, if_neg hv] at hb
  split_ifs at hb <;> simp only [List.mem_cons, List.not_mem_nil, or_false] at hb
  all_goals
    rcases hb with rfl | rfl | rfl | rfl <;> simp only [UInt8.toNat_ofNat'] <;> omega

namespace Json

variable {c l : Char} {b : UInt8} {u d n : Nat} {digits : List Char} {marks : List Mark}
  {t : List UInt8} {s : String}

theorem digit?_of_isHexDigit (h : IsHexDigit d c) : digit? 16 c = some d := by
  have ⟨hd, hc⟩ := h
  have table : ∀ d < 16, digit? 16 (Nat.digitChar d) = some d ∧
      digit? 16 (Nat.digitChar d).toUpper = some d := by decide
  cases hc
  case inl e => exact e ▸ (table d hd).left
  case inr e => exact e ▸ (table d hd).right

theorem lt_of_isHexDigit (h : IsHexDigit d c) : c.toNat < 0x80 := by
  have ⟨hd, hc⟩ := h
  have table : ∀ d < 16, (Nat.digitChar d).toNat < 0x80 ∧
      (Nat.digitChar d).toUpper.toNat < 0x80 := by decide
  cases hc
  case inl e => exact e ▸ (table d hd).left
  case inr e => exact e ▸ (table d hd).right

theorem shortEscapes_ascii : ∀ p ∈ shortEscapes, p.1.toNat < 0x80 ∧ p.2.toNat < 0x80 := by
  decide

theorem unescape?_of_mem (h : (l, c) ∈ shortEscapes) : l ≠ 'u' ∧ Lexeme.unescape? l = some c := by
  have table : ∀ p ∈ shortEscapes, p.1 ≠ 'u' ∧ Lexeme.unescape? p.1 = some p.2 := by decide
  exact table _ h

namespace Lexer

variable {done : List Lexeme}

theorem run?_cons (x : Lexer) (b : UInt8) (rest : List UInt8) :
    x.run? (b :: rest) = (x.step? b).bind (·.run? rest) :=
  List.foldlM_cons

theorem run?_ascii (h : c.toNat < 0x80) (x : Lexer) (s : List Char) (rest : List UInt8) :
    x.run? (utf8 (c :: s) ++ rest) = (x.step? c.toUInt8).bind (·.run? (utf8 s ++ rest)) := by
  rw [utf8_cons, utf8EncodeChar_ascii h]
  exact run?_cons ..

theorem step?_escape (done : List Lexeme) (marks : List Mark) :
    step? ⟨done, .text marks⟩ '\\'.toUInt8 = some ⟨done, .escape marks⟩ :=
  rfl

theorem step?_unit (h : IsHexDigit d c) (hn : n < 3) (done : List Lexeme) (marks : List Mark)
    (u : Nat) :
    step? ⟨done, .unit marks u n⟩ c.toUInt8 = some ⟨done, .unit marks (u * 16 + d) (n + 1)⟩ := by
  have hne : n ≠ 3 := by omega
  simp only [step?, unitStep?, ofUInt8_toUInt8 (lt_of_isHexDigit h), digit?_of_isHexDigit h,
    Option.map_some, if_neg hne]

theorem step?_lastUnit (h : IsHexDigit d c) (done : List Lexeme) (marks : List Mark) (u : Nat) :
    step? ⟨done, .unit marks u 3⟩ c.toUInt8 =
      some ⟨done, .text (.unit (u * 16 + d) :: marks)⟩ := by
  simp only [step?, unitStep?, ofUInt8_toUInt8 (lt_of_isHexDigit h), digit?_of_isHexDigit h,
    Option.map_some, if_true]

theorem step?_raw (hc : 0x20 ≤ b) (hq : b ≠ 0x22) (hb : b ≠ 0x5c) (done : List Lexeme)
    (marks : List Mark) :
    step? ⟨done, .text marks⟩ b = some ⟨done, .text (.byte b :: marks)⟩ := by
  have hq : Char.ofUInt8 b ≠ Char.ofUInt8 0x22 := fun h => hq (ofUInt8_injective h)
  have hb : Char.ofUInt8 b ≠ Char.ofUInt8 0x5c := fun h => hb (ofUInt8_injective h)
  change textStep? ⟨done, .text marks⟩ marks b = _
  unfold textStep?
  split
  case h_1 h => exact absurd h hq
  case h_2 h => exact absurd h hb
  case h_3 => exact if_neg (UInt8.not_lt.mpr hc)

theorem run?_mark {m : Mark} (h : m.IsSpelled t) (done : List Lexeme) (marks : List Mark)
    (rest : List UInt8) :
    run? ⟨done, .text marks⟩ (t ++ rest) = run? ⟨done, .text (m :: marks)⟩ rest := by
  cases h
  case raw b hc hq hb =>
    rw [List.singleton_append, run?_cons, step?_raw hc hq hb]
    rfl
  case short l c hm =>
    have ⟨hl, _⟩ := shortEscapes_ascii _ hm
    have ⟨hu, he⟩ := unescape?_of_mem hm
    rw [run?_ascii (by decide), step?_escape, Option.bind_some, run?_ascii hl]
    simp only [step?, escapeStep?, ofUInt8_toUInt8 hl, if_neg hu, he, Option.map_some]
    rfl
  case unit u digits hd =>
    cases hd
    case digits a b c d c₁ c₂ c₃ c₄ h₁ h₂ h₃ h₄ =>
      have hu : step? ⟨done, .escape marks⟩ 'u'.toUInt8 = some ⟨done, .unit marks 0 0⟩ := rfl
      rw [run?_ascii (by decide), step?_escape, Option.bind_some, run?_ascii (by decide), hu,
        Option.bind_some, run?_ascii (lt_of_isHexDigit h₁), step?_unit h₁ (by decide),
        Option.bind_some, run?_ascii (lt_of_isHexDigit h₂), step?_unit h₂ (by decide),
        Option.bind_some, run?_ascii (lt_of_isHexDigit h₃), step?_unit h₃ (by decide),
        Option.bind_some, run?_ascii (lt_of_isHexDigit h₄), step?_lastUnit h₄, Option.bind_some,
        Nat.zero_mul, Nat.zero_add]
      rfl

theorem run?_marks (h : Row Mark.IsSpelled marks t) (done : List Lexeme) (before : List Mark)
    (rest : List UInt8) :
    run? ⟨done, .text before⟩ (t ++ rest) = run? ⟨done, .text (marks.reverse ++ before)⟩ rest := by
  induction h generalizing before
  case nil => rfl
  case cons m marks t ts hm _ ih =>
    rw [List.append_assoc, run?_mark hm, ih, List.reverse_cons, List.append_assoc]
    rfl

-- A string is read up to the quote that ends it.
theorem run?_quoted (h : Row Mark.IsSpelled marks t) (done : List Lexeme) (rest : List UInt8) :
    run? ⟨done, .nothing⟩ (0x22 :: t ++ 0x22 :: rest) =
      run? ⟨.text marks :: done, .nothing⟩ rest := by
  have hopen : step? ⟨done, .nothing⟩ 0x22 = some ⟨done, .text []⟩ := rfl
  have hclose : step? ⟨done, .text marks.reverse⟩ 0x22 = some ⟨.text marks :: done, .nothing⟩ :=
    congrArg (fun m => some (⟨.text m :: done, .nothing⟩ : Lexer)) marks.reverse_reverse
  rw [List.cons_append, run?_cons, hopen, Option.bind_some, run?_marks h, List.append_nil,
    run?_cons, hclose, Option.bind_some]

end Lexer

theorem not_isSurrogate (c : Char) :
    Mark.isHighSurrogate c.toNat = false ∧ Mark.isLowSurrogate c.toNat = false := by
  have h : c.toNat < 0xD800 ∨ 0xDFFF < c.toNat ∧ c.toNat < 0x110000 := c.valid
  simp only [Mark.isHighSurrogate, Mark.isLowSurrogate, Bool.and_eq_false_iff,
    decide_eq_false_iff_not]
  omega

theorem isSurrogate_pair (h : 0x10000 ≤ c.toNat) :
    Mark.isHighSurrogate (highSurrogate c) ∧ Mark.isLowSurrogate (lowSurrogate c) := by
  have hc : c.toNat < 0xD800 ∨ 0xDFFF < c.toNat ∧ c.toNat < 0x110000 := c.valid
  unfold Mark.isHighSurrogate Mark.isLowSurrogate highSurrogate lowSurrogate
  simp
  omega

theorem pair_surrogates (h : 0x10000 ≤ c.toNat) :
    Mark.pair (highSurrogate c) (lowSurrogate c) = c := by
  have e : 0x10000 + (highSurrogate c - 0xD800) * 0x400 + (lowSurrogate c - 0xDC00) = c.toNat := by
    unfold highSurrogate lowSurrogate
    omega
  rw [Mark.pair, e, Char.ofNat_toNat]

theorem bytes?_map_byte (bytes : List UInt8) (rest : List Mark) :
    Mark.bytes? (bytes.map .byte ++ rest) = (Mark.bytes? rest).map (bytes ++ ·) := by
  induction bytes
  case nil => simp
  case cons b bytes ih =>
    rw [List.map_cons, List.cons_append, Mark.bytes?, ih, Option.map_map]
    rfl

-- A unit that is no surrogate needs none behind it.
theorem bytes?_unit (c : Char) (rest : List Mark) :
    Mark.bytes? (.unit c.toNat :: rest) =
      (Mark.bytes? rest).map (String.utf8EncodeChar c ++ ·) := by
  have ⟨hh, hl⟩ := not_isSurrogate c
  cases rest
  case nil => simp [Mark.bytes?, hh, hl, Char.ofNat_toNat]
  case cons m rest => cases m <;> simp [Mark.bytes?, hh, hl, Char.ofNat_toNat]

theorem IsMarked.bytes?_append (h : IsMarked c marks) (rest : List Mark) :
    Mark.bytes? (marks ++ rest) = (Mark.bytes? rest).map (String.utf8EncodeChar c ++ ·) := by
  cases h
  case bytes => exact bytes?_map_byte _ rest
  case unit => exact bytes?_unit c rest
  case pair h =>
    have ⟨hh, hl⟩ := isSurrogate_pair h
    simp [Mark.bytes?, hh, hl, pair_surrogates h]

theorem bytes?_of_row {chars : List Char} (h : Row IsMarked chars marks) :
    Mark.bytes? marks = some (utf8 chars) := by
  induction h
  case nil => rfl
  case cons c chars marks rest hc _ ih =>
    rw [hc.bytes?_append, ih]
    rfl

-- A text has its own bytes for marks.
theorem row_isMarked_utf8 (chars : List Char) : Row IsMarked chars ((utf8 chars).map .byte) := by
  induction chars
  case nil => exact .nil
  case cons c chars ih =>
    rw [utf8_cons, List.map_append]
    exact .cons .bytes ih

theorem row_isSpelled_raw {bytes : List UInt8}
    (h : ∀ b ∈ bytes, 0x20 ≤ b ∧ b ≠ 0x22 ∧ b ≠ 0x5c) :
    Row Mark.IsSpelled (bytes.map .byte) bytes := by
  induction bytes
  case nil => exact .nil
  case cons b bytes ih =>
    have ⟨⟨hc, hq, hb⟩, hr⟩ := List.forall_mem_cons.mp h
    exact .cons (.raw hc hq hb) (ih hr)

-- Whatever marks are chosen for its characters, they stand for the same text.
theorem Spells.text?_eq (h : Spells s marks) : Mark.text? marks = some s := by
  rw [Mark.text?, bytes?_of_row h, Option.bind_some, fromUTF8?_utf8]

end Json

end Abacus

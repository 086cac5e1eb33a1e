import Abacus.Json.Writer
import Abacus.Proofs.Grammar
import Mathlib.Data.List.Forall2

namespace Abacus.Json

-- What is written is a text of the value.
def Writes (j : Json) (s : String) : Prop :=
  j.IsTextOf (utf8 s.toList)

variable {j : Json} {s : String} {t t' : List UInt8} {xs ys : List Lexeme} {c : Char}

namespace Row

variable {α β : Type} {Spelled : α → List β → Prop} {as as' : List α} {t t' : List β}

theorem single {a : α} (h : Spelled a t) : Row Spelled [a] t := by
  have hr : Row Spelled [a] (t ++ []) := .cons h .nil
  rwa [List.append_nil] at hr

theorem append (h : Row Spelled as t) (h' : Row Spelled as' t') :
    Row Spelled (as ++ as') (t ++ t') := by
  induction h
  case nil => exact h'
  case cons ha _ ih =>
    rw [List.cons_append, List.append_assoc]
    exact .cons ha ih

end Row

-- A control character is written by the two digits of its code.
theorem isHex_control (h : c.toNat < 0x20) :
    IsHex c.toNat ['0', '0', Nat.digitChar (c.toNat / 16), Nat.digitChar (c.toNat % 16)] := by
  have hz : IsHexDigit 0 '0' := ⟨by decide, .inl rfl⟩
  have hd := IsHex.digits hz hz (a := 0) (b := 0) (c := c.toNat / 16) (d := c.toNat % 16)
    ⟨by omega, .inl rfl⟩ ⟨by omega, .inl rfl⟩
  have e : ((0 * 16 + 0) * 16 + c.toNat / 16) * 16 + c.toNat % 16 = c.toNat := by omega
  rwa [e] at hd

theorem raw_of_mem_utf8EncodeChar (hc : 0x20 ≤ c.toNat) (hq : c ≠ '"') (hb : c ≠ '\\') :
    ∀ b ∈ String.utf8EncodeChar c, 0x20 ≤ b ∧ b ≠ 0x22 ∧ b ≠ 0x5c := by
  by_cases ha : c.toNat < 0x80
  case pos =>
    have e := ofUInt8_toUInt8 ha
    rw [utf8EncodeChar_ascii ha, List.forall_mem_singleton]
    refine ⟨?_, fun h => hq (e.symm.trans (h ▸ rfl)), fun h => hb (e.symm.trans (h ▸ rfl))⟩
    have hn : c.toUInt8.toNat = c.toNat := by
      have hv : c.val.toNat < 256 := Nat.lt_trans ha (by decide)
      exact (UInt32.toNat_toUInt8 _).trans (Nat.mod_eq_of_lt hv)
    exact UInt8.le_iff_toNat_le.mpr (hn ▸ hc)
  case neg =>
    intro b hb
    have h : 0x80 ≤ b.toNat := le_of_mem_utf8EncodeChar (Nat.not_lt.mp ha) hb
    refine ⟨UInt8.le_iff_toNat_le.mpr (Nat.le_trans (by decide) h), ?_, ?_⟩
    all_goals
      rintro rfl
      exact absurd h (by decide)

-- A character is written by marks of its own.
theorem exists_row_escaped (c : Char) :
    ∃ marks, IsMarked c marks ∧ Row Mark.IsSpelled marks (utf8 (escaped c)) := by
  have short {l c : Char} (h : (l, c) ∈ shortEscapes) :
      ∃ marks, IsMarked c marks ∧ Row Mark.IsSpelled marks (utf8 ['\\', l]) := by
    have ⟨_, ha⟩ := shortEscapes_ascii _ h
    have hm : IsMarked c ((String.utf8EncodeChar c).map .byte) := .bytes
    rw [utf8EncodeChar_ascii ha] at hm
    exact ⟨_, hm, .single (.short h)⟩
  unfold escaped
  split
  case h_8 hq hb _ _ _ _ _ =>
    split_ifs with hc
    case pos =>
      exact ⟨_, .unit (Nat.lt_trans hc (by decide)), .single (.unit (isHex_control hc))⟩
    case neg =>
      have h := row_isSpelled_raw (raw_of_mem_utf8EncodeChar (Nat.not_lt.mp hc) hq hb)
      exact ⟨_, .bytes, by rwa [utf8_cons, utf8, List.flatMap_nil, List.append_nil]⟩
  all_goals exact short (by decide)

theorem exists_row_quote (s : String) :
    ∃ marks, Spells s marks ∧ Row Mark.IsSpelled marks (utf8 (s.toList.flatMap escaped)) := by
  have h (chars : List Char) :
      ∃ marks, Row IsMarked chars marks ∧
        Row Mark.IsSpelled marks (utf8 (chars.flatMap escaped)) := by
    induction chars
    case nil => exact ⟨[], .nil, .nil⟩
    case cons c chars ih =>
      have ⟨marks, hm, hr⟩ := exists_row_escaped c
      have ⟨marks', hm', hr'⟩ := ih
      refine ⟨marks ++ marks', .cons hm hm', ?_⟩
      rw [List.flatMap_cons, utf8_append]
      exact hr.append hr'
  exact h s.toList

theorem Laid.append (h : Laid xs t) (h' : Laid ys t') (ends : EndsLexeme t') :
    Laid (xs ++ ys) (t ++ t') := by
  induction h
  case blank hw => exact .of_blank hw h'
  case lexeme w t rest x xs hw hx hr h ih =>
    rw [List.append_assoc]
    refine .lexeme hw hx (fun ho => ?_) ih
    cases rest
    case nil => exact ends
    case cons => exact hr ho

theorem utf8_quote (s : String) :
    utf8 (quote s).toList = 0x22 :: utf8 (s.toList.flatMap escaped) ++ [0x22] := by
  rw [quote, String.toList_ofList, utf8_append]
  rfl

theorem Laid.quote {marks : List Mark} {rest : List UInt8}
    (hm : Row Mark.IsSpelled marks (utf8 (s.toList.flatMap escaped))) (h : Laid xs rest) :
    Laid (.text marks :: xs) (utf8 (quote s).toList ++ rest) := by
  rw [utf8_quote]
  exact .text hm h

theorem exists_writes_quote (s : String) :
    ∃ marks, Spells s marks ∧ Writes (.text marks) (quote s) := by
  have ⟨marks, hs, hr⟩ := exists_row_quote s
  have hl : Laid [.text marks] (utf8 (quote s).toList ++ []) :=
    .quote hr (.blank (w := []) (by decide))
  rw [List.append_nil] at hl
  exact ⟨marks, hs, hl⟩

theorem writes_number (n : Number) : Writes (.number n) (String.ofList n.text) := by
  have hl : Laid [.number n] (utf8 n.text ++ []) :=
    .cons (.number n.isSpelled_text) (fun _ => by decide) (.blank (w := []) (by decide))
  rwa [List.append_nil, ← String.toList_ofList (l := n.text)] at hl

-- Texts, each behind a comma.
def commaText (texts : List String) : List UInt8 :=
  texts.flatMap fun s => utf8 [','] ++ utf8 s.toList

theorem commaText_cons (s : String) (texts : List String) :
    commaText (s :: texts) = utf8 [','] ++ utf8 s.toList ++ commaText texts :=
  rfl

theorem utf8_intercalate_cons (s : String) (texts : List String) :
    utf8 (",".intercalate (s :: texts)).toList = utf8 s.toList ++ commaText texts := by
  induction texts generalizing s
  case nil => simp [commaText]
  case cons s' texts ih =>
    rw [String.intercalate_cons_cons, String.toList_append, String.toList_append, utf8_append,
      utf8_append, ih, List.append_assoc]
    rfl

theorem endsLexeme_commaText (texts : List String) (ends : EndsLexeme t) :
    EndsLexeme (commaText texts ++ t) := by
  cases texts
  case nil => exact ends
  case cons =>
    intro b hb
    cases hb
    decide

theorem laid_moreItems {items : List Json} {texts : List String}
    (h : List.Forall₂ Writes items texts) (hl : Laid xs t) (ends : EndsLexeme t) :
    Laid (moreItems items ++ xs) (commaText texts ++ t) := by
  induction h
  case nil => exact hl
  case cons j s items texts hj _ ih =>
    have hi := Laid.append hj ih (endsLexeme_commaText texts ends)
    have hc := Laid.sign ',' (x := .comma) (by decide) hi
    rw [moreItems, commaText_cons]
    simpa only [List.cons_append, List.append_assoc] using hc

theorem utf8_arrayText (texts : List String) :
    utf8 (arrayText texts).toList =
      utf8 ['['] ++ (utf8 (",".intercalate texts).toList ++ utf8 [']']) := by
  rw [arrayText, String.toList_append, String.toList_append, utf8_append, utf8_append,
    List.append_assoc]
  rfl

theorem writes_arrayText {items : List Json} {texts : List String}
    (h : List.Forall₂ Writes items texts) : Writes (.array items) (arrayText texts) := by
  have hclose : Laid [.closeArray] (utf8 [']']) :=
    .sign ']' (by decide) (.blank (w := []) (by decide))
  rw [Writes, utf8_arrayText]
  cases h
  case nil => exact .sign '[' (by decide) hclose
  case cons j s items texts hj h =>
    have hi := laid_moreItems h hclose (by decide)
    have hj := Laid.append hj hi (endsLexeme_commaText texts (by decide))
    have ho := Laid.sign '[' (x := .openArray) (by decide) hj
    rw [IsTextOf, lexemes, utf8_intercalate_cons]
    simpa only [List.cons_append, List.append_assoc] using ho

-- A member of an object is written with its key quoted.
structure WritesMember (m : List Mark × Json) (s : String × String) : Prop where
  key    : Row Mark.IsSpelled m.1 (utf8 (s.1.toList.flatMap escaped))
  value  : Writes m.2 s.2

def memberText (m : String × String) : String :=
  quote m.1 ++ ":" ++ m.2

theorem utf8_memberText (m : String × String) :
    utf8 (memberText m).toList = utf8 (quote m.1).toList ++ (utf8 [':'] ++ utf8 m.2.toList) := by
  rw [memberText, String.toList_append, String.toList_append, utf8_append, utf8_append,
    List.append_assoc]
  rfl

theorem WritesMember.laid {m : List Mark × Json} {s : String × String} (h : WritesMember m s)
    (hl : Laid xs t) (ends : EndsLexeme t) :
    Laid (.text m.1 :: .colon :: (m.2.lexemes ++ xs)) (utf8 (memberText s).toList ++ t) := by
  have hv := Laid.append h.value hl ends
  have hc := Laid.sign ':' (x := .colon) (by decide) hv
  have hk := Laid.quote h.key hc
  rw [utf8_memberText]
  simpa only [List.append_assoc] using hk

theorem laid_moreMembers {members : List (List Mark × Json)} {texts : List (String × String)}
    (h : List.Forall₂ WritesMember members texts) (hl : Laid xs t) (ends : EndsLexeme t) :
    Laid (moreMembers members ++ xs) (commaText (texts.map memberText) ++ t) := by
  induction h
  case nil => exact hl
  case cons m s members texts hm _ ih =>
    have hi := hm.laid ih (endsLexeme_commaText _ ends)
    have hc := Laid.sign ',' (x := .comma) (by decide) hi
    rw [moreMembers, List.map_cons, commaText_cons]
    simpa only [List.cons_append, List.append_assoc] using hc

theorem utf8_objectText (texts : List (String × String)) :
    utf8 (objectText texts).toList =
      utf8 ['\x7b'] ++ (utf8 (",".intercalate (texts.map memberText)).toList ++ utf8 ['\x7d']) := by
  rw [objectText, String.toList_append, String.toList_append, utf8_append, utf8_append,
    List.append_assoc]
  rfl

theorem writes_objectText {members : List (List Mark × Json)} {texts : List (String × String)}
    (h : List.Forall₂ WritesMember members texts) :
    Writes (.object members) (objectText texts) := by
  have hclose : Laid [.closeObject] (utf8 ['\x7d']) :=
    .sign '\x7d' (by decide) (.blank (w := []) (by decide))
  rw [Writes, utf8_objectText]
  cases h
  case nil => exact .sign '\x7b' (by decide) hclose
  case cons m s members texts hm h =>
    have hi := laid_moreMembers h hclose (by decide)
    have hm := hm.laid hi (endsLexeme_commaText _ (by decide))
    have ho := Laid.sign '\x7b' (x := .openObject) (by decide) hm
    rw [IsTextOf, lexemes, List.map_cons, utf8_intercalate_cons]
    simpa only [List.cons_append, List.append_assoc] using ho

end Abacus.Json

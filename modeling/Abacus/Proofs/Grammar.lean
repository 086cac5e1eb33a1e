import Abacus.Json.Value
import Abacus.Proofs.NumberText
import Abacus.Proofs.Quotation

namespace Abacus.Json

def IsBlank (w : List UInt8) : Prop :=
  ∀ b ∈ w, b ∈ [0x20, 0x09, 0x0a, 0x0d]

instance (w : List UInt8) : Decidable (IsBlank w) :=
  List.decidableBAll _ w

-- In front of these bytes a word or number ends.
def EndsLexeme (rest : List UInt8) : Prop :=
  ∀ b ∈ rest.head?,
    ¬Lexeme.continuesWord (Char.ofUInt8 b) ∧ ¬Lexeme.continuesNumber (Char.ofUInt8 b)

instance (rest : List UInt8) : Decidable (EndsLexeme rest) :=
  Option.decidableForallMem rest.head?

namespace Lexeme

def signs : List (Char × Lexeme) :=
  [('[', openArray), (']', closeArray), ('\x7b', openObject), ('\x7d', closeObject), (',', comma),
    (':', colon)]

def words : List (List Char × Lexeme) :=
  [("null".toList, null), ("true".toList, bool true), ("false".toList, bool false)]

inductive IsSpelled : Lexeme → List UInt8 → Prop
  | sign {c : Char} {x : Lexeme} : (c, x) ∈ signs → IsSpelled x (utf8 [c])
  | word {s : List Char} {x : Lexeme} : (s, x) ∈ words → IsSpelled x (utf8 s)
  | number {n : Number} {s : List Char} : n.IsSpelled s → IsSpelled (.number n) (utf8 s)
  | text {marks : List Mark} {t : List UInt8} :
    Row Mark.IsSpelled marks t → IsSpelled (.text marks) (0x22 :: t ++ [0x22])

-- Words and numbers go on for as long as they can.
def isOpenEnded : Lexeme → Bool
  | null => true
  | bool _ => true
  | number _ => true
  | _ => false

end Lexeme

-- The lexemes one behind the other.
inductive Laid : List Lexeme → List UInt8 → Prop
  | blank {w : List UInt8} : IsBlank w → Laid [] w
  | lexeme {w t rest : List UInt8} {x : Lexeme} {xs : List Lexeme} :
    IsBlank w → x.IsSpelled t → (x.isOpenEnded → EndsLexeme rest) → Laid xs rest →
    Laid (x :: xs) (w ++ t ++ rest)

mutual

def lexemes : Json → List Lexeme
  | null => [.null]
  | bool b => [.bool b]
  | number n => [.number n]
  | text marks => [.text marks]
  | array [] => [.openArray, .closeArray]
  | array (j :: items) => .openArray :: lexemes j ++ moreItems items ++ [.closeArray]
  | object [] => [.openObject, .closeObject]
  | object ((key, j) :: members) =>
    .openObject :: .text key :: .colon :: lexemes j ++ moreMembers members ++ [.closeObject]

def moreItems : List Json → List Lexeme
  | [] => []
  | j :: items => .comma :: lexemes j ++ moreItems items

def moreMembers : List (List Mark × Json) → List Lexeme
  | [] => []
  | (key, j) :: members => .comma :: .text key :: .colon :: lexemes j ++ moreMembers members

end

def IsTextOf (j : Json) (t : List UInt8) : Prop :=
  Laid j.lexemes t

variable {w t rest : List UInt8} {x : Lexeme} {xs : List Lexeme} {c : Char} {s : List Char}
  {n : Number}

namespace Laid

theorem of_blank (hw : IsBlank w) (h : Laid xs t) : Laid xs (w ++ t) := by
  cases h
  case blank hw' =>
    exact .blank fun b hb => (List.mem_append.mp hb).elim (hw b) (hw' b)
  case lexeme w' t rest x xs hw' hx hr h =>
    rw [← List.append_assoc, ← List.append_assoc]
    exact .lexeme (fun b hb => (List.mem_append.mp hb).elim (hw b) (hw' b)) hx hr h

theorem cons (hx : x.IsSpelled t) (hr : x.isOpenEnded → EndsLexeme rest) (h : Laid xs rest) :
    Laid (x :: xs) (t ++ rest) :=
  .lexeme (w := []) (by simp [IsBlank]) hx hr h

theorem sign (c : Char) (hx : (c, x) ∈ Lexeme.signs) (h : Laid xs rest) :
    Laid (x :: xs) (utf8 [c] ++ rest) := by
  have table : ∀ p ∈ Lexeme.signs, ¬p.2.isOpenEnded := by decide
  exact cons (.sign hx) (fun ho => absurd ho (table _ hx)) h

theorem text {marks : List Mark} (hm : Row Mark.IsSpelled marks t) (h : Laid xs rest) :
    Laid (.text marks :: xs) (0x22 :: t ++ [0x22] ++ rest) :=
  cons (.text hm) nofun h

end Laid

theorem Lexeme.continuesNumber_of_isDigit (h : c.isDigit) : continuesNumber c := by
  simp [continuesNumber, h]

namespace Number

variable {whole fraction f e : List Char} {exponent : Option Int}

theorem continuesNumber_of_isExponent (h : IsExponent exponent e) :
    ∀ c ∈ e, Lexeme.continuesNumber c := by
  have table : ∀ l ∈ ['e', 'E'], Lexeme.continuesNumber l :=
    List.forall_mem_cons.mpr ⟨by decide, List.forall_mem_singleton.mpr (by decide)⟩
  have digits {s : List Char} (hd : IsDigits s) : ∀ c ∈ s, Lexeme.continuesNumber c :=
    fun c hc => Lexeme.continuesNumber_of_isDigit (hd.right c hc)
  cases h
  case none => simp
  case unsigned l s hl hd => exact List.forall_mem_cons.mpr ⟨table l hl, digits hd⟩
  case plus l s hl hd =>
    exact List.forall_mem_cons.mpr
      ⟨table l hl, List.forall_mem_cons.mpr ⟨by decide, digits hd⟩⟩
  case minus l s hl hd =>
    exact List.forall_mem_cons.mpr
      ⟨table l hl, List.forall_mem_cons.mpr ⟨by decide, digits hd⟩⟩

theorem continuesNumber_of_isFraction (h : IsFraction fraction f) :
    ∀ c ∈ f, Lexeme.continuesNumber c := by
  cases h
  case none => simp
  case digits hd =>
    rw [List.forall_mem_cons]
    exact ⟨by decide, fun c hc => Lexeme.continuesNumber_of_isDigit (hd.right c hc)⟩

-- A number starts with a digit or a minus sign and has no character that ends it.
theorem IsSpelled.chars (h : n.IsSpelled s) :
    ∃ c s', s = c :: s' ∧ (c.isDigit ∨ c = '-') ∧ ∀ c ∈ s, Lexeme.continuesNumber c := by
  cases h
  case parts whole fraction f e exponent negative hw hf he =>
    have ⟨ne, digits⟩ := hw.left
    have hc (c) (hc : c ∈ signText negative ++ whole ++ f ++ e) : Lexeme.continuesNumber c := by
      simp only [List.mem_append] at hc
      rcases hc with ((hc | hc) | hc) | hc
      · cases negative
        case false => contradiction
        case true =>
          cases List.mem_singleton.mp hc
          decide
      · exact Lexeme.continuesNumber_of_isDigit (digits c hc)
      · exact continuesNumber_of_isFraction hf c hc
      · exact continuesNumber_of_isExponent he c hc
    cases negative
    case true => exact ⟨'-', whole ++ f ++ e, by simp [signText], .inr rfl, hc⟩
    case false =>
      have ⟨c, whole', e'⟩ := List.exists_cons_of_ne_nil ne
      exact ⟨c, whole' ++ f ++ e, by simp [signText, e'], .inl (digits c (by simp [e'])), hc⟩

end Number

namespace Lexer

variable {l : Lexer} {done : List Lexeme}

-- The lexemes of the whole text, newest first.
def finish? (l : Lexer) (text : List UInt8) : Option (List Lexeme) :=
  (l.run? text).bind fun l => l.flush?.map (·.done)

theorem lexemes?_eq (text : List UInt8) :
    lexemes? text = (finish? {} text).map List.reverse := by
  rw [lexemes?, finish?, Option.map_bind]
  congr
  funext l
  rw [Function.comp_apply, Option.map_map]
  rfl

theorem finish?_cons (l : Lexer) (b : UInt8) (rest : List UInt8) :
    l.finish? (b :: rest) = (l.step? b).bind (·.finish? rest) := by
  simp only [finish?, run?_cons, Option.bind_assoc]

theorem run?_append (l : Lexer) (s t : List UInt8) :
    l.run? (s ++ t) = (l.run? s).bind (·.run? t) :=
  List.foldlM_append

theorem finish?_append (l : Lexer) (s t : List UInt8) :
    l.finish? (s ++ t) = (l.run? s).bind (·.finish? t) := by
  simp only [finish?, run?_append, Option.bind_assoc]

theorem finish?_blank (h : IsBlank w) (done : List Lexeme) (rest : List UInt8) :
    finish? ⟨done, .nothing⟩ (w ++ rest) = finish? ⟨done, .nothing⟩ rest := by
  induction w
  case nil => rfl
  case cons b w ih =>
    have hb : step? ⟨done, .nothing⟩ b = some ⟨done, .nothing⟩ := by
      have hb := h b (by simp)
      simp only [List.mem_cons, List.not_mem_nil, or_false] at hb
      rcases hb with rfl | rfl | rfl | rfl <;> rfl
    rw [List.cons_append, finish?_cons, hb]
    exact ih fun b hb => h b (List.mem_cons_of_mem _ hb)

-- A byte that ends the lexeme at hand is read as if that were complete already.
theorem finish?_of_flush? {pending : Pending}
    (hp : (∃ letters, pending = .word letters) ∨ ∃ chars, pending = .number chars)
    (hf : flush? ⟨done, pending⟩ = some ⟨x :: done, .nothing⟩) (hr : EndsLexeme rest) :
    finish? ⟨done, pending⟩ rest = finish? ⟨x :: done, .nothing⟩ rest := by
  cases rest
  case nil =>
    change (flush? ⟨done, pending⟩).map _ = (flush? ⟨x :: done, .nothing⟩).map _
    rw [hf]
    rfl
  case cons b rest =>
    have ⟨hw, hn⟩ := hr b rfl
    have hs : step? ⟨done, pending⟩ b = step? ⟨x :: done, .nothing⟩ b := by
      rcases hp with ⟨letters, rfl⟩ | ⟨chars, rfl⟩
      · exact (if_neg hw).trans (by rw [hf]; rfl)
      · exact (if_neg hn).trans (by rw [hf]; rfl)
    rw [finish?_cons, finish?_cons, hs]

theorem run?_number_chars (h : ∀ c ∈ s, Lexeme.continuesNumber c ∧ c.toNat < 0x80)
    (done : List Lexeme) (chars : List Char) :
    run? ⟨done, .number chars⟩ (utf8 s) = some ⟨done, .number (s.reverse ++ chars)⟩ := by
  induction s generalizing chars
  case nil => rfl
  case cons c s ih =>
    rw [List.forall_mem_cons] at h
    have ⟨⟨hc, ha⟩, hs⟩ := h
    have hstep : step? ⟨done, .number chars⟩ c.toUInt8 = some ⟨done, .number (c :: chars)⟩ := by
      simp only [step?, ofUInt8_toUInt8 ha, if_pos hc]
    have hr := run?_ascii ha ⟨done, .number chars⟩ s []
    rw [List.append_nil, List.append_nil, hstep, Option.bind_some, ih hs] at hr
    rw [hr, List.reverse_cons, List.append_assoc]
    rfl

theorem lt_of_continuesNumber (h : Lexeme.continuesNumber c) : c.toNat < 0x80 := by
  simp only [Lexeme.continuesNumber, Bool.or_eq_true, decide_eq_true_eq, or_assoc] at h
  rcases h with h | rfl | rfl | rfl | rfl | rfl
  · have ⟨_, h9⟩ := Char.isDigit_iff_toNat.mp h
    exact Nat.lt_of_le_of_lt h9 (by decide)
  all_goals decide

theorem start?_number (h : c.isDigit ∨ c = '-') (done : List Lexeme) :
    start? ⟨done, .nothing⟩ c = some ⟨done, .number [c]⟩ := by
  have hd : c.isDigit || c = '-' := by simpa using h
  have ne (d : Char) (hn : ¬(d.isDigit || d = '-')) : c ≠ d := by
    rintro rfl
    exact hn hd
  unfold start?
  split
  case h_12 => exact if_pos hd
  all_goals exact absurd rfl (ne _ (by decide))

theorem finish?_number (h : n.IsSpelled s) (hr : EndsLexeme rest) (done : List Lexeme) :
    finish? ⟨done, .nothing⟩ (utf8 s ++ rest) = finish? ⟨.number n :: done, .nothing⟩ rest := by
  have ⟨c, s', e, hc, hs⟩ := h.chars
  have hs (c) (hc : c ∈ s) : Lexeme.continuesNumber c ∧ c.toNat < 0x80 :=
    ⟨hs c hc, lt_of_continuesNumber (hs c hc)⟩
  have hrun : run? ⟨done, .nothing⟩ (utf8 s) = some ⟨done, .number s.reverse⟩ := by
    subst e
    have ⟨_, ha⟩ := hs c (by simp)
    have hstep : step? ⟨done, .nothing⟩ c.toUInt8 = some ⟨done, .number [c]⟩ := by
      simp only [step?, ofUInt8_toUInt8 ha, start?_number hc]
    have hr := run?_ascii ha ⟨done, .nothing⟩ s' []
    rw [List.append_nil, List.append_nil, hstep, Option.bind_some,
      run?_number_chars fun c hc => hs c (by simp [hc])] at hr
    rw [hr, List.reverse_cons]
  have hf : flush? ⟨done, .number s.reverse⟩ = some ⟨.number n :: done, .nothing⟩ := by
    simp only [flush?, List.reverse_reverse, h.ofText?_eq]
    rfl
  rw [finish?_append, hrun, Option.bind_some]
  exact finish?_of_flush? (.inr ⟨_, rfl⟩) hf hr

theorem finish?_word (h : (s, x) ∈ Lexeme.words) (hr : EndsLexeme rest) (done : List Lexeme) :
    finish? ⟨done, .nothing⟩ (utf8 s ++ rest) = finish? ⟨x :: done, .nothing⟩ rest := by
  have hrun : run? ⟨done, .nothing⟩ (utf8 s) = some ⟨done, .word s.reverse⟩ ∧
      flush? ⟨done, .word s.reverse⟩ = some ⟨x :: done, .nothing⟩ := by
    simp only [Lexeme.words, List.mem_cons, List.not_mem_nil, or_false, Prod.mk.injEq] at h
    rcases h with ⟨rfl, rfl⟩ | ⟨rfl, rfl⟩ | ⟨rfl, rfl⟩ <;> exact ⟨rfl, rfl⟩
  rw [finish?_append, hrun.left, Option.bind_some]
  exact finish?_of_flush? (.inl ⟨_, rfl⟩) hrun.right hr

theorem finish?_lexeme (h : x.IsSpelled t) (hr : x.isOpenEnded → EndsLexeme rest)
    (done : List Lexeme) :
    finish? ⟨done, .nothing⟩ (t ++ rest) = finish? ⟨x :: done, .nothing⟩ rest := by
  cases h
  case sign c h =>
    have hs : run? ⟨done, .nothing⟩ (utf8 [c]) = some ⟨x :: done, .nothing⟩ := by
      simp only [Lexeme.signs, List.mem_cons, List.not_mem_nil, or_false, Prod.mk.injEq] at h
      rcases h with ⟨rfl, rfl⟩ | ⟨rfl, rfl⟩ | ⟨rfl, rfl⟩ | ⟨rfl, rfl⟩ | ⟨rfl, rfl⟩ | ⟨rfl, rfl⟩ <;>
        rfl
    rw [finish?_append, hs, Option.bind_some]
  case word s h =>
    have ho : x.isOpenEnded := by
      simp only [Lexeme.words, List.mem_cons, List.not_mem_nil, or_false, Prod.mk.injEq] at h
      rcases h with ⟨_, rfl⟩ | ⟨_, rfl⟩ | ⟨_, rfl⟩ <;> rfl
    exact finish?_word h (hr ho) done
  case number n s h => exact finish?_number h (hr rfl) done
  case text marks t h =>
    have hq := run?_quoted h done rest
    rw [List.append_assoc, finish?, List.singleton_append, hq]
    rfl

theorem finish?_laid (h : Laid xs t) (done : List Lexeme) :
    finish? ⟨done, .nothing⟩ t = some (xs.reverse ++ done) := by
  induction h generalizing done
  case blank w hw =>
    have hb := finish?_blank hw done []
    rwa [List.append_nil] at hb
  case lexeme w t rest x xs hw hx hr _ ih =>
    rw [List.append_assoc, finish?_blank hw, finish?_lexeme hx hr, ih, List.reverse_cons,
      List.append_assoc]
    rfl

end Lexer

theorem Laid.lexemes?_eq (h : Laid xs t) : lexemes? t = some xs := by
  rw [Lexer.lexemes?_eq, Lexer.finish?_laid h, List.append_nil, Option.map_some,
    List.reverse_reverse]

namespace Reader

theorem run?_cons (r : Reader) (x : Lexeme) (rest : List Lexeme) :
    r.run? (x :: rest) = (r.step? x).bind (·.run? rest) :=
  List.foldlM_cons

-- What the end of an array takes from the stack has just been put there.
theorem run?_item (j : Json) (stack : List Frame) (rest : List Lexeme) :
    run? ⟨stack, .item⟩ (j.lexemes ++ rest) = run? ⟨stack, .value⟩ (j.lexemes ++ rest) := by
  cases j
  case array items => cases items <;> rfl
  case object members => cases members <;> rfl
  all_goals rfl

mutual

theorem run?_lexemes (stack : List Frame) (rest : List Lexeme) :
    ∀ j : Json, run? ⟨stack, .value⟩ (j.lexemes ++ rest) = run? ⟨stack, .done j⟩ rest
  | null => rfl
  | bool _ => rfl
  | number _ => rfl
  | text _ => rfl
  | array [] => rfl
  | array (j :: items) => by
    have hopen : step? ⟨stack, .value⟩ .openArray = some ⟨.array [] :: stack, .item⟩ := rfl
    rw [lexemes, List.append_assoc, List.append_assoc, List.cons_append, run?_cons, hopen,
      Option.bind_some, run?_item, run?_lexemes _ _ j]
    exact run?_moreItems stack rest j [] items
  | object [] => rfl
  | object ((key, j) :: members) => by
    have hopen (rest : List Lexeme) :
        run? ⟨stack, .value⟩ (.openObject :: .text key :: .colon :: rest) =
          run? ⟨.object [] key :: stack, .value⟩ rest := rfl
    rw [lexemes, List.append_assoc, List.append_assoc, List.cons_append, List.cons_append,
      List.cons_append, hopen, run?_lexemes _ _ j]
    exact run?_moreMembers stack rest key j [] members

theorem run?_moreItems (stack : List Frame) (rest : List Lexeme) (j : Json) (before : List Json) :
    ∀ items : List Json,
      run? ⟨.array before :: stack, .done j⟩ (moreItems items ++ .closeArray :: rest) =
        run? ⟨stack, .done (.array (before.reverse ++ j :: items))⟩ rest
  | [] => by
    rw [← List.reverse_cons]
    rfl
  | i :: items => by
    have hcomma : step? ⟨.array before :: stack, .done j⟩ .comma =
        some ⟨.array (j :: before) :: stack, .value⟩ := rfl
    rw [moreItems, List.cons_append, List.cons_append, run?_cons, hcomma, Option.bind_some,
      List.append_assoc, run?_lexemes _ _ i, run?_moreItems _ _ i (j :: before) items,
      List.reverse_cons, List.append_assoc, List.singleton_append]

theorem run?_moreMembers (stack : List Frame) (rest : List Lexeme) (key : List Mark) (j : Json)
    (before : List (List Mark × Json)) :
    ∀ members : List (List Mark × Json),
      run? ⟨.object before key :: stack, .done j⟩ (moreMembers members ++ .closeObject :: rest) =
        run? ⟨stack, .done (.object (before.reverse ++ (key, j) :: members))⟩ rest
  | [] => by
    rw [← List.reverse_cons]
    rfl
  | (key', j') :: members => by
    have hcomma (rest : List Lexeme) :
        run? ⟨.object before key :: stack, .done j⟩ (.comma :: .text key' :: .colon :: rest) =
          run? ⟨.object ((key, j) :: before) key' :: stack, .value⟩ rest := rfl
    rw [moreMembers, List.append_assoc, List.cons_append, List.cons_append, List.cons_append,
      hcomma, run?_lexemes _ _ j',
      run?_moreMembers _ _ key' j' ((key, j) :: before) members, List.reverse_cons,
      List.append_assoc, List.singleton_append]

end

end Reader

theorem ofLexemes?_lexemes (j : Json) : ofLexemes? j.lexemes = some j := by
  have h := Reader.run?_lexemes [] [] j
  rw [List.append_nil] at h
  rw [ofLexemes?, h]
  rfl

-- Every text of a value is read as the value.
theorem IsTextOf.ofBytes?_eq {j : Json} (h : j.IsTextOf t) : ofBytes? t = some j := by
  rw [ofBytes?, Laid.lexemes?_eq h, Option.bind_some, ofLexemes?_lexemes]

end Abacus.Json

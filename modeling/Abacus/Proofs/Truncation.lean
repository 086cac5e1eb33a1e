import Abacus.Proofs.Answers
import Abacus.Proofs.Grammar

namespace Abacus

namespace Json

variable {x : Lexeme} {xs ys : List Lexeme} {b : UInt8} {j : Json} {p q : List UInt8}

-- The bracket that closes a value.
def bracket? : Json → Option UInt8
  | array _ => some 0x5d
  | object _ => some 0x7d
  | _ => none

inductive Lexeme.Closes : Lexeme → UInt8 → Prop
  | array : Closes .closeArray 0x5d
  | object : Closes .closeObject 0x7d

theorem Lexeme.Closes.not_isOpenEnded (h : x.Closes b) : ¬x.isOpenEnded := by
  cases h <;> decide

theorem not_blank_of_bracket? (h : j.bracket? = some b) : b ∉ [0x20, 0x09, 0x0a, 0x0d] := by
  cases j <;> cases h <;> decide

namespace Lexer

variable {l l' : Lexer} {done : List Lexeme}

-- Only words and numbers have to be completed.
inductive Flushes (l : Lexer) : Lexer → Prop
  | nothing : l.pending = .nothing → Flushes l l
  | lexeme {x : Lexeme} : x.isOpenEnded → Flushes l (l.emit x)

-- What a byte outside of a lexeme does.
inductive Starts (l : Lexer) (b : UInt8) : Lexer → Prop
  | blank : b ∈ [0x20, 0x09, 0x0a, 0x0d] → Starts l b l
  | sign {x : Lexeme} : (Char.ofUInt8 b, x) ∈ Lexeme.signs → Starts l b (l.emit x)
  | pend {pending : Pending} : pending ≠ .nothing → Starts l b { l with pending := pending }

inductive Steps (l : Lexer) (b : UInt8) : Lexer → Prop
  | start {l' l'' : Lexer} : Flushes l l' → Starts l' b l'' → Steps l b l''
  | quote {marks : List Mark} : Steps l b (l.emit (.text marks))
  | pend {pending : Pending} : pending ≠ .nothing → Steps l b { l with pending := pending }

theorem isOpenEnded_of_ofWord? {letters : List Char} (h : Lexeme.ofWord? letters = some x) :
    x.isOpenEnded := by
  unfold Lexeme.ofWord? at h
  split_ifs at h <;> cases h <;> rfl

theorem flushes_of_flush? (h : l.flush? = some l') : Flushes l l' := by
  unfold flush? at h
  split at h
  case h_1 hp =>
    cases h
    exact .nothing hp
  case h_2 =>
    obtain ⟨x, hx, rfl⟩ := Option.map_eq_some_iff.mp h
    exact .lexeme (isOpenEnded_of_ofWord? hx)
  case h_3 =>
    obtain ⟨n, _, rfl⟩ := Option.map_eq_some_iff.mp h
    exact .lexeme rfl
  case h_4 => cases h

theorem starts_of_start? (h : l.start? (Char.ofUInt8 b) = some l') : Starts l b l' := by
  have byte (b' : UInt8) (hb : b' ∈ [0x20, 0x09, 0x0a, 0x0d])
      (e : Char.ofUInt8 b = Char.ofUInt8 b') : Starts l b l :=
    .blank (ofUInt8_injective e ▸ hb)
  have sign {c : Char} {x : Lexeme} (e : Char.ofUInt8 b = c) (hx : (c, x) ∈ Lexeme.signs) :
      Starts l b (l.emit x) :=
    .sign (e ▸ hx)
  unfold start? at h
  split at h
  case h_12 =>
    split_ifs at h <;> cases h <;> exact .pend nofun
  all_goals cases h
  case h_1 e => exact byte 0x20 (by decide) e
  case h_2 e => exact byte 0x09 (by decide) e
  case h_3 e => exact byte 0x0a (by decide) e
  case h_4 e => exact byte 0x0d (by decide) e
  case h_11 => exact .pend nofun
  all_goals exact sign ‹_› (by decide)

-- A byte that goes on with a word or number is added to it; any other ends it and starts anew.
theorem steps_of_ite {pending : Pending} {goesOn : Bool} (ne : pending ≠ .nothing)
    (h : (if goesOn then some { l with pending := pending }
      else l.flush?.bind (·.start? (Char.ofUInt8 b))) = some l') : Steps l b l' := by
  split_ifs at h
  case pos =>
    cases h
    exact .pend ne
  case neg =>
    obtain ⟨l', hf, hs⟩ := Option.bind_eq_some_iff.mp h
    exact .start (flushes_of_flush? hf) (starts_of_start? hs)

theorem steps_of_step? (h : l.step? b = some l') : Steps l b l' := by
  unfold step? at h
  dsimp only at h
  split at h
  case h_1 hp => exact .start (.nothing hp) (starts_of_start? h)
  case h_2 => exact steps_of_ite (by simp) h
  case h_3 => exact steps_of_ite (by simp) h
  case h_4 =>
    unfold textStep? at h
    split at h
    case h_3 =>
      split_ifs at h
      cases h
      exact .pend nofun
    all_goals cases h
    case h_1 => exact .quote
    case h_2 => exact .pend nofun
  case h_5 =>
    unfold escapeStep? at h
    split_ifs at h
    case pos =>
      cases h
      exact .pend nofun
    case neg =>
      obtain ⟨e, _, rfl⟩ := Option.map_eq_some_iff.mp h
      exact .pend nofun
  case h_6 =>
    unfold unitStep? at h
    obtain ⟨d, _, rfl⟩ := Option.map_eq_some_iff.mp h
    dsimp only
    split_ifs <;> exact .pend nofun

-- There is more to the text than the lexemes in `done`.
def Exceeds (l : Lexer) (done : List Lexeme) : Prop :=
  ∃ ys, l.done = ys ++ done ∧ (l.pending = .nothing → ys ≠ [])

namespace Exceeds

theorem emit (h : l.done = ys ++ done) (x : Lexeme) : (l.emit x).Exceeds done :=
  ⟨x :: ys, congrArg (x :: ·) h, fun _ => List.cons_ne_nil x ys⟩

theorem pend {pending : Pending} (h : l.done = ys ++ done) (hp : pending ≠ .nothing) :
    Exceeds { l with pending := pending } done :=
  ⟨ys, h, fun e => absurd e hp⟩

theorem of_flushes (h : l.Exceeds done) (hf : Flushes l l') : l'.Exceeds done := by
  cases hf
  case nothing => exact h
  case lexeme x _ =>
    obtain ⟨ys, e, _⟩ := h
    exact emit e x

theorem of_starts (h : l.Exceeds done) (hs : Starts l b l') : l'.Exceeds done := by
  cases hs
  case blank => exact h
  case sign x _ =>
    obtain ⟨ys, e, _⟩ := h
    exact emit e x
  case pend hp =>
    obtain ⟨ys, e, _⟩ := h
    exact pend e hp

theorem of_steps (h : l.Exceeds done) (hs : Steps l b l') : l'.Exceeds done := by
  cases hs
  case start hf hs => exact (h.of_flushes hf).of_starts hs
  case quote marks =>
    obtain ⟨ys, e, _⟩ := h
    exact emit e _
  case pend hp =>
    obtain ⟨ys, e, _⟩ := h
    exact pend e hp

theorem of_run? (h : l.Exceeds done) (hr : l.run? q = some l') : l'.Exceeds done := by
  induction q generalizing l
  case nil =>
    cases hr
    exact h
  case cons b q ih =>
    rw [run?_cons] at hr
    obtain ⟨l₁, hs, hr⟩ := Option.bind_eq_some_iff.mp hr
    exact ih (h.of_steps (steps_of_step? hs)) hr

theorem of_finish? (h : l.Exceeds done) (hf : l.finish? q = some xs) :
    ∃ ys, xs = ys ++ done ∧ ys ≠ [] := by
  obtain ⟨l₁, hr, hm⟩ := Option.bind_eq_some_iff.mp hf
  obtain ⟨l₂, hl, rfl⟩ := Option.map_eq_some_iff.mp hm
  have hf := flushes_of_flush? hl
  have hp : l₂.pending = .nothing := by
    cases hf
    case nothing hp => exact hp
    case lexeme => rfl
  obtain ⟨ys, e, ne⟩ := (h.of_run? hr).of_flushes hf
  exact ⟨ys, e, ne hp⟩

end Exceeds

-- Whatever is no white space adds a lexeme.
theorem exists_of_finish? (h : finish? ⟨done, .nothing⟩ q = some xs) (hq : ¬IsBlank q) :
    ∃ ys, xs = ys ++ done ∧ ys ≠ [] := by
  induction q
  case nil => exact absurd (List.forall_mem_nil _) hq
  case cons b q ih =>
    rw [finish?_cons] at h
    obtain ⟨l, hs, h⟩ := Option.bind_eq_some_iff.mp h
    have hs : Starts ⟨done, .nothing⟩ b l := starts_of_start? hs
    have hd : (⟨done, .nothing⟩ : Lexer).done = [] ++ done := rfl
    cases hs
    case blank hb => exact ih h fun hw => hq (List.forall_mem_cons.mpr ⟨hb, hw⟩)
    case sign x _ => exact (Exceeds.emit hd x).of_finish? h
    case pend hp => exact (Exceeds.pend hd hp).of_finish? h

-- A lexeme that is no word and no number is there as soon as its last byte is read.
theorem run?_of_finish? (h : finish? {} p = some (x :: xs)) (hx : ¬x.isOpenEnded) :
    run? {} p = some ⟨x :: xs, .nothing⟩ := by
  obtain ⟨l, hr, hm⟩ := Option.bind_eq_some_iff.mp h
  obtain ⟨l', hl, e⟩ := Option.map_eq_some_iff.mp hm
  cases flushes_of_flush? hl
  case nothing hp => rw [hr, ← e, ← hp]
  case lexeme ho =>
    cases e
    exact absurd ho hx

theorem byte_of_mem_signs (h : x.Closes b) {b' : UInt8}
    (hs : (Char.ofUInt8 b', x) ∈ Lexeme.signs) : b' = b := by
  cases h
  case array =>
    have e : Char.ofUInt8 b' = ']' := by simpa [Lexeme.signs] using hs
    exact ofUInt8_injective e
  case object =>
    have e : Char.ofUInt8 b' = '\x7d' := by simpa [Lexeme.signs] using hs
    exact ofUInt8_injective e

-- The byte behind which a bracket is the last lexeme is the bracket, or white space behind it.
theorem Steps.eq_or_blank {b' : UInt8} (h : Steps l b' l') (hd : l'.done = x :: xs)
    (hp : l'.pending = .nothing) (hx : x.Closes b) :
    b' = b ∨ b' ∈ [0x20, 0x09, 0x0a, 0x0d] ∧ l = l' := by
  cases h
  case start l₁ hf hs =>
    cases hs
    case blank hb =>
      cases hf
      case nothing => exact .inr ⟨hb, rfl⟩
      case lexeme ho =>
        cases hd
        exact absurd ho hx.not_isOpenEnded
    case sign y hy =>
      cases hd
      exact .inl (byte_of_mem_signs hx hy)
    case pend ne => exact absurd hp ne
  case quote =>
    cases hd
    cases hx
  case pend ne => exact absurd hp ne

theorem exists_bracket_of_run? (h : run? {} p = some ⟨x :: xs, .nothing⟩) (hx : x.Closes b) :
    ∃ front behind, p = front ++ b :: behind ∧ IsBlank behind ∧
      run? {} (front ++ [b]) = some ⟨x :: xs, .nothing⟩ := by
  induction p using List.reverseRecOn
  case nil => cases h
  case append_singleton p b' ih =>
    obtain ⟨l, hr, hs⟩ := Option.bind_eq_some_iff.mp ((run?_append {} p [b']).symm.trans h)
    obtain ⟨l', hs, e⟩ := Option.bind_eq_some_iff.mp ((run?_cons l b' []).symm.trans hs)
    cases e
    rcases (steps_of_step? hs).eq_or_blank rfl rfl hx with rfl | ⟨hb, rfl⟩
    case inl => exact ⟨p, [], rfl, List.forall_mem_nil _, h⟩
    case inr =>
      obtain ⟨front, behind, rfl, hw, hr⟩ := ih hr
      refine ⟨front, behind ++ [b'], by simp, ?_, hr⟩
      exact List.forall_mem_append.mpr ⟨hw, List.forall_mem_singleton.mpr hb⟩

end Lexer

namespace Reader

variable {r r' : Reader}

theorem run?_append (r : Reader) (xs ys : List Lexeme) :
    r.run? (xs ++ ys) = (r.run? xs).bind (·.run? ys) :=
  List.foldlM_append

theorem run?_done (j : Json) (ne : xs ≠ []) : run? ⟨[], .done j⟩ xs = none := by
  obtain ⟨x, xs, rfl⟩ := List.exists_cons_of_ne_nil ne
  rw [run?_cons]
  cases x <;> rfl

theorem eq_of_finish? (h : r.finish? = some j) : r = ⟨[], .done j⟩ := by
  unfold finish? at h
  split at h
  case h_1 hs hp =>
    cases h
    rw [← hs, ← hp]
  case h_2 => cases h

theorem bracket?_of_begin? {stack : List Frame} (h : begin? stack x = some r)
    (hp : r.phase = .done j) : j.bracket? = none := by
  unfold begin? at h
  split at h <;> cases h <;> cases hp <;> rfl

theorem closes_of_resume? {i : Json} {stack : List Frame} (h : resume? i stack x = some r)
    (hp : r.phase = .done j) (hj : j.bracket? = some b) : x.Closes b := by
  unfold resume? at h
  split at h <;> cases h <;> cases hp <;> cases hj
  case h_2 => exact .array
  case h_4 => exact .object

-- An array or object is complete only with its bracket.
theorem closes_of_step? (h : r.step? x = some r') (hp : r'.phase = .done j)
    (hj : j.bracket? = some b) : x.Closes b := by
  have begun {stack : List Frame} {y : Lexeme} (h : begin? stack y = some r') : x.Closes b := by
    rw [bracket?_of_begin? h hp] at hj
    cases hj
  unfold step? at h
  split at h
  case h_1 => exact begun h
  case h_3 => exact begun h
  case h_7 => exact closes_of_resume? h hp hj
  all_goals cases h <;> cases hp <;> cases hj
  case h_2 => exact .array
  case h_5 => exact .object

end Reader

theorem run?_of_ofLexemes? (h : ofLexemes? xs = some j) :
    Reader.run? {} xs = some ⟨[], .done j⟩ := by
  obtain ⟨r, hr, hf⟩ := Option.bind_eq_some_iff.mp h
  rw [hr, Reader.eq_of_finish? hf]

theorem ofLexemes?_append (h : ofLexemes? xs = some j) (ne : ys ≠ []) :
    ofLexemes? (xs ++ ys) = none := by
  rw [ofLexemes?, Reader.run?_append, run?_of_ofLexemes? h, Option.bind_some,
    Reader.run?_done j ne, Option.bind_none]

theorem exists_closes_of_ofLexemes? (h : ofLexemes? xs = some j) (hj : j.bracket? = some b) :
    ∃ ys x, xs = ys ++ [x] ∧ x.Closes b := by
  have hr := run?_of_ofLexemes? h
  rcases List.eq_nil_or_concat xs with rfl | ⟨ys, x, rfl⟩
  case inl => cases hr
  case inr =>
    rw [List.concat_eq_append, Reader.run?_append] at hr
    obtain ⟨r, _, hs⟩ := Option.bind_eq_some_iff.mp hr
    rw [Reader.run?_cons] at hs
    obtain ⟨r', hs, e⟩ := Option.bind_eq_some_iff.mp hs
    cases e
    exact ⟨ys, x, List.concat_eq_append, Reader.closes_of_step? hs rfl hj⟩

theorem ofBytes?_eq_of_run? {done : List Lexeme} (h : Lexer.run? {} p = some ⟨done, .nothing⟩) :
    ofBytes? p = ofLexemes? done.reverse := by
  rw [ofBytes?, lexemes?, h]
  rfl

theorem exists_run?_of_ofBytes? (h : ofBytes? p = some j) (hj : j.bracket? = some b) :
    ∃ x xs, Lexer.run? {} p = some ⟨x :: xs, .nothing⟩ ∧ x.Closes b := by
  obtain ⟨zs, hl, hz⟩ := Option.bind_eq_some_iff.mp h
  obtain ⟨ys, x, rfl, hx⟩ := exists_closes_of_ofLexemes? hz hj
  rw [Lexer.lexemes?_eq] at hl
  obtain ⟨xs, hf, e⟩ := Option.map_eq_some_iff.mp hl
  have e : xs = x :: ys.reverse := by
    rw [← List.reverse_reverse xs, e, List.reverse_concat]
  subst e
  exact ⟨x, ys.reverse, Lexer.run?_of_finish? hf hx.not_isOpenEnded, hx⟩

-- Behind an array or object there may be white space, and nothing else.
theorem ofBytes?_append (h : ofBytes? p = some j) (hj : j.bracket? = some b) (q : List UInt8) :
    ofBytes? (p ++ q) = if IsBlank q then some j else none := by
  obtain ⟨x, xs, hr, _⟩ := exists_run?_of_ofBytes? h hj
  have hz : ofLexemes? (x :: xs).reverse = some j := (ofBytes?_eq_of_run? hr).symm.trans h
  have hf : Lexer.finish? {} (p ++ q) = Lexer.finish? ⟨x :: xs, .nothing⟩ q := by
    rw [Lexer.finish?_append, hr, Option.bind_some]
  rw [ofBytes?, Lexer.lexemes?_eq, hf]
  split_ifs with hq
  case pos =>
    have hb := Lexer.finish?_blank hq (x :: xs) []
    rw [List.append_nil] at hb
    rw [hb]
    exact hz
  case neg =>
    cases hs : Lexer.finish? ⟨x :: xs, .nothing⟩ q
    case none => rfl
    case some zs =>
      obtain ⟨ys, rfl, ne⟩ := Lexer.exists_of_finish? hs hq
      rw [Option.map_some, Option.bind_some, List.reverse_append]
      exact ofLexemes?_append hz (List.reverse_ne_nil_iff.mpr ne)

theorem exists_bracket_of_ofBytes? (h : ofBytes? p = some j) (hj : j.bracket? = some b) :
    ∃ front behind, p = front ++ b :: behind ∧ IsBlank behind ∧
      ofBytes? (front ++ [b]) = some j := by
  obtain ⟨x, xs, hr, hx⟩ := exists_run?_of_ofBytes? h hj
  obtain ⟨front, behind, e, hw, hf⟩ := Lexer.exists_bracket_of_run? hr hx
  refine ⟨front, behind, e, hw, ?_⟩
  rw [ofBytes?_eq_of_run? hf, ← ofBytes?_eq_of_run? hr, h]

end Json

namespace Service

open Json (IsBlank)

variable {c : Calculator} {body : List UInt8} {b : UInt8} {q : Query}

namespace Query

theorem exists_bracket (h : ofBytes? body = some q) :
    ∃ j b, Json.ofBytes? body = some j ∧ j.bracket? = some b := by
  obtain ⟨j, hj, hq⟩ := Option.bind_eq_some_iff.mp h
  cases j
  case array => exact ⟨_, _, hj, rfl⟩
  case object => exact ⟨_, _, hj, rfl⟩
  all_goals cases hq

theorem ofBytes?_append (h : ofBytes? body = some q) (t : List UInt8) :
    ofBytes? (body ++ t) = if IsBlank t then some q else none := by
  obtain ⟨j, b, hj, hb⟩ := exists_bracket h
  rw [ofBytes?, Json.ofBytes?_append hj hb]
  split_ifs
  case pos => rw [← hj, ← ofBytes?, h]
  case neg => rfl

end Query

theorem respond_of_ofBytes?_eq_none (h : Query.ofBytes? body = none) :
    respond c body = ⟨400, .error "invalid json request"⟩ := by
  rw [respond, h]
  rfl

-- What stands in front of the last bracket of a body and what behind it.
structure EndsAt (c : Calculator) (body front : List UInt8) (b : UInt8) (behind : List UInt8) :
    Prop where
  body_eq : body = front ++ b :: behind
  blank : IsBlank behind
  -- The bracket closes the value that the body is.
  closes : ∃ j, Json.ofBytes? body = some j ∧ j.bracket? = some b ∧
    Json.ofBytes? (front ++ [b]) = some j
  -- Without the bracket there is no request,
  cut {p : List UInt8} : p <+: front → respond c p = ⟨400, .error "invalid json request"⟩
  -- and white space is all that may be added to it.
  append (t : List UInt8) : respond c (body ++ t) =
    if IsBlank t then respond c body else ⟨400, .error "invalid json request"⟩

-- A request is not answered before it is complete.
theorem respond_truncated (h : (respond c body).status ≠ 400) :
    ∃ front b behind, EndsAt c body front b behind := by
  obtain ⟨q, hq⟩ := Option.ne_none_iff_exists'.mp
    (mt (outcome_respond c body).tells.invalid_iff.mpr h)
  obtain ⟨j, b, hj, hb⟩ := Query.exists_bracket hq
  obtain ⟨front, behind, rfl, hw, hf⟩ := Json.exists_bracket_of_ofBytes? hj hb
  refine ⟨front, b, behind, rfl, hw, ⟨j, hj, hb, hf⟩, ?cut, ?append⟩
  case cut =>
    rintro p ⟨rest, rfl⟩
    apply respond_of_ofBytes?_eq_none
    -- If the part were a request, the bracket could not stand behind it.
    by_contra hp
    obtain ⟨q', hp⟩ := Option.ne_none_iff_exists'.mp hp
    have hn : ¬IsBlank (rest ++ b :: behind) :=
      fun hw => Json.not_blank_of_bracket? hb (hw b (by simp))
    have ha := Query.ofBytes?_append hp (rest ++ b :: behind)
    rw [← List.append_assoc, hq, if_neg hn] at ha
    cases ha
  case append =>
    intro t
    have ha := Query.ofBytes?_append hq t
    split_ifs at ha ⊢
    case pos => rw [respond, respond, ha, hq]
    case neg => exact respond_of_ofBytes?_eq_none ha

-- Brackets in strings and those of other members are none that count.
theorem respond_truncated_nested :
    let body := utf8 "\x7b\"]\":[\x7b\"\x7d\":[]\x7d,\"]\"],\"expression\":\"(1)\"\x7d \n".toList
    (respond {} body).status ≠ 400 ∧ ∃ front b behind, EndsAt {} body front b behind := by
  intro body
  have h : (respond {} body).status ≠ 400 := by decide +kernel
  exact ⟨h, respond_truncated h⟩

end Service

end Abacus

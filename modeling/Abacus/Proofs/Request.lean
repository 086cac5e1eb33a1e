import Abacus.Proofs.Grammar
import Abacus.Service.Answer

namespace Abacus.Service

open Json (Mark Lexeme Row Spells)

-- A key of which the service takes no notice.
def IsOtherKey (key : List Mark) : Prop :=
  ∃ name, name ≠ "expression" ∧ Spells name key

-- The expression that a JSON value asks for. It asks for none at all if it is no request.
inductive Asks : Json → Option String → Prop
  | member {front behind : List (List Mark × Json)} {key value : List Mark} {e : String} :
    Spells "expression" key → Spells e value → (∀ m ∈ front ++ behind, IsOtherKey m.1) →
    Asks (.object (front ++ (key, .text value) :: behind)) (some e)
  | nullMember {front behind : List (List Mark × Json)} {key : List Mark} :
    Spells "expression" key → (∀ m ∈ front ++ behind, IsOtherKey m.1) →
    Asks (.object (front ++ (key, .null) :: behind)) (some "")
  | noMember {members : List (List Mark × Json)} :
    (∀ m ∈ members, IsOtherKey m.1) → Asks (.object members) (some "")
  | item {value : List Mark} {e : String} : Spells e value → Asks (.array [.text value]) (some e)
  | nullItem : Asks (.array [.null]) (some "")
  | noItem : Asks (.array []) (some "")
  -- The values of a member that is there twice are not looked at.
  | twice {front middle behind : List (List Mark × Json)} {key key' : List Mark} {j j' : Json} :
    Spells "expression" key → Spells "expression" key' →
    Asks (.object (front ++ (key, j) :: (middle ++ (key', j') :: behind))) none

-- The answer that belongs to an expression.
def answerTo (c : Calculator) : Option String → Answer
  | none => ⟨400, .error "invalid json request"⟩
  | some e =>
    match c.calculate e with
    | .ok x => if x.isFinite then ⟨200, .result x⟩ else ⟨500, .error "internal server error"⟩
    | .error f => ⟨422, .error f.message⟩

variable {front behind members : List (List Mark × Json)} {named named' : List (String × Json)}
  {key key' : List Mark} {j j' : Json} {q : Option String} {body : List UInt8}

-- The member by its name, if it has one.
def named? (m : List Mark × Json) : Option (String × Json) :=
  (Mark.text? m.1).map (·, m.2)

theorem fields?_object (members : List (List Mark × Json)) :
    (Json.object members).fields? ["expression"] =
      (members.mapM named?).bind fun named =>
        (Json.member? named "expression").map fun field => [field] := by
  have h (named : List (String × Json)) :
      ["expression"].mapM (Json.member? named) =
        (Json.member? named "expression").map fun field => [field] := by
    rw [List.mapM_cons, List.mapM_nil]
    cases Json.member? named "expression" <;> rfl
  simp only [← h]
  rfl

theorem named?_of_spells {name : String} (h : Spells name key) (j : Json) :
    named? (key, j) = some (name, j) := by
  rw [named?, h.text?_eq]
  rfl

theorem mapM_named?_of_isOtherKey (h : ∀ m ∈ members, IsOtherKey m.1) :
    ∃ named, members.mapM named? = some named ∧ named.filter (·.1 = "expression") = [] := by
  induction members
  case nil => exact ⟨[], rfl, rfl⟩
  case cons m members ih =>
    have ⟨⟨name, hn, hs⟩, hr⟩ := List.forall_mem_cons.mp h
    have ⟨named, hm, hf⟩ := ih hr
    refine ⟨(name, m.2) :: named, ?_, ?_⟩
    · simp only [List.mapM_cons, named?_of_spells hs, hm, Option.bind_eq_bind, Option.bind_some]
      rfl
    · rw [List.filter_cons_of_neg (by simpa using hn), hf]

theorem mapM_named?_append (front behind : List (List Mark × Json)) :
    (front ++ behind).mapM named? =
      (front.mapM named?).bind fun ns => (behind.mapM named?).map (ns ++ ·) := by
  rw [List.mapM_append]
  cases front.mapM named?
  case none => rfl
  case some ns => cases behind.mapM named? <;> rfl

theorem mapM_named?_cons (h : Spells "expression" key) (j : Json)
    (behind : List (List Mark × Json)) :
    ((key, j) :: behind).mapM named? = (behind.mapM named?).map (("expression", j) :: ·) := by
  rw [List.mapM_cons, named?_of_spells h]
  cases behind.mapM named? <;> rfl

-- The only member of that name is found among the others.
theorem fields?_of_once (h : Spells "expression" key)
    (ho : ∀ m ∈ front ++ behind, IsOtherKey m.1) (j : Json) :
    (Json.object (front ++ (key, j) :: behind)).fields? ["expression"] = some [some j] := by
  rw [List.forall_mem_append] at ho
  have ⟨ns, hm, hf⟩ := mapM_named?_of_isOtherKey ho.left
  have ⟨ns', hm', hf'⟩ := mapM_named?_of_isOtherKey ho.right
  have hn : (ns ++ ("expression", j) :: ns').filter (·.1 = "expression") =
      [("expression", j)] := by
    rw [List.filter_append, hf, List.filter_cons_of_pos (by simp), hf']
    rfl
  rw [fields?_object, mapM_named?_append, hm, mapM_named?_cons h, hm', Option.map_some,
    Option.bind_some, Option.map_some, Option.bind_some, Json.member?, hn]
  rfl

theorem fields?_of_never (h : ∀ m ∈ members, IsOtherKey m.1) :
    (Json.object members).fields? ["expression"] = some [none] := by
  have ⟨ns, hm, hf⟩ := mapM_named?_of_isOtherKey h
  rw [fields?_object, hm, Option.bind_some, Json.member?, hf]
  rfl

-- Of two members of one name neither is taken.
theorem member?_of_twice {a b c : List (String × Json)} :
    Json.member? (a ++ ("expression", j) :: (b ++ ("expression", j') :: c)) "expression" =
      none := by
  unfold Json.member?
  split
  case h_1 h => simp [List.filter_append] at h
  case h_2 h =>
    have := congrArg List.length h
    simp [List.filter_append] at this
    omega
  case h_3 => rfl

theorem fields?_of_twice (h : Spells "expression" key) (h' : Spells "expression" key')
    (front middle behind : List (List Mark × Json)) (j j' : Json) :
    (Json.object (front ++ (key, j) :: (middle ++ (key', j') :: behind))).fields? ["expression"] =
      none := by
  rw [fields?_object, mapM_named?_append, mapM_named?_cons h, mapM_named?_append,
    mapM_named?_cons h']
  cases front.mapM named?
  case none => rfl
  case some ns =>
    cases middle.mapM named?
    case none => rfl
    case some ns' =>
      cases behind.mapM named?
      case none => rfl
      case some ns'' =>
        simp only [Option.bind_some, Option.map_some]
        rw [member?_of_twice]
        rfl

namespace Asks

-- What is asked is what the query is taken for; a missing expression is an empty one.
theorem ofJson?_eq (h : Asks j q) : (Query.ofJson? j).map Query.source = q := by
  cases h
  case member hk he ho =>
    rw [Query.ofJson?, fields?_of_once hk ho]
    simp [Json.text?, he.text?_eq, Query.source]
  case nullMember hk ho =>
    rw [Query.ofJson?, fields?_of_once hk ho]
    rfl
  case noMember ho =>
    rw [Query.ofJson?, fields?_of_never ho]
    rfl
  case item he =>
    simp [Query.ofJson?, Json.fields?, Json.text?, he.text?_eq, Query.source]
  case nullItem => rfl
  case noItem => rfl
  case twice hk hk' =>
    rw [Query.ofJson?, fields?_of_twice hk hk']
    rfl

end Asks

theorem ofOutcome_eq_answerTo (c : Calculator) (e : String) :
    Answer.ofOutcome (c.evaluate e) = answerTo c (some e) := by
  simp only [answerTo, Calculator.calculate]
  cases c.evaluate e <;> rfl

-- The answer depends on the expression alone.
theorem respond_of_asks (h : Asks j q) (text : j.IsTextOf body) (c : Calculator) :
    respond c body = answerTo c q := by
  have hq := h.ofJson?_eq
  rw [respond, Query.ofBytes?, text.ofBytes?_eq, Option.bind_some]
  cases hj : Query.ofJson? j
  case none =>
    rw [hj] at hq
    subst hq
    rfl
  case some query =>
    rw [hj] at hq
    subst hq
    exact ofOutcome_eq_answerTo c query.source

-- What the service takes no notice of need not even make sense.
theorem respond_of_asks_escaped :
    let other : List Mark := [.byte 0x61]
    let key : List Mark := .unit 0x65 :: (utf8 "xpression".toList).map .byte
    let value : List Mark := (utf8 "1/2".toList).map .byte
    let j : Json := .object [(other, .array [.number ⟨true, 1, 0, some 999⟩, .text [.unit 0xD800]]),
      (key, .text value), (other, .null)]
    let body := utf8
      "\x7b\"a\":[-1E+999,\"\\uD800\"],\"\\u0065xpression\" : \"1\\/2\" ,\"a\":null\x7d".toList
    Asks j (some "1/2") ∧ j.IsTextOf body ∧ respond {} body = answerTo {} (some "1/2") := by
  intro other key value j body
  have raw (s : List Char) (h : (utf8 s).all fun b => 0x20 ≤ b ∧ b ≠ 0x22 ∧ b ≠ 0x5c) :
      Row Mark.IsSpelled ((utf8 s).map .byte) (utf8 s) :=
    Json.row_isSpelled_raw fun b hb => of_decide_eq_true (List.all_eq_true.mp h b hb)
  have digits {s : List Char} (ne : s ≠ []) (h : s.all Char.isDigit) : Json.IsDigits s :=
    ⟨ne, List.all_eq_true.mp h⟩
  have hother : IsOtherKey other := ⟨"a", by decide, Json.row_isMarked_utf8 ['a']⟩
  have h : Asks j (some "1/2") := by
    refine @Asks.member [_] [_] _ _ _ ?_ ?_ ?_
    · exact .cons (.unit (c := 'e') (by decide)) (Json.row_isMarked_utf8 "xpression".toList)
    · exact Json.row_isMarked_utf8 "1/2".toList
    · simp [hother]
  have whole : Json.IsWhole ['1'] := ⟨digits (by decide) (by decide), by decide⟩
  have number : Json.Number.IsSpelled ⟨true, 1, 0, some 999⟩ "-1E+999".toList :=
    .parts true whole .none
      (.plus (l := 'E') (s := "999".toList) (by decide) (digits (by decide) (by decide)))
  have surrogate : Mark.IsSpelled (.unit 0xD800) (utf8 "\\uD800".toList) :=
    .unit (.digits (a := 13) (b := 8) (c := 0) (d := 0) ⟨by decide, .inr rfl⟩ ⟨by decide, .inl rfl⟩
      ⟨by decide, .inl rfl⟩ ⟨by decide, .inl rfl⟩)
  have letter : Mark.IsSpelled (.unit 0x65) (utf8 "\\u0065".toList) :=
    .unit (.digits (a := 0) (b := 0) (c := 6) (d := 5) ⟨by decide, .inl rfl⟩ ⟨by decide, .inl rfl⟩
      ⟨by decide, .inl rfl⟩ ⟨by decide, .inl rfl⟩)
  have slash : Mark.IsSpelled (.byte 0x2f) (utf8 "\\/".toList) := .short (c := '/') (by decide)
  have valueText : Row Mark.IsSpelled value (utf8 ['1'] ++ (utf8 "\\/".toList ++ utf8 ['2'])) :=
    .cons (.raw (by decide) (by decide) (by decide)) (.cons slash (raw ['2'] (by decide)))
  have otherText : Row Mark.IsSpelled other (utf8 ['a']) := raw ['a'] (by decide)
  have laid : Json.Laid j.lexemes _ :=
    .sign '\x7b' (by decide) <| .text otherText <| .sign ':' (by decide) <|
    .sign '[' (by decide) <| .cons (.number number) (by decide) <| .sign ',' (by decide) <|
    .text (.cons surrogate .nil) <| .sign ']' (by decide) <| .sign ',' (by decide) <|
    .text (.cons letter (raw "xpression".toList (by decide))) <|
    .of_blank (w := [0x20]) (by decide) <| .sign ':' (by decide) <|
    .of_blank (w := [0x20]) (by decide) <| .text valueText <|
    .of_blank (w := [0x20]) (by decide) <| .sign ',' (by decide) <| .text otherText <|
    .sign ':' (by decide) <| .cons (.word (s := "null".toList) (by decide)) (by decide) <|
    .sign '\x7d' (by decide) <| .blank (w := []) (by decide)
  have text : j.IsTextOf body :=
    Eq.subst (motive := Json.Laid j.lexemes) (by decide +kernel) laid
  exact ⟨h, text, respond_of_asks h text {}⟩

end Abacus.Service

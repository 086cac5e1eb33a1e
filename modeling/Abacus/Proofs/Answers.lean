import Abacus.Proofs.RoundTrip

namespace Abacus.Service

open Binary64

-- The status that goes with a sentence.
def statusOf (message : String) : Nat :=
  if message = "invalid json request" then 400
  else if message = "internal server error" then 500
  else 422

-- The fault that a sentence is about.
def faultOf? (message : String) : Option Fault :=
  Fault.all.find? (·.message = message)

theorem statusOf_message (f : Fault) : statusOf f.message = 422 := by
  cases f <;> decide

theorem faultOf?_message (f : Fault) : faultOf? f.message = some f := by
  cases f <;> decide

-- What has become of the request in a body.
inductive Outcome (c : Calculator) (body : List UInt8) : Answer → Prop
  | invalid : Query.ofBytes? body = none → Outcome c body ⟨400, .error "invalid json request"⟩
  | fault {q : Query} {e : Spanned Fault} :
    Query.ofBytes? body = some q → c.evaluate q.source = .error e →
    Outcome c body ⟨422, .error e.value.message⟩
  | internal {q : Query} {x : Float} :
    Query.ofBytes? body = some q → c.evaluate q.source = .ok x → ¬x.isFinite →
    Outcome c body ⟨500, .error "internal server error"⟩
  | value {q : Query} {x : Float} :
    Query.ofBytes? body = some q → c.evaluate q.source = .ok x → x.isFinite →
    Outcome c body ⟨200, .result x⟩

theorem outcome_respond (c : Calculator) (body : List UInt8) : Outcome c body (respond c body) := by
  rw [respond]
  split
  case h_1 q hq =>
    cases he : c.evaluate q.source
    case error e => exact .fault hq he
    case ok x =>
      rw [Answer.ofOutcome]
      split_ifs with hx
      case pos => exact .value hq he hx
      case neg => exact .internal hq he hx
  case h_2 hq => exact .invalid hq

-- What an answer to a body tells.
structure Tells (c : Calculator) (body : List UInt8) (a : Answer) : Prop where
  invalid_iff : a.status = 400 ↔ Query.ofBytes? body = none
  fault_iff : a.status = 422 ↔
    ∃ q e, Query.ofBytes? body = some q ∧ c.evaluate q.source = .error e
  internal_iff : a.status = 500 ↔
    ∃ q x, Query.ofBytes? body = some q ∧ c.evaluate q.source = .ok x ∧ ¬x.isFinite
  value_iff : a.status = 200 ↔ ∃ x, a.reply = .result x
  -- The only value that is ever given is that of the expression.
  value {x : Float} : a.reply = .result x →
    x.isFinite ∧ ∃ q, Query.ofBytes? body = some q ∧ c.evaluate q.source = .ok x
  -- Everything there is to know about an error is in its sentence.
  status {message : String} : a.reply = .error message → a.status = statusOf message
  fault {q : Query} {e : Spanned Fault} :
    Query.ofBytes? body = some q → c.evaluate q.source = .error e →
    a.reply = .error e.value.message ∧ faultOf? e.value.message = some e.value
  -- Sentences are read back as they are,
  readError {message : String} : a.reply = .error message →
    Wire.ofText? a.text = some (Reply.error message)
  -- and values as the double for which their digits are taken.
  readResult {x : Float} : a.reply = .result x →
    Wire.ofText? a.text = some (Reply.result (reread x)) ∧ ComesBackAs x (reread x)
  -- Those digits are a number that only this double is nearest to.
  number {x : Float} : a.reply = .result x → ∃ n : Json.Number,
    a.text = Json.objectText [("result", String.ofList n.text)] ∧
      n.negative = isNegative x ∧ n.decimal.nearest? = some (pattern x)

theorem ofText?_error (message : String) :
    Wire.ofText? (Wire.text (Reply.error message)) = some (Reply.error message) :=
  (LawfulWire.reads ⟨List.forall_mem_nil _, List.forall_mem_nil _⟩).ofText?_eq

theorem ofText?_result {x : Float} (hx : x.isFinite) :
    Wire.ofText? (Wire.text (Reply.result x)) = some (Reply.result (reread x)) :=
  have h : IsSendable (Reply.result x) :=
    ⟨fun _ hd => List.mem_singleton.mp hd ▸ hx, List.forall_mem_nil _⟩
  (LawfulWire.reads h).ofText?_eq

namespace Outcome

variable {c : Calculator} {body : List UInt8} {a : Answer} {x : Float} {message : String}

theorem isFinite (h : Outcome c body a) (hr : a.reply = .result x) : x.isFinite := by
  cases h
  case value hx =>
    cases hr
    exact hx
  all_goals cases hr

theorem tells (h : Outcome c body a) : Tells c body a where
  invalid_iff  := by cases h <;> simp [*]
  fault_iff    := by cases h <;> simp [*]
  internal_iff := by cases h <;> simp [*]
  value_iff    := by cases h <;> simp
  value hr     := by cases h <;> cases hr; simp [*]
  status hr := by
    cases h <;> cases hr
    case fault => exact (statusOf_message _).symm
    all_goals rfl
  fault hq he := by
    refine ⟨?_, faultOf?_message _⟩
    cases h <;> simp_all
  readError hr := by
    rw [Answer.text, hr]
    exact ofText?_error _
  readResult hr := by
    have hx := h.isFinite hr
    rw [Answer.text, hr]
    exact ⟨ofText?_result hx, comesBackAs_reread hx⟩
  number {x} hr := by
    have hx := h.isFinite hr
    refine ⟨.ofDouble x, ?_, Json.Number.negative_ofDouble x, ?_⟩
    case refine_2 => exact Json.Number.nearest?_decimal_ofDouble hx
    rw [Answer.text, hr]
    dsimp only [Wire.text]
    rw [Json.doubleText, if_pos hx]

end Outcome

theorem respond_tells (c : Calculator) (body : List UInt8) : Tells c body (respond c body) :=
  (outcome_respond c body).tells

-- Sixteen digits may be more than a double holds.
theorem respond_does_not_read_back :
    let body := utf8 "\x7b\"expression\":\"1/11\"\x7d".toList
    (respond {} body).status = 200 ∧
      Wire.ofText? (respond {} body).text ≠ some (respond {} body).reply := by
  decide +kernel

end Abacus.Service

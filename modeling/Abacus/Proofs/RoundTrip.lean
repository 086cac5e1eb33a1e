import Abacus.Proofs.Closeness
import Abacus.Proofs.Compact
import Abacus.Service.Answer

namespace Abacus

open Json (Mark Spells Writes WritesMember)

-- The doubles in a value, and the numbers that have to fit into sixty-four bits.
class Contents (α : Type) where
  doubles : α → List Float
  words : α → List Nat
  mapDoubles : (Float → Float) → α → α

open Contents

section

variable {α : Type} [Contents α]

-- A value that a program can hold and JSON can express.
structure IsSendable (x : α) : Prop where
  finite : ∀ d ∈ doubles x, d.isFinite
  fits   : ∀ n ∈ words x, n < 2 ^ 64

instance : Contents Nat where
  doubles _ := []
  words n := [n]
  mapDoubles _ n := n

instance : Contents Span where
  doubles _ := []
  words s := [s.start, s.stop]
  mapDoubles _ s := s

instance : Contents (Spanned α) where
  doubles x := doubles x.value
  words x := words x.value ++ words x.span
  mapDoubles f x := x.map (mapDoubles f)

instance : Contents (List α) where
  doubles xs := xs.flatMap doubles
  words xs := xs.flatMap words
  mapDoubles f xs := xs.map (mapDoubles f)

instance : Contents Calculator where
  doubles _ := []
  words c := [c.maxDepth]
  mapDoubles _ c := c

instance : Contents Fault where
  doubles _ := []
  words _ := []
  mapDoubles _ f := f

instance : Contents Token where
  doubles
    | .number x => [x]
    | _ => []
  words _ := []
  mapDoubles f
    | .number x => .number (f x)
    | t => t

instance : Contents Service.Reply where
  doubles
    | .result x => [x]
    | .error _ => []
  words _ := []
  mapDoubles f
    | .result x => .result (f x)
    | .error s => .error s

end

-- The first value is written as a text of JSON that is the second one.
def Reads {α : Type} [Wire α] (x y : α) : Prop :=
  ∃ j, Writes j (Wire.text x) ∧ Wire.ofJson? j = some y

theorem Reads.ofText?_eq {α : Type} [Wire α] {x y : α} (h : Reads x y) :
    Wire.ofText? (Wire.text x) = some y := by
  have ⟨j, hw, hj⟩ := h
  rw [Wire.ofText?, ← utf8_toList, Wire.ofBytes?, hw.ofBytes?_eq, Option.bind_some, hj]

-- A JSON form that keeps everything but doubles.
class LawfulWire (α : Type) [Wire α] [Contents α] : Prop where
  reads {x : α} : IsSendable x → Reads x (mapDoubles reread x)
  isSendable {j : Json} {x : α} : Wire.ofJson? j = some x → IsSendable x
  mapDoubles_eq_iff {f : Float → Float} {x : α} :
    mapDoubles f x = x ↔ ∀ d ∈ doubles x, f d = d

namespace Json

variable {j j' : Json} {s s' name name' : String}

theorem exists_text (s : String) :
    ∃ o, Writes o (quote s) ∧ o.text? = some s ∧ o.alternative? = some (s, none) := by
  have ⟨marks, hs, hw⟩ := exists_writes_quote s
  exact ⟨_, hw, hs.text?_eq, by simp [alternative?, hs.text?_eq]⟩

theorem exists_member (name : String) (h : Writes j s) :
    ∃ key, Spells name key ∧ WritesMember (key, j) (name, s) := by
  have ⟨key, hs, hr⟩ := exists_row_quote name
  exact ⟨key, hs, hr, h⟩

theorem exists_object (name : String) (h : Writes j s) :
    ∃ o, Writes o (objectText [(name, s)]) ∧ o.fields? [name] = some [some j] ∧
      o.alternative? = some (name, some j) := by
  have ⟨key, hs, hm⟩ := exists_member name h
  refine ⟨_, writes_objectText (.cons hm .nil), ?_, ?_⟩
  · simp [fields?, member?, hs.text?_eq]
  · simp [alternative?, hs.text?_eq]

theorem exists_record (hn : name ≠ name') (h : Writes j s) (h' : Writes j' s') :
    ∃ o, Writes o (objectText [(name, s), (name', s')]) ∧
      o.fields? [name, name'] = some [some j, some j'] := by
  have ⟨key, hs, hm⟩ := exists_member name h
  have ⟨key', hs', hm'⟩ := exists_member name' h'
  refine ⟨_, writes_objectText (.cons hm (.cons hm' .nil)), ?_⟩
  simp [fields?, member?, hs.text?_eq, hs'.text?_eq, hn, hn.symm]

end Json

-- Of a record with two fields, each one is read on its own.
theorem bind_fields_eq_some {α β γ : Type} [Wire α] [Wire β] (f : α → β → γ)
    {fields : Option (List (Option Json))} {x : γ} :
    (do
      let [some j, some j'] ← fields | none
      some (f (← Wire.ofJson? j) (← Wire.ofJson? j'))) = some x ↔
    ∃ j j' a b, fields = some [some j, some j'] ∧ Wire.ofJson? j = some a ∧
      Wire.ofJson? j' = some b ∧ f a b = x := by
  simp only [Option.bind_eq_bind, Option.bind_eq_some_iff]
  constructor
  case mp =>
    intro ⟨_, hf, h⟩
    split at h
    case h_1 j j' =>
      simp only [Option.bind_eq_some_iff, Option.some.injEq] at h
      have ⟨a, ha, b, hb, h⟩ := h
      exact ⟨j, j', a, b, hf, ha, hb, h⟩
    case h_2 => cases h
  case mpr =>
    intro ⟨j, j', a, b, hf, ha, hb, h⟩
    exact ⟨_, hf, by simp [ha, hb, h]⟩

namespace LawfulWire

variable {α : Type} [Wire α] [Contents α] [LawfulWire α]

instance : LawfulWire Nat where
  reads h :=
    have fits := h.fits _ (List.mem_singleton_self _)
    ⟨_, Json.writes_number _, Json.Number.toNat?_ofNat fits⟩
  isSendable {j x} h := by
    cases j
    case number n =>
      have h : n.toNat? = some x := h
      unfold Json.Number.toNat? at h
      split_ifs at h with hn
      cases h
      exact ⟨List.forall_mem_nil _, List.forall_mem_singleton.mpr hn.right.right.right⟩
    all_goals cases h
  mapDoubles_eq_iff := by simp [doubles, mapDoubles]

theorem isSendable_nat {n : Nat} (h : n < 2 ^ 64) : IsSendable n :=
  ⟨List.forall_mem_nil _, List.forall_mem_singleton.mpr h⟩

instance : LawfulWire Span where
  reads {x} h := by
    have ⟨hs, he⟩ : x.start < 2 ^ 64 ∧ x.stop < 2 ^ 64 := by simpa [words] using h.fits
    have ⟨j, hw, hj⟩ := reads (isSendable_nat hs)
    have ⟨j', hw', hj'⟩ := reads (isSendable_nat he)
    have ⟨o, ho, hf⟩ := Json.exists_record (by decide : "start" ≠ "end") hw hw'
    exact ⟨o, ho, (bind_fields_eq_some Span.mk).mpr ⟨j, j', _, _, hf, hj, hj', rfl⟩⟩
  isSendable {j x} h := by
    have ⟨_, _, a, b, _, ha, hb, h⟩ := (bind_fields_eq_some Span.mk).mp h
    subst h
    have ha := (isSendable ha).fits
    have hb := (isSendable hb).fits
    exact ⟨List.forall_mem_nil _, by simp_all [words]⟩
  mapDoubles_eq_iff := by simp [doubles, mapDoubles]

instance : LawfulWire (Spanned α) where
  reads {x} h := by
    have ⟨hv, hs⟩ := List.forall_mem_append.mp h.fits
    have ⟨j, hw, hj⟩ := reads (x := x.value) ⟨h.finite, hv⟩
    have ⟨j', hw', hj'⟩ := reads (x := x.span) ⟨List.forall_mem_nil _, hs⟩
    have ⟨o, ho, hf⟩ := Json.exists_record (by decide : "value" ≠ "span") hw hw'
    exact ⟨o, ho, (bind_fields_eq_some (Spanned.mk (α := α))).mpr ⟨j, j', _, _, hf, hj, hj', rfl⟩⟩
  isSendable {j x} h := by
    have ⟨_, _, a, b, _, ha, hb, h⟩ := (bind_fields_eq_some (Spanned.mk (α := α))).mp h
    subst h
    have ha := isSendable ha
    have hb := isSendable hb
    exact ⟨ha.finite, List.forall_mem_append.mpr ⟨ha.fits, hb.fits⟩⟩
  mapDoubles_eq_iff {f x} := by
    have h : mapDoubles f x = x ↔ mapDoubles f x.value = x.value :=
      Spanned.ext_iff.trans (and_iff_left rfl)
    exact h.trans mapDoubles_eq_iff

theorem exists_items {xs : List α} (h : ∀ x ∈ xs, IsSendable x) :
    ∃ items, List.Forall₂ Writes items (xs.map Wire.text) ∧
      items.mapM Wire.ofJson? = some (xs.map (mapDoubles reread)) := by
  induction xs
  case nil => exact ⟨[], .nil, rfl⟩
  case cons x xs ih =>
    have ⟨hx, h⟩ := List.forall_mem_cons.mp h
    have ⟨j, hw, hj⟩ := reads hx
    have ⟨items, hws, hjs⟩ := ih h
    exact ⟨j :: items, .cons hw hws, by simp [List.mapM_cons, hj, hjs]⟩

theorem isSendable_of_mapM {items : List Json} {xs : List α}
    (h : items.mapM Wire.ofJson? = some xs) : ∀ x ∈ xs, IsSendable x := by
  induction items generalizing xs
  case nil =>
    cases h
    exact List.forall_mem_nil _
  case cons j items ih =>
    simp only [List.mapM_cons, Option.bind_eq_bind, Option.bind_eq_some_iff] at h
    have ⟨x, hj, xs, hjs, h⟩ := h
    cases h
    exact List.forall_mem_cons.mpr ⟨isSendable hj, ih hjs⟩

omit [Wire α] [LawfulWire α] in
theorem isSendable_list {xs : List α} : IsSendable xs ↔ ∀ x ∈ xs, IsSendable x := by
  constructor
  case mp =>
    intro h x hx
    exact ⟨fun d hd => h.finite d (List.mem_flatMap_of_mem hx hd),
      fun n hn => h.fits n (List.mem_flatMap_of_mem hx hn)⟩
  case mpr =>
    intro h
    constructor
    case finite =>
      intro d hd
      have ⟨x, hx, hd⟩ := List.mem_flatMap.mp hd
      exact (h x hx).finite d hd
    case fits =>
      intro n hn
      have ⟨x, hx, hn⟩ := List.mem_flatMap.mp hn
      exact (h x hx).fits n hn

instance : LawfulWire (List α) where
  reads h := by
    have ⟨items, hw, hj⟩ := exists_items (isSendable_list.mp h)
    exact ⟨.array items, Json.writes_arrayText hw, hj⟩
  isSendable h := by
    have ⟨_, _, h⟩ := Option.bind_eq_some_iff.mp h
    exact isSendable_list.mpr (isSendable_of_mapM h)
  mapDoubles_eq_iff {f xs} := by
    calc xs.map (mapDoubles f) = xs
      _ ↔ xs.map (mapDoubles f) = xs.map id := by rw [List.map_id]
      _ ↔ ∀ x ∈ xs, mapDoubles f x = x := List.map_inj_left
      _ ↔ ∀ x ∈ xs, ∀ d ∈ doubles x, f d = d := by simp only [mapDoubles_eq_iff]
      _ ↔ ∀ d ∈ xs.flatMap doubles, f d = d := List.forall_mem_flatMap.symm

instance : LawfulWire Calculator where
  reads {c} h := by
    have ⟨j, hw, hj⟩ := reads (isSendable_nat (h.fits _ (List.mem_singleton_self _)))
    have ⟨o, ho, hf, _⟩ := Json.exists_object "max_depth" hw
    refine ⟨o, ho, ?_⟩
    simp only [Wire.ofJson?] at hj
    simp only [Wire.ofJson?, hf, Option.bind_eq_bind, Option.bind_some, hj]
    rfl
  isSendable {j c} h := by
    have ⟨fields, _, h⟩ := Option.bind_eq_some_iff.mp h
    refine ⟨List.forall_mem_nil _, List.forall_mem_singleton.mpr ?_⟩
    split at h
    case h_1 =>
      cases h
      decide
    case h_2 depth =>
      have ⟨n, hn, h⟩ := Option.bind_eq_some_iff.mp h
      cases h
      exact (isSendable hn).fits n (List.mem_singleton_self _)
    case h_3 => cases h
  mapDoubles_eq_iff := by simp [doubles, mapDoubles]

instance : LawfulWire Fault where
  reads {f} _ := by
    have ⟨o, ho, _, ha⟩ := Json.exists_text f.name
    refine ⟨o, ho, ?_⟩
    simp [Wire.ofJson?, ha, Wire.isBare, Fault.ofName?_name, mapDoubles]
  isSendable _ := ⟨List.forall_mem_nil _, List.forall_mem_nil _⟩
  mapDoubles_eq_iff := by simp [doubles, mapDoubles]

-- A finite double is never written as something that is no number.
theorem exists_double {x : Float} (hx : x.isFinite) :
    ∃ j, Writes j (Json.doubleText x) ∧ j.double? = some (reread x) := by
  rw [Json.doubleText, if_pos hx]
  exact ⟨_, Json.writes_number _, toDouble?_ofDouble hx⟩

theorem isFinite_of_double? {j : Json} {x : Float} (h : j.double? = some x) : x.isFinite := by
  cases j
  case number => exact Json.Number.isFinite_of_toDouble? h
  all_goals cases h

theorem reads_bare {t : Token} {name : String} (h : Wire.bareName? t = some name) : Reads t t := by
  have ⟨o, ho, _, ha⟩ := Json.exists_text name
  have hw : Wire.text t = Json.quote name := by
    cases t
    case number => cases h
    all_goals simp [Wire.text, h]
  refine ⟨o, hw ▸ ho, ?_⟩
  simp [Wire.ofJson?, ha, Wire.isBare, Wire.bareOfName?_bareName? h]

theorem doubles_of_bareOfName? {t : Token} {name : String} (h : Wire.bareOfName? name = some t) :
    doubles t = [] := by
  have h := List.find?_some h
  cases t
  case number => simp [Wire.bareName?] at h
  all_goals rfl

instance : LawfulWire Token where
  reads {t} h := by
    cases t
    case number x =>
      have ⟨j, hw, hj⟩ := exists_double (h.finite x (List.mem_singleton_self _))
      have ⟨o, ho, _, ha⟩ := Json.exists_object "Number" hw
      refine ⟨o, ho, ?_⟩
      simp [Wire.ofJson?, ha, hj, mapDoubles]
    case operator o => cases o <;> exact reads_bare rfl
    all_goals exact reads_bare rfl
  isSendable {j t} h := by
    refine ⟨?_, List.forall_mem_nil _⟩
    have ⟨⟨name, content⟩, _, h⟩ := Option.bind_eq_some_iff.mp h
    dsimp only at h
    split at h
    case h_1 =>
      have ⟨x, hx, h⟩ := Option.map_eq_some_iff.mp h
      subst h
      exact List.forall_mem_singleton.mpr (isFinite_of_double? hx)
    case h_2 =>
      split_ifs at h
      exact doubles_of_bareOfName? h ▸ List.forall_mem_nil _
  mapDoubles_eq_iff {f t} := by
    cases t <;> simp [doubles, mapDoubles]

instance : LawfulWire Service.Reply where
  reads {r} h := by
    cases r
    case result x =>
      have ⟨j, hw, hj⟩ := exists_double (h.finite x (List.mem_singleton_self _))
      have ⟨o, ho, _, ha⟩ := Json.exists_object "result" hw
      refine ⟨o, ho, ?_⟩
      simp [Wire.ofJson?, ha, hj, mapDoubles]
    case error message =>
      have ⟨j, hw, hj, _⟩ := Json.exists_text message
      have ⟨o, ho, _, ha⟩ := Json.exists_object "error" hw
      refine ⟨o, ho, ?_⟩
      simp [Wire.ofJson?, ha, hj, mapDoubles]
  isSendable {j r} h := by
    have ⟨a, _, h⟩ := Option.bind_eq_some_iff.mp h
    refine ⟨?_, List.forall_mem_nil _⟩
    split at h
    case h_1 =>
      have ⟨x, hx, h⟩ := Option.map_eq_some_iff.mp h
      subst h
      exact List.forall_mem_singleton.mpr (isFinite_of_double? hx)
    case h_2 =>
      have ⟨_, _, h⟩ := Option.map_eq_some_iff.mp h
      subst h
      exact List.forall_mem_nil _
    case h_3 => cases h
  mapDoubles_eq_iff {f r} := by
    cases r <;> simp [doubles, mapDoubles]

end LawfulWire

-- What there is to say about values of a type that are written and read again.
structure RoundTrips (α : Type) [Wire α] [Contents α] : Prop where
  -- A value comes back with its doubles as they are reread.
  comesBack {x : α} : IsSendable x →
    Wire.ofText? (Wire.text x) = some (mapDoubles reread x) ∧
      ∀ d ∈ doubles x, ComesBackAs d (reread d)
  -- It comes back itself if each of them does.
  comesBack_iff {x : α} : IsSendable x →
    (Wire.ofText? (Wire.text x) = some x ↔ ∀ d ∈ doubles x, reread d = d)
  -- Whatever is read, from any text, can be written.
  isSendable {t : List UInt8} {x : α} : Wire.ofBytes? t = some x → IsSendable x
  -- If its doubles come back, the text that is written for it does as well.
  settled {t : List UInt8} {x : α} : Wire.ofBytes? t = some x → (∀ d ∈ doubles x, reread d = d) →
    (Wire.ofText? (Wire.text x) : Option α).map Wire.text = some (Wire.text x)

namespace LawfulWire

variable {α : Type} [Wire α] [Contents α] [LawfulWire α] {x : α}

theorem ofText?_text_iff (h : IsSendable x) :
    Wire.ofText? (Wire.text x) = some x ↔ ∀ d ∈ doubles x, reread d = d := by
  rw [(reads h).ofText?_eq, Option.some_inj, mapDoubles_eq_iff]

theorem isSendable_of_ofBytes? {t : List UInt8} (h : Wire.ofBytes? t = some x) : IsSendable x :=
  have ⟨_, _, h⟩ := Option.bind_eq_some_iff.mp h
  isSendable h

theorem toRoundTrips : RoundTrips α where
  comesBack h       := ⟨(reads h).ofText?_eq, fun d hd => comesBackAs_reread (h.finite d hd)⟩
  comesBack_iff h   := ofText?_text_iff h
  isSendable h      := isSendable_of_ofBytes? h
  settled {t x} h hd := by
    have h : Wire.ofText? (Wire.text x) = some x :=
      (ofText?_text_iff (isSendable_of_ofBytes? h)).mpr hd
    rw [h, Option.map_some]

end LawfulWire

theorem roundTrips :
    RoundTrips Calculator ∧ RoundTrips Fault ∧ RoundTrips Nat ∧ RoundTrips Span ∧ RoundTrips Token ∧
      RoundTrips (List (Spanned Token)) ∧ RoundTrips (Spanned Fault) ∧ RoundTrips Service.Reply :=
  have {α : Type} [Wire α] [Contents α] [LawfulWire α] : RoundTrips α := LawfulWire.toRoundTrips
  ⟨this, this, this, this, this, this, this, this⟩

-- Brackets and places need no meaning.
theorem roundTrips_tokens :
    let tokens : List (Spanned Token) :=
      [⟨.closing, ⟨5, 3⟩⟩, ⟨.number (-0.0), ⟨0, 2 ^ 64 - 1⟩⟩, ⟨.number 0.1, ⟨0, 0⟩⟩]
    IsSendable tokens ∧ Wire.ofText? (Wire.text tokens) = some tokens := by
  intro tokens
  have h : IsSendable tokens := ⟨by decide +kernel, by decide⟩
  refine ⟨h, (roundTrips.right.right.right.right.right.left.comesBack_iff h).mpr ?_⟩
  decide +kernel

-- Ten to the power of 307 is rounded before it divides.
theorem ofText?_text_ne :
    IsSendable (Token.number 1e-307) ∧
      Wire.ofText? (Wire.text (Token.number 1e-307)) ≠ some (Token.number 1e-307) :=
  ⟨⟨by decide +kernel, by decide⟩, by decide +kernel⟩

end Abacus

import Abacus.Proofs.Environment
import Abacus.Proofs.Routing

namespace Abacus.Service

namespace Host

-- The environment gives the settings, and nothing keeps the service from their address.
structure Listens (h : Host) (s : Settings) : Prop where
  loads : Loads (texts h.environment) s
  free  : h.refusal? s.address = none

-- Why nothing is served. Variables are looked at before the address is asked for.
inductive FailsBy (h : Host) : Failure → Prop
  | setting {key : Setting} {value : String} :
    IsFirstBad (texts h.environment) key value → FailsBy h (.setting key value)
  | bind {s : Settings} {refusal : Refusal} :
    Loads (texts h.environment) s → h.refusal? s.address = some refusal →
    FailsBy h (.bind s.address refusal.message)

-- How a run ends, and what has been answered until then.
inductive Ends (h : Host) : Exit → List Response → Prop
  | interrupted {s : Settings} {responses : List Response} :
    h.Listens s → h.stop = .interrupted → List.Forall₂ (Decides s) h.arrivals responses →
    Ends h { code := some 0 } responses
  | killed {s : Settings} {responses : List Response} :
    h.Listens s → h.stop = .killed → List.Forall₂ (Decides s) h.arrivals responses →
    Ends h { code := none } responses
  | reported {f : Failure} :
    h.FailsBy f → h.canReport → Ends h { code := some 1, stderr := f.message ++ "\n" } []
  | unreported {f : Failure} :
    h.FailsBy f → h.canReport = false → Ends h { code := some 101 } []

variable {h : Host} {s : Settings} {f : Failure} {exit : Exit} {responses : List Response}

theorem serve_eq_ok_iff_listens :
    h.serve = .ok responses ↔
      ∃ s, h.Listens s ∧ List.Forall₂ (Decides s) h.arrivals responses := by
  simp only [serve_eq_ok_iff, Settings.ofEnvironment_eq_load, Settings.load_eq_ok_iff]
  refine exists_congr fun s => ?_
  constructor
  case mp => exact fun e => ⟨⟨e.left, e.right.left⟩, e.right.right⟩
  case mpr => exact fun e => ⟨e.left.loads, e.left.free, e.right⟩

theorem serve_eq_error_iff : h.serve = .error f ↔ h.FailsBy f := by
  simp only [serve, Except.bind_eq_error_iff, Settings.ofEnvironment_eq_load,
    Settings.load_eq_error_iff, Settings.load_eq_ok_iff]
  constructor
  case mp =>
    rintro (⟨key, value, rfl, hb⟩ | ⟨s, loads, hr⟩)
    case inl => exact .setting hb
    case inr =>
      split at hr
      case h_1 refused =>
        cases hr
        exact .bind loads refused
      case h_2 => cases hr
  case mpr =>
    intro hf
    cases hf
    case setting key value hb => exact .inl ⟨key, value, rfl, hb⟩
    case bind s refusal loads refused =>
      refine .inr ⟨s, loads, ?_⟩
      rw [refused]

theorem ends_run (h : Host) : h.Ends h.run.fst h.run.snd := by
  unfold run
  split
  case h_1 responses hs =>
    obtain ⟨s, listens, hr⟩ := serve_eq_ok_iff_listens.mp hs
    cases hstop : h.stop
    case interrupted => exact .interrupted listens hstop hr
    case killed => exact .killed listens hstop hr
  case h_2 f hs =>
    have hf := serve_eq_error_iff.mp hs
    cases hc : h.canReport
    case true => exact .reported hf hc
    case false => exact .unreported hf hc

theorem run_of_ends (he : h.Ends exit responses) : h.run = (exit, responses) := by
  unfold run
  cases he
  case interrupted listens hstop hr =>
    rw [serve_eq_ok_iff_listens.mpr ⟨_, listens, hr⟩, hstop]
    rfl
  case killed listens hstop hr =>
    rw [serve_eq_ok_iff_listens.mpr ⟨_, listens, hr⟩, hstop]
    rfl
  case reported hf hc =>
    rw [serve_eq_error_iff.mpr hf, hc]
    rfl
  case unreported hf hc =>
    rw [serve_eq_error_iff.mpr hf, hc]
    rfl

theorem run_eq_iff : h.run = (exit, responses) ↔ h.Ends exit responses :=
  ⟨fun e => by simpa only [e] using h.ends_run, run_of_ends⟩

theorem not_failsBy_of_listens (hl : ∃ s, h.Listens s) : ¬∃ f, h.FailsBy f := by
  obtain ⟨s, hl⟩ := hl
  rintro ⟨f, hf⟩
  have hs := serve_eq_ok_iff_listens.mpr ⟨s, hl, map_respond_eq_iff.mp rfl⟩
  rw [serve_eq_error_iff.mpr hf] at hs
  cases hs

-- A run succeeds only as a service that is asked to end.
theorem Ends.code_eq_zero_iff (he : h.Ends exit responses) :
    exit.code = some 0 ↔ (∃ s, h.Listens s) ∧ h.stop = .interrupted := by
  cases he
  case interrupted hl hstop _ => exact iff_of_true rfl ⟨⟨_, hl⟩, hstop⟩
  case killed hstop _ => simp [hstop]
  case reported hf _ =>
    exact iff_of_false (by simp) fun e => not_failsBy_of_listens e.left ⟨_, hf⟩
  case unreported hf _ =>
    exact iff_of_false (by simp) fun e => not_failsBy_of_listens e.left ⟨_, hf⟩

-- Only a failure is ever reported.
theorem Ends.stderr_ne_empty_iff (he : h.Ends exit responses) :
    exit.stderr ≠ "" ↔ (∃ f, h.FailsBy f) ∧ h.canReport := by
  cases he
  case interrupted hl _ _ =>
    exact iff_of_false (by simp) fun e => not_failsBy_of_listens ⟨_, hl⟩ e.left
  case killed hl _ _ =>
    exact iff_of_false (by simp) fun e => not_failsBy_of_listens ⟨_, hl⟩ e.left
  case reported hf hc => exact iff_of_true (by simp) ⟨⟨_, hf⟩, hc⟩
  case unreported hc => exact iff_of_false (by simp) fun e => by simp [hc] at e

end Host

end Abacus.Service

import Abacus.Proofs.Answers
import Abacus.Proofs.Outcome
import Abacus.Proofs.Segments
import Abacus.Service.Program
import Mathlib.Data.List.Forall2

namespace Abacus.Service

namespace Request

def IsScheme (s : List Char) : Prop :=
  ∀ c ∈ s, continuesScheme c

def IsHost (s : List Char) : Prop :=
  ∀ c ∈ s, c ≠ '/' ∧ ¬endsPath c

def IsPath (s : List Char) : Prop :=
  ∀ c ∈ s, ¬endsPath c

-- What may stand behind a path: nothing, a query or a fragment.
def IsQuery (s : List Char) : Prop :=
  ∀ c ∈ s.head?, endsPath c

-- The target has the path, which is part of it as it stands there.
inductive HasPath : List Char → List Char → Prop
  | own {p s : List Char} : IsPath p → IsQuery s → HasPath ('/' :: p ++ s) ('/' :: p)
  | hosted {scheme host p s : List Char} :
    IsScheme scheme → IsHost host → IsPath p → IsQuery s →
    HasPath (scheme ++ "://".toList ++ (host ++ ('/' :: p ++ s))) ('/' :: p)
  -- A host with nothing behind it stands for its root.
  | root {scheme host s : List Char} :
    IsScheme scheme → IsHost host → IsQuery s →
    HasPath (scheme ++ "://".toList ++ (host ++ s)) ['/']
  -- The service as a whole.
  | asterisk : HasPath ['*'] ['*']
  -- All other targets are without a path.
  | none {t : List Char} :
    t.head? ≠ some '/' → t ≠ ['*'] →
    (∀ scheme s, IsScheme scheme → t ≠ scheme ++ "://".toList ++ s) → HasPath t []

variable {t p s scheme host : List Char}

theorem takeWhile_path_iff {q : List Char} :
    t.takeWhile (!endsPath ·) = p ∧ t.dropWhile (!endsPath ·) = q ↔
      t = p ++ q ∧ IsPath p ∧ IsQuery q := by
  simp [takeWhile_dropWhile_eq_iff, IsPath, IsQuery]

theorem takeWhile_path (hp : IsPath p) (hs : IsQuery s) : (p ++ s).takeWhile (!endsPath ·) = p :=
  (takeWhile_path_iff.mpr ⟨rfl, hp, hs⟩).left

theorem exists_path (s : List Char) : ∃ p q, s = p ++ q ∧ IsPath p ∧ IsQuery q :=
  ⟨_, _, takeWhile_path_iff.mp ⟨rfl, rfl⟩⟩

-- What stands behind a host starts with a path, a query or a fragment.
def IsBehindHost (s : List Char) : Prop :=
  ∀ c ∈ s.head?, c = '/' ∨ endsPath c

theorem takeWhile_host_iff :
    t.takeWhile (fun c => !(c = '/' || endsPath c)) = host ∧
        t.dropWhile (fun c => !(c = '/' || endsPath c)) = s ↔
      t = host ++ s ∧ IsHost host ∧ IsBehindHost s := by
  simp [takeWhile_dropWhile_eq_iff, IsHost, IsBehindHost, or_iff_not_imp_left]

theorem exists_host (s : List Char) : ∃ host r, s = host ++ r ∧ IsHost host ∧ IsBehindHost r :=
  ⟨_, _, takeWhile_host_iff.mp ⟨rfl, rfl⟩⟩

theorem dropWhile_host (hh : IsHost host) (hs : IsBehindHost s) :
    (host ++ s).dropWhile (fun c => !(c = '/' || endsPath c)) = s :=
  (takeWhile_host_iff.mpr ⟨rfl, hh, hs⟩).right

theorem hosted_eq (scheme s : List Char) :
    scheme ++ "://".toList ++ s = scheme ++ ':' :: '/' :: '/' :: s := by
  simp

theorem afterHost?_append (hscheme : IsScheme scheme) (hhost : IsHost host) (hs : IsBehindHost s) :
    afterHost? (scheme ++ "://".toList ++ (host ++ s)) = some s := by
  have hd : (scheme ++ ':' :: '/' :: '/' :: (host ++ s)).dropWhile continuesScheme =
      ':' :: '/' :: '/' :: (host ++ s) := by
    refine (takeWhile_dropWhile_eq_iff.mpr ⟨rfl, hscheme, ?_⟩).right
    rintro c ⟨⟩
    decide
  rw [hosted_eq, afterHost?, hd]
  exact congrArg some (dropWhile_host hhost hs)

theorem exists_of_afterHost? (h : afterHost? t = some s) :
    ∃ scheme host, t = scheme ++ "://".toList ++ (host ++ s) ∧ IsScheme scheme ∧ IsHost host ∧
      IsBehindHost s := by
  unfold afterHost? at h
  split at h
  case h_1 u hu =>
    obtain ⟨e, hscheme, _⟩ := takeWhile_dropWhile_eq_iff.mp ⟨rfl, hu⟩
    obtain ⟨host, s', rfl, hhost, hs⟩ := exists_host u
    rw [dropWhile_host hhost hs] at h
    cases h
    exact ⟨_, host, e.trans (hosted_eq _ _).symm, hscheme, hhost, hs⟩
  case h_2 => cases h

-- Where the path is not at the front, it is looked for behind the host.
theorem path_of_hosted (hn : t.head? ≠ some '/') (ha : t ≠ ['*']) :
    path t = (afterHost? t).elim [] fun s =>
      if s.takeWhile (!endsPath ·) = [] then ['/'] else s.takeWhile (!endsPath ·) := by
  unfold path
  split
  case h_1 => exact absurd rfl hn
  case h_2 => exact absurd rfl ha
  case h_3 => cases afterHost? t <;> rfl

-- A target with a scheme is none of those that start with their path.
theorem path_append (hscheme : IsScheme scheme) (hhost : IsHost host) (hp : IsPath p)
    (hs : IsQuery s) (hb : IsBehindHost (p ++ s)) :
    path (scheme ++ "://".toList ++ (host ++ (p ++ s))) = if p = [] then ['/'] else p := by
  have ha : scheme ++ "://".toList ++ (host ++ (p ++ s)) ≠ ['*'] := by
    intro h
    have hl := congrArg List.length h
    simp at hl
    omega
  have hn : (scheme ++ "://".toList ++ (host ++ (p ++ s))).head? ≠ some '/' := by
    intro h
    cases scheme
    case nil => cases h
    case cons c scheme =>
      cases h
      exact absurd (hscheme '/' List.mem_cons_self) (by decide)
  rw [path_of_hosted hn ha, afterHost?_append hscheme hhost hb, Option.elim_some,
    takeWhile_path hp hs]

theorem hasPath_path (t : List Char) : HasPath t (path t) := by
  by_cases hn : t.head? = some '/'
  case pos =>
    obtain ⟨r, rfl⟩ := List.head?_eq_some_iff.mp hn
    obtain ⟨p, s, rfl, hp, hs⟩ := exists_path r
    have h : path ('/' :: (p ++ s)) = '/' :: p := congrArg ('/' :: ·) (takeWhile_path hp hs)
    exact h ▸ .own hp hs
  case neg =>
    by_cases ha : t = ['*']
    case pos => exact ha ▸ .asterisk
    case neg =>
      cases hs : afterHost? t
      case none =>
        rw [path_of_hosted hn ha, hs, Option.elim_none]
        refine .none hn ha ?_
        rintro scheme s hscheme rfl
        obtain ⟨host, r, rfl, hhost, hr⟩ := exists_host s
        rw [afterHost?_append hscheme hhost hr] at hs
        cases hs
      case some s =>
        obtain ⟨scheme, host, rfl, hscheme, hhost, hb⟩ := exists_of_afterHost? hs
        obtain ⟨p, q, rfl, hp, hq⟩ := exists_path s
        rw [path_append hscheme hhost hp hq hb]
        split_ifs with he
        case pos =>
          subst he
          exact .root hscheme hhost hq
        case neg =>
          obtain ⟨c, p, rfl⟩ := List.exists_cons_of_ne_nil he
          obtain ⟨hc, hr⟩ := List.forall_mem_cons.mp hp
          obtain rfl : c = '/' := (hb c rfl).resolve_right hc
          exact .hosted hscheme hhost hr hq

theorem path_of_hasPath (h : HasPath t p) : path t = p := by
  cases h
  case own hp hs => exact congrArg ('/' :: ·) (takeWhile_path hp hs)
  case hosted hscheme hhost hp hs =>
    have hp : IsPath ('/' :: _) := List.forall_mem_cons.mpr ⟨by decide, hp⟩
    refine (path_append hscheme hhost hp hs ?_).trans (if_neg (List.cons_ne_nil _ _))
    exact fun c hc => .inl (Option.some.inj hc).symm
  case root hscheme hhost hs =>
    exact path_append (p := []) hscheme hhost nofun hs fun c hc => .inr (hs c hc)
  case asterisk => rfl
  case none hn ha h =>
    rw [path_of_hosted hn ha]
    cases hs : afterHost? t
    case none => rfl
    case some s =>
      obtain ⟨scheme, host, e, hscheme, _⟩ := exists_of_afterHost? hs
      exact absurd e (h scheme _ hscheme)

theorem hasPath_iff : HasPath t p ↔ path t = p :=
  ⟨path_of_hasPath, fun h => h ▸ hasPath_path t⟩

example : path "http://host?x=1".toList = ['/'] := by decide

end Request

open Request

-- The response that a request gets, for reasons of its own and those of the settings.
inductive Decides (s : Settings) (r : Request) : Response → Prop
  | elsewhere {p : List Char} :
    HasPath r.target.toList p → p ≠ "/api/v1/calculate".toList → Decides s r { status := 404 }
  | otherMethod :
    HasPath r.target.toList "/api/v1/calculate".toList → r.method ≠ "POST" →
    Decides s r { status := 405, allow := some "POST" }
  | tooLarge :
    HasPath r.target.toList "/api/v1/calculate".toList → r.method = "POST" →
    s.maxBodyBytes < r.body.length →
    Decides s r
      { status := 413, contentType := some "application/json",
        body := "\x7b\"error\":\"request body too large\"\x7d" }
  | answered {a : Answer} :
    HasPath r.target.toList "/api/v1/calculate".toList → r.method = "POST" →
    r.body.length ≤ s.maxBodyBytes → respond s.calculator r.body = a →
    Decides s r
      { status := a.status, contentType := some "application/json", body := Wire.text a.reply }

-- What there is to say about the responses of a service.
structure Routes (s : Settings) : Prop where
  -- Whatever requests there are, each gets the response that is decided by itself and the settings.
  decides {requests : List Request} {responses : List Response} :
    requests.map s.respond = responses ↔ List.Forall₂ (Decides s) requests responses
  serves {h : Host} {responses : List Response} :
    Settings.ofEnvironment h.environment = .ok s → h.serve = .ok responses →
    List.Forall₂ (Decides s) h.arrivals responses
  -- It does not matter in which pieces a body arrives.
  pieces {r : Request} {u : Upload} :
    u.isFinished → u.bytes = r.body → s.router.respond r.method r.target u = s.respond r
  -- Only bodies that are larger than allowed are too large,
  fits {r : Request} : r.body.length ≤ s.maxBodyBytes → (s.respond r).status ≠ 413
  -- and those are not even looked at: any handler that answers refusals in the same way would do.
  unread {r : Request} {handler : Handler} :
    s.maxBodyBytes < r.body.length → (∀ status, handler (.error status) = .ofUnreadable status) →
    (s.routerWith handler).respond r.method r.target (.whole r.body) = s.respond r
  contentType_iff {r : Request} :
    (s.respond r).contentType = some "application/json" ↔
      ∃ reply : Reply, Wire.ofText? (s.respond r).body = some reply

namespace Outcome

variable {c : Calculator} {body : List UInt8} {a : Answer}

theorem status_ne (h : Outcome c body a) : a.status ≠ 413 := by
  cases h <;> simp

theorem exists_ofText?_text (h : Outcome c body a) :
    ∃ reply : Reply, Wire.ofText? a.text = some reply := by
  cases h
  case value hx => exact ⟨_, ofText?_result hx⟩
  all_goals exact ⟨_, ofText?_error _⟩

end Outcome

namespace Upload

-- The pieces do not show in what is collected.
theorem collect_eq (u : Upload) (room : Nat) :
    u.collect room =
      if room < u.bytes.length then .error 413
      else if u.isFinished then .ok u.bytes
      else .error 400 := by
  induction u generalizing room
  case finished => simp [collect, bytes, isFinished]
  case brokenOff => simp [collect, bytes, isFinished]
  case piece b rest ih =>
    have hl : (piece b rest).bytes.length = b.length + rest.bytes.length := List.length_append
    have hf : (piece b rest).isFinished = rest.isFinished := rfl
    by_cases hb : room < b.length
    case pos => rw [collect, if_pos hb, if_pos (by omega)]
    case neg =>
      have hr : room - b.length < rest.bytes.length ↔ room < (piece b rest).bytes.length := by omega
      simp only [collect, if_neg hb, ih, hr, hf]
      split_ifs <;> rfl

theorem collect_whole (body : List UInt8) (room : Nat) :
    (whole body).collect room = if room < body.length then .error 413 else .ok body := by
  rw [collect_eq, whole, bytes, bytes, List.append_nil]
  rfl

end Upload

open Upload

variable {s : Settings} {handler : Handler} {method target : String} {u : Upload} {r : Request}
  {a : Response}

namespace Router

variable {router : Router} {route : Route}

theorem respond_of_forall_ne (h : ∀ route ∈ router.routes, route.path ≠ path target.toList) :
    router.respond method target u = { status := 404 } := by
  have hn : router.routes.find? (·.path = path target.toList) = none :=
    List.find?_eq_none.mpr fun route hr => by simpa using h route hr
  rw [respond, hn]

theorem respond_of_lookup_eq_none
    (hp : router.routes.find? (·.path = path target.toList) = some route)
    (hm : route.handlers.lookup method = none) :
    router.respond method target u =
      { status := 405, allow := some (",".intercalate (route.handlers.map (·.fst))) } := by
  simp only [respond, hp, hm]

theorem respond_of_lookup_eq_some
    (hp : router.routes.find? (·.path = path target.toList) = some route)
    (hm : route.handlers.lookup method = some handler) :
    router.respond method target u = .ofAnswer (handler (u.collect router.maxBodyBytes)) := by
  simp only [respond, hp, hm]

end Router

namespace Settings

theorem find?_routes (s : Settings) (handler : Handler)
    (hp : path target.toList = "/api/v1/calculate".toList) :
    (s.routerWith handler).routes.find? (·.path = path target.toList) =
      some ⟨"/api/v1/calculate".toList, [("POST", handler)]⟩ :=
  List.find?_cons_of_pos (decide_eq_true hp.symm)

theorem respond_elsewhere (hp : path target.toList ≠ "/api/v1/calculate".toList) :
    (s.routerWith handler).respond method target u = { status := 404 } :=
  Router.respond_of_forall_ne fun _ hr => List.mem_singleton.mp hr ▸ hp.symm

theorem respond_otherMethod (hp : path target.toList = "/api/v1/calculate".toList)
    (hm : method ≠ "POST") :
    (s.routerWith handler).respond method target u = { status := 405, allow := some "POST" } := by
  have hn : [("POST", handler)].lookup method = none := by
    rw [List.lookup, beq_eq_false_iff_ne.mpr hm, List.lookup]
  exact Router.respond_of_lookup_eq_none (s.find?_routes handler hp) hn

theorem respond_post (hp : path target.toList = "/api/v1/calculate".toList) :
    (s.routerWith handler).respond "POST" target u =
      .ofAnswer (handler (u.collect s.maxBodyBytes)) :=
  Router.respond_of_lookup_eq_some (s.find?_routes handler hp) List.lookup_cons_self

-- Handler and body show in a response only by the answer to what is collected.
theorem respond_congr {handler' : Handler} {u' : Upload}
    (h : handler (u.collect s.maxBodyBytes) = handler' (u'.collect s.maxBodyBytes)) :
    (s.routerWith handler).respond method target u =
      (s.routerWith handler').respond method target u' := by
  by_cases hp : path target.toList = "/api/v1/calculate".toList
  case neg => rw [respond_elsewhere hp, respond_elsewhere hp]
  case pos =>
    by_cases hm : method = "POST"
    case neg => rw [respond_otherMethod hp hm, respond_otherMethod hp hm]
    case pos => rw [hm, respond_post hp, respond_post hp, h]

end Settings

theorem ofAnswer_ofUnreadable_tooLarge :
    Response.ofAnswer (.ofUnreadable 413) =
      { status := 413, contentType := some "application/json",
        body := "\x7b\"error\":\"request body too large\"\x7d" } := by
  decide

theorem respond_of_decides (h : Decides s r a) : s.respond r = a := by
  unfold Settings.respond Settings.router
  cases h
  case elsewhere hp hn => exact Settings.respond_elsewhere (path_of_hasPath hp ▸ hn)
  case otherMethod hp hm => exact Settings.respond_otherMethod (path_of_hasPath hp) hm
  case tooLarge hp hm hb =>
    rw [hm, Settings.respond_post (path_of_hasPath hp), collect_whole, if_pos hb]
    exact ofAnswer_ofUnreadable_tooLarge
  case answered hp hm hb ha =>
    rw [hm, Settings.respond_post (path_of_hasPath hp), collect_whole,
      if_neg (Nat.not_lt.mpr hb), ← ha]
    rfl

theorem exists_decides (s : Settings) (r : Request) : ∃ a, Decides s r a := by
  have hp := hasPath_path r.target.toList
  by_cases hn : path r.target.toList = "/api/v1/calculate".toList
  case neg => exact ⟨_, .elsewhere hp hn⟩
  case pos =>
    rw [hn] at hp
    by_cases hm : r.method = "POST"
    case neg => exact ⟨_, .otherMethod hp hm⟩
    case pos =>
      by_cases hb : s.maxBodyBytes < r.body.length
      case pos => exact ⟨_, .tooLarge hp hm hb⟩
      case neg => exact ⟨_, .answered hp hm (Nat.not_lt.mp hb) rfl⟩

theorem decides_respond (s : Settings) (r : Request) : Decides s r (s.respond r) := by
  obtain ⟨a, h⟩ := exists_decides s r
  exact (respond_of_decides h).symm ▸ h

theorem map_respond_eq_iff {requests : List Request} {responses : List Response} :
    requests.map s.respond = responses ↔ List.Forall₂ (Decides s) requests responses := by
  have h : (fun r a => s.respond r = a) = Decides s := by
    funext r a
    exact propext ⟨fun h => h ▸ decides_respond s r, respond_of_decides⟩
  rw [← h, ← List.forall₂_map_left_iff, List.forall₂_eq_eq_eq]

theorem Decides.status_ne (h : Decides s r a) (hb : r.body.length ≤ s.maxBodyBytes) :
    a.status ≠ 413 := by
  cases h
  case elsewhere => decide
  case otherMethod => decide
  case tooLarge hl => exact absurd hb (Nat.not_le.mpr hl)
  case answered ha => exact (ha ▸ outcome_respond _ _).status_ne

theorem Decides.contentType_iff (h : Decides s r a) :
    a.contentType = some "application/json" ↔
      ∃ reply : Reply, Wire.ofText? a.body = some reply := by
  have hn : (Wire.ofText? "" : Option Reply) = none := by decide
  cases h
  case elsewhere => simp [hn]
  case otherMethod => simp [hn]
  case tooLarge => exact iff_of_true rfl ⟨_, ofText?_error "request body too large"⟩
  case answered ha => exact iff_of_true rfl (ha ▸ outcome_respond _ _).exists_ofText?_text

theorem serve_eq_ok_iff {h : Host} {responses : List Response} :
    h.serve = .ok responses ↔
      ∃ s, Settings.ofEnvironment h.environment = .ok s ∧ h.refusal? s.address = none ∧
        List.Forall₂ (Decides s) h.arrivals responses := by
  rw [Host.serve, Except.bind_eq_ok_iff]
  refine exists_congr fun s => and_congr_right fun _ => ?_
  rw [← map_respond_eq_iff]
  split
  case h_1 refused => simp [refused]
  case h_2 free => simp [free, pure, Except.pure]

theorem decides_of_serve {h : Host} {responses : List Response}
    (hs : Settings.ofEnvironment h.environment = .ok s) (hr : h.serve = .ok responses) :
    List.Forall₂ (Decides s) h.arrivals responses := by
  obtain ⟨s', hs', _, hr⟩ := serve_eq_ok_iff.mp hr
  obtain rfl : s = s' := Except.ok.inj (hs.symm.trans hs')
  exact hr

theorem respond_pieces (hu : u.isFinished) (h : u.bytes = r.body) :
    s.router.respond r.method r.target u = s.respond r := by
  refine Settings.respond_congr (congrArg _ ?_)
  rw [collect_whole, collect_eq, h, if_pos hu]

theorem respond_unread (hb : s.maxBodyBytes < r.body.length)
    (h : ∀ status, handler (.error status) = .ofUnreadable status) :
    (s.routerWith handler).respond r.method r.target (.whole r.body) = s.respond r := by
  refine Settings.respond_congr ?_
  rw [collect_whole, if_pos hb, h, calculate]

-- A body that breaks off is told from one that is too large, but not from one that can not be read.
theorem respond_brokenOff (hp : HasPath target.toList "/api/v1/calculate".toList)
    (hu : u.isFinished = false) (hb : u.bytes.length ≤ s.maxBodyBytes) :
    s.router.respond "POST" target u = .ofAnswer (.reject .invalidRequest) := by
  have hc : u.collect s.maxBodyBytes = .error 400 := by
    simp [collect_eq, hu, Nat.not_lt.mpr hb]
  rw [Settings.router, Settings.respond_post (path_of_hasPath hp), hc, calculate]
  rfl

theorem routes (s : Settings) : Routes s where
  decides         := map_respond_eq_iff
  serves          := decides_of_serve
  pieces          := respond_pieces
  fits {r}        := (decides_respond s r).status_ne
  unread          := respond_unread
  contentType_iff := (decides_respond s _).contentType_iff

end Abacus.Service

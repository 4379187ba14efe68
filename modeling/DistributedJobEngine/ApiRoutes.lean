import DistributedJobEngine.Text
import Mathlib.Data.List.Forall2

/-! The router of `api.cpp`: the table of routes that the server publishes, and the chain of tests that picks a
handler. The two lists are written separately. A test also changes the captured identifier when it fails half way
through a pattern, and all tests share one. -/

namespace DistributedJobEngine

namespace Api

structure Route where
  method : Bytes
  pattern : Bytes
  deriving DecidableEq

def kRoutes : List Route :=
  [⟨text "POST", text "/jobs"⟩,
    ⟨text "GET", text "/jobs"⟩,
    ⟨text "GET", text "/jobs/\x7bid\x7d"⟩,
    ⟨text "GET", text "/jobs/\x7bid\x7d/attempts"⟩,
    ⟨text "POST", text "/jobs/\x7bid\x7d/cancel"⟩,
    ⟨text "POST", text "/workflows"⟩,
    ⟨text "GET", text "/workflows"⟩,
    ⟨text "GET", text "/workflows/\x7bid\x7d"⟩,
    ⟨text "POST", text "/workflows/\x7bid\x7d/cancel"⟩,
    ⟨text "GET", text "/health"⟩,
    ⟨text "GET", text "/metrics"⟩,
    ⟨text "GET", text "/routes"⟩,
    ⟨text "POST", text "/internal/workers/register"⟩,
    ⟨text "POST", text "/internal/workers/heartbeat"⟩,
    ⟨text "POST", text "/internal/claim"⟩,
    ⟨text "POST", text "/internal/complete"⟩]

/-- A segment of a pattern in braces. -/
def isPlaceholder (p : Bytes) : Bool := 2 ≤ p.length && p.head? == some 123 && p.getLast? == some 125

/-- The loop of `match`, with what is captured so far. -/
def matchSegments : List Bytes → List Bytes → Bytes → Bool × Bytes
  | p :: ps, a :: as, captured =>
      if isPlaceholder p = true then
        if a.isEmpty then (false, captured) else matchSegments ps as a
      else if p = a then matchSegments ps as captured
      else (false, captured)
  | _, _, captured => (true, captured)

/-- `match`: whether the path fits the pattern, and `captured` after the call. -/
def matchPath (pattern path captured : Bytes) : Bool × Bytes :=
  if (split pattern 47).length ≠ (split path 47).length then (false, captured)
  else matchSegments (split pattern 47) (split path 47) captured

/-- The handlers, with the identifier that is passed to them. -/
inductive Endpoint where
  | postJobs
  | listJobs
  | getJob (id : Bytes)
  | getJobAttempts (id : Bytes)
  | cancelJob (id : Bytes)
  | postWorkflows
  | listWorkflows
  | getWorkflow (id : Bytes)
  | cancelWorkflow (id : Bytes)
  | health
  | metricsEndpoint
  | routes
  | workerRegister
  | workerHeartbeat
  | workerClaim
  | workerComplete

/-- One test of `dispatch`, and the handler it guards. -/
structure Branch where
  method : Bytes
  pattern : Bytes
  handler : Bytes → Endpoint

/-- The tests of `dispatch` in their order. -/
def branches : List Branch :=
  [⟨text "POST", text "/jobs", fun _ => .postJobs⟩,
    ⟨text "GET", text "/jobs", fun _ => .listJobs⟩,
    ⟨text "GET", text "/jobs/\x7bid\x7d", .getJob⟩,
    ⟨text "GET", text "/jobs/\x7bid\x7d/attempts", .getJobAttempts⟩,
    ⟨text "POST", text "/jobs/\x7bid\x7d/cancel", .cancelJob⟩,
    ⟨text "POST", text "/workflows", fun _ => .postWorkflows⟩,
    ⟨text "GET", text "/workflows", fun _ => .listWorkflows⟩,
    ⟨text "GET", text "/workflows/\x7bid\x7d", .getWorkflow⟩,
    ⟨text "POST", text "/workflows/\x7bid\x7d/cancel", .cancelWorkflow⟩,
    ⟨text "GET", text "/health", fun _ => .health⟩,
    ⟨text "GET", text "/metrics", fun _ => .metricsEndpoint⟩,
    ⟨text "GET", text "/routes", fun _ => .routes⟩,
    ⟨text "POST", text "/internal/workers/register", fun _ => .workerRegister⟩,
    ⟨text "POST", text "/internal/workers/heartbeat", fun _ => .workerHeartbeat⟩,
    ⟨text "POST", text "/internal/claim", fun _ => .workerClaim⟩,
    ⟨text "POST", text "/internal/complete", fun _ => .workerComplete⟩]

/-- The rest of the chain, with the identifier that the tests before have left. -/
def dispatchFrom (method path : Bytes) : List Branch → Bytes → Option Endpoint
  | [], _ => none
  | b :: rest, id =>
      if method = b.method then
        if (matchPath b.pattern path id).1 then some (b.handler (matchPath b.pattern path id).2)
        else dispatchFrom method path rest (matchPath b.pattern path id).2
      else dispatchFrom method path rest id

def dispatch (method path : Bytes) : Option Endpoint := dispatchFrom method path branches []

/-- `handle`: the handler, or the status and the message of the error. -/
def handle (method path : Bytes) : Except (ℕ × Bytes) Endpoint :=
  match dispatch method path with
  | some endpoint => .ok endpoint
  | none =>
      if kRoutes.any fun r => (matchPath r.pattern path []).1 then
        .error (405, text "method " ++ method ++ text " not allowed for " ++ path)
      else .error (404, text "no such endpoint: " ++ path)

/-! ### What it is to fit a pattern -/

/-- A placeholder stands for any segment that is not empty, everything else for itself. -/
def SegmentFits (p a : Bytes) : Prop := if isPlaceholder p = true then a ≠ [] else a = p

/-- The path has the segments that the pattern asks for. -/
def Route.Fits (r : Route) (path : Bytes) : Prop := List.Forall₂ SegmentFits (split r.pattern 47) (split path 47)

theorem matchSegments_iff {ps as : List Bytes} (hlength : ps.length = as.length) (captured : Bytes) :
    (matchSegments ps as captured).1 = true ↔ List.Forall₂ SegmentFits ps as := by
  induction ps generalizing as captured with
  | nil =>
      rw [List.length_nil, eq_comm, List.length_eq_zero_iff] at hlength
      subst hlength
      exact iff_of_true rfl .nil
  | cons p ps ih =>
      cases as with
      | nil => cases hlength
      | cons a as =>
          have hrest : ∀ captured, (matchSegments ps as captured).1 = true ↔ List.Forall₂ SegmentFits ps as :=
            fun captured => ih (Nat.succ.inj hlength) captured
          rw [List.forall₂_cons, matchSegments, SegmentFits]
          by_cases hp : isPlaceholder p = true
          · rw [if_pos hp, if_pos hp]
            by_cases ha : a = []
            · rw [if_pos (List.isEmpty_iff.mpr ha)]
              exact iff_of_false (by simp) fun h => h.1 ha
            · rw [if_neg (by rwa [List.isEmpty_iff]), hrest]
              exact ⟨fun h => ⟨ha, h⟩, And.right⟩
          · rw [if_neg hp, if_neg hp]
            by_cases ha : p = a
            · rw [if_pos ha, hrest]
              exact ⟨fun h => ⟨ha.symm, h⟩, And.right⟩
            · rw [if_neg ha]
              exact iff_of_false (by simp) fun h => ha h.1.symm

/-- **`match` decides whether the path fits**, whatever was captured before. -/
theorem matchPath_iff {r : Route} {path : Bytes} (captured : Bytes) :
    (matchPath r.pattern path captured).1 = true ↔ r.Fits path := by
  unfold matchPath
  split_ifs with hlength
  · exact iff_of_false (by simp) fun h => hlength h.length_eq
  · exact matchSegments_iff (not_not.mp hlength) captured

theorem captured_of_literals {ps as : List Bytes} (h : ∀ p ∈ ps, isPlaceholder p = false) (captured : Bytes) :
    (matchSegments ps as captured).2 = captured := by
  induction ps generalizing as with
  | nil => rfl
  | cons p ps ih =>
      rw [List.forall_mem_cons] at h
      cases as with
      | nil => rfl
      | cons a as =>
          rw [matchSegments, h.1, if_neg Bool.false_ne_true]
          split_ifs
          · exact ih h.2
          · rfl

/-- The pattern has a placeholder at `k` and nowhere else. -/
def Holds (ps : List Bytes) (k : ℕ) : Prop :=
  ∃ p, ps[k]? = some p ∧ isPlaceholder p = true ∧ ∀ k' p', ps[k']? = some p' → isPlaceholder p' = true → k' = k

/-- What is captured is the segment at the placeholder, and it is not empty. -/
theorem captured_eq {ps as : List Bytes} {k : ℕ} (captured : Bytes) (hk : Holds ps k)
    (hfits : List.Forall₂ SegmentFits ps as) : as[k]? = some (matchSegments ps as captured).2 ∧
      (matchSegments ps as captured).2 ≠ [] := by
  obtain ⟨p₀, hp₀, hplace, honly⟩ := hk
  induction hfits generalizing k captured with
  | nil => cases hp₀
  | @cons p a ps as ha hfits ih =>
      rw [SegmentFits] at ha
      by_cases hp : isPlaceholder p = true
      · have hzero := honly 0 p rfl hp
        subst hzero
        rw [if_pos hp] at ha
        have hrest : ∀ p' ∈ ps, isPlaceholder p' = false := by
          intro p' hp'
          obtain ⟨k', hk'⟩ := List.getElem?_of_mem hp'
          rw [← Bool.not_eq_true]
          exact fun hplace' => absurd (honly (k' + 1) p' hk' hplace') (Nat.succ_ne_zero k')
        rw [matchSegments, if_pos hp, if_neg (by rwa [List.isEmpty_iff]), captured_of_literals hrest]
        exact ⟨rfl, ha⟩
      · rw [if_neg hp] at ha
        cases k with
        | zero =>
            cases hp₀
            exact absurd hplace hp
        | succ k =>
            rw [matchSegments, if_neg hp, if_pos ha.symm]
            exact ih captured hp₀ fun k' p' hk' hplace' => Nat.succ.inj (honly (k' + 1) p' hk' hplace')

/-! ### The chain -/

def Branch.route (b : Branch) : Route := ⟨b.method, b.pattern⟩

/-- The row of the table that the handler belongs to. -/
def Endpoint.route : Endpoint → Route
  | postJobs => ⟨text "POST", text "/jobs"⟩
  | listJobs => ⟨text "GET", text "/jobs"⟩
  | getJob _ => ⟨text "GET", text "/jobs/\x7bid\x7d"⟩
  | getJobAttempts _ => ⟨text "GET", text "/jobs/\x7bid\x7d/attempts"⟩
  | cancelJob _ => ⟨text "POST", text "/jobs/\x7bid\x7d/cancel"⟩
  | postWorkflows => ⟨text "POST", text "/workflows"⟩
  | listWorkflows => ⟨text "GET", text "/workflows"⟩
  | getWorkflow _ => ⟨text "GET", text "/workflows/\x7bid\x7d"⟩
  | cancelWorkflow _ => ⟨text "POST", text "/workflows/\x7bid\x7d/cancel"⟩
  | health => ⟨text "GET", text "/health"⟩
  | metricsEndpoint => ⟨text "GET", text "/metrics"⟩
  | routes => ⟨text "GET", text "/routes"⟩
  | workerRegister => ⟨text "POST", text "/internal/workers/register"⟩
  | workerHeartbeat => ⟨text "POST", text "/internal/workers/heartbeat"⟩
  | workerClaim => ⟨text "POST", text "/internal/claim"⟩
  | workerComplete => ⟨text "POST", text "/internal/complete"⟩

/-- The identifier that the handler is called with. -/
def Endpoint.id : Endpoint → Option Bytes
  | getJob id | getJobAttempts id | cancelJob id | getWorkflow id | cancelWorkflow id => some id
  | _ => none

theorem routes_branches : branches.map Branch.route = kRoutes := rfl

theorem exists_branch_iff {P : Route → Prop} : (∃ b ∈ branches, P b.route) ↔ ∃ r ∈ kRoutes, P r := by
  rw [← routes_branches]
  simp only [List.mem_map, exists_exists_and_eq_and]

variable {method path : Bytes}

/-- The branch that is taken fits, and its handler gets what its own test has captured. -/
theorem dispatchFrom_eq_some {bs : List Branch} {id : Bytes} {endpoint : Endpoint}
    (h : dispatchFrom method path bs id = some endpoint) : ∃ b ∈ bs, b.method = method ∧ b.route.Fits path ∧
      ∃ captured, endpoint = b.handler (matchPath b.pattern path captured).2 := by
  induction bs generalizing id with
  | nil => cases h
  | cons b bs ih =>
      rw [dispatchFrom] at h
      have hlater : ∀ {id}, dispatchFrom method path bs id = some endpoint → ∃ b' ∈ b :: bs, b'.method = method ∧
          b'.route.Fits path ∧ ∃ captured, endpoint = b'.handler (matchPath b'.pattern path captured).2 := by
        intro id h
        obtain ⟨b', hb', hrest⟩ := ih h
        exact ⟨b', List.mem_cons_of_mem _ hb', hrest⟩
      split_ifs at h with hmethod hfits
      · cases h
        exact ⟨b, List.mem_cons_self, hmethod.symm, (matchPath_iff (r := b.route) id).mp hfits, id, rfl⟩
      · exact hlater h
      · exact hlater h

/-- Some branch is taken if one fits. -/
theorem isSome_dispatchFrom {bs : List Branch} {b : Branch} (hb : b ∈ bs) (hmethod : b.method = method)
    (hfits : b.route.Fits path) (id : Bytes) : (dispatchFrom method path bs id).isSome := by
  induction bs generalizing id with
  | nil => cases hb
  | cons b' bs ih =>
      rw [dispatchFrom]
      rcases List.mem_cons.mp hb with rfl | hb
      · have hmatch : (matchPath b.pattern path id).1 = true := (matchPath_iff (r := b.route) id).mpr hfits
        rw [if_pos hmethod.symm, if_pos hmatch]
        rfl
      · split_ifs
        · rfl
        · exact ih hb _
        · exact ih hb _

theorem isSome_dispatch_iff :
    (dispatch method path).isSome ↔ ∃ r ∈ kRoutes, r.method = method ∧ r.Fits path := by
  rw [← exists_branch_iff (P := fun r => r.method = method ∧ r.Fits path)]
  constructor
  · intro h
    obtain ⟨endpoint, hsome⟩ := Option.isSome_iff_exists.mp h
    obtain ⟨b, hb, hmethod, hfits, -⟩ := dispatchFrom_eq_some hsome
    exact ⟨b, hb, hmethod, hfits⟩
  · rintro ⟨b, hb, hmethod, hfits⟩
    exact isSome_dispatchFrom hb hmethod hfits []

/-! ### The table -/

/-- Two patterns that some path might fit both. -/
def overlap (ps ps' : List Bytes) : Bool :=
  ps.length == ps'.length && (ps.zip ps').all fun x => isPlaceholder x.1 || isPlaceholder x.2 || x.1 == x.2

theorem overlap_of_fits {ps ps' as : List Bytes} (h : List.Forall₂ SegmentFits ps as)
    (h' : List.Forall₂ SegmentFits ps' as) : overlap ps ps' = true := by
  induction h generalizing ps' with
  | nil =>
      cases h'
      rfl
  | @cons p a ps as ha _ ih =>
      cases h' with
      | @cons p' _ ps' _ ha' hrest =>
          have hih := ih hrest
          unfold overlap at hih ⊢
          rw [Bool.and_eq_true, beq_iff_eq] at hih ⊢
          refine ⟨by rw [List.length_cons, List.length_cons, hih.1], ?_⟩
          rw [List.zip_cons_cons, List.all_cons, hih.2, Bool.and_true]
          unfold SegmentFits at ha ha'
          by_cases hp : isPlaceholder p = true
          · simp [hp]
          · by_cases hp' : isPlaceholder p' = true
            · simp [hp']
            · rw [if_neg hp] at ha
              rw [if_neg hp'] at ha'
              simp [← ha, ← ha']

/-- No two rows with one method have patterns that overlap. -/
theorem rows_apart : ∀ r ∈ kRoutes, ∀ r' ∈ kRoutes, r.method = r'.method →
    overlap (split r.pattern 47) (split r'.pattern 47) = true → r = r' := by
  decide +kernel

/-- A pattern has one placeholder at most. -/
theorem rows_hold {r : Route} (hr : r ∈ kRoutes) {k : ℕ} {p : Bytes} (hk : (split r.pattern 47)[k]? = some p)
    (hp : isPlaceholder p = true) : Holds (split r.pattern 47) k := by
  have hlength : ∀ r ∈ kRoutes, (split r.pattern 47).length ≤ 4 := by decide +kernel
  have hall : ∀ r ∈ kRoutes, ∀ k < 4, ∀ k' < 4, ((split r.pattern 47)[k]?.any isPlaceholder) = true →
      ((split r.pattern 47)[k']?.any isPlaceholder) = true → k' = k := by
    decide +kernel
  have hbound : ∀ {k p}, (split r.pattern 47)[k]? = some p → k < 4 := fun hk =>
    (List.getElem?_eq_some_iff.mp hk).1.trans_le (hlength r hr)
  refine ⟨p, hk, hp, fun k' p' hk' hp' => hall r hr k (hbound hk) k' (hbound hk') ?_ ?_⟩
  · rw [hk]
    exact hp
  · rw [hk']
    exact hp'

/-- A handler belongs to the row of its branch, and gets the identifier if the row has a placeholder. -/
theorem branches_handler : ∀ b ∈ branches, (∀ id, (b.handler id).route = b.route) ∧
    ((∀ p ∈ split b.pattern 47, isPlaceholder p = false) ∨ ∀ id, (b.handler id).id = some id) := by
  intro b hb
  simp only [branches, List.mem_cons, List.not_mem_nil, or_false] at hb
  rcases hb with rfl | rfl | rfl | rfl | rfl | rfl | rfl | rfl | rfl | rfl | rfl | rfl | rfl | rfl | rfl | rfl
  all_goals
    refine ⟨fun _ => rfl, ?_⟩
    first
      | exact .inr fun _ => rfl
      | exact .inl (by decide +kernel)

/-- The endpoint of a request is the one of the row that fits, with the segment at its placeholder. -/
theorem dispatch_eq_some {endpoint : Endpoint} (h : dispatch method path = some endpoint) :
    endpoint.route ∈ kRoutes ∧ endpoint.route.method = method ∧ endpoint.route.Fits path ∧
      ∀ (k : ℕ) (p : Bytes), (split endpoint.route.pattern 47)[k]? = some p → isPlaceholder p = true →
        ∃ id, endpoint.id = some id ∧ (split path 47)[k]? = some id ∧ id ≠ [] := by
  obtain ⟨b, hb, hmethod, hfits, captured, rfl⟩ := dispatchFrom_eq_some h
  obtain ⟨hroute, hid⟩ := branches_handler b hb
  have hrow : b.route ∈ kRoutes := routes_branches ▸ List.mem_map_of_mem hb
  rw [hroute]
  refine ⟨hrow, hmethod, hfits, fun k p hk hp => ?_⟩
  rcases hid with hliteral | hid
  · rw [hliteral p (List.mem_of_getElem? hk)] at hp
    cases hp
  · obtain ⟨hsegment, hne⟩ := captured_eq captured (rows_hold hrow hk hp) hfits
    have hlength : (split b.pattern 47).length = (split path 47).length := hfits.length_eq
    have hcaptured : (matchPath b.pattern path captured).2 =
        (matchSegments (split b.route.pattern 47) (split path 47) captured).2 := by
      rw [matchPath, if_neg (not_not.mpr hlength), Branch.route]
    rw [← hcaptured] at hsegment hne
    exact ⟨_, hid _, hsegment, hne⟩

/-- **The route table and the dispatcher agree.** A request is dispatched exactly if a row has its method and a
pattern that its path fits; there is one such row at most, and the handler of this row gets the segment at the
placeholder. A request that is not dispatched is answered with 405 exactly if its path fits under another method, and
with 404 exactly if it fits no row. -/
theorem route_table_agrees (method path : Bytes) :
    ((dispatch method path).isSome ↔ ∃ r ∈ kRoutes, r.method = method ∧ r.Fits path) ∧
    (∀ r ∈ kRoutes, ∀ r' ∈ kRoutes, r.method = method → r.Fits path → r'.method = method → r'.Fits path → r = r') ∧
    (∀ endpoint, dispatch method path = some endpoint →
      endpoint.route ∈ kRoutes ∧ endpoint.route.method = method ∧ endpoint.route.Fits path ∧
        ∀ (k : ℕ) (p : Bytes), (split endpoint.route.pattern 47)[k]? = some p → isPlaceholder p = true →
          ∃ id, endpoint.id = some id ∧ (split path 47)[k]? = some id ∧ id ≠ []) ∧
    (dispatch method path = none →
      ((∃ message, handle method path = .error (405, message)) ↔ ∃ r ∈ kRoutes, r.method ≠ method ∧ r.Fits path) ∧
        ((∃ message, handle method path = .error (404, message)) ↔ ∀ r ∈ kRoutes, ¬ r.Fits path)) := by
  refine ⟨isSome_dispatch_iff, fun r hr r' hr' hm hfits hm' hfits' => ?_, fun endpoint h => dispatch_eq_some h,
    fun hnone => ?_⟩
  · exact rows_apart r hr r' hr' (hm.trans hm'.symm) (overlap_of_fits hfits hfits')
  · have hother : ∀ r ∈ kRoutes, r.Fits path → r.method ≠ method := by
      intro r hr hfits hm
      have hsome := isSome_dispatch_iff.mpr ⟨r, hr, hm, hfits⟩
      rw [hnone] at hsome
      cases hsome
    have hany : (kRoutes.any fun r => (matchPath r.pattern path []).1) = true ↔ ∃ r ∈ kRoutes, r.Fits path := by
      rw [List.any_eq_true]
      exact exists_congr fun r => and_congr_right fun _ => matchPath_iff []
    unfold handle
    rw [hnone]
    dsimp only
    by_cases hfits : ∃ r ∈ kRoutes, r.Fits path
    · rw [if_pos (hany.mpr hfits)]
      obtain ⟨r, hr, hr'⟩ := hfits
      exact ⟨iff_of_true ⟨_, rfl⟩ ⟨r, hr, hother r hr hr', hr'⟩,
        iff_of_false (by simp) fun h => h r hr hr'⟩
    · rw [if_neg (mt hany.mp hfits)]
      refine ⟨iff_of_false (by simp) ?_, iff_of_true ⟨_, rfl⟩ fun r hr hr' => hfits ⟨r, hr, hr'⟩⟩
      rintro ⟨r, hr, -, hr'⟩
      exact hfits ⟨r, hr, hr'⟩

end Api

end DistributedJobEngine

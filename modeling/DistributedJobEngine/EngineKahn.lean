import DistributedJobEngine.EngineSubmit
import DistributedJobEngine.LibGraph

/-! Kahn's algorithm in `submit_workflow`. The loop visits a node once all edges that lead to it come from
visited nodes; what it leaves unvisited has a cycle in it, and there is nothing left otherwise. -/

namespace DistributedJobEngine

/-- The edges as a relation on names. -/
def EdgeRel (edges : List (String × String)) (a b : String) : Prop := (a, b) ∈ edges

/-- The states at the head of the loop: the nodes visited so far, `deg` and `ready`. -/
inductive KahnReach (names : List String) (edges : List (String × String)) :
    List String → (String → Int) → List String → Prop where
  | start : KahnReach names edges [] (fun n => indegree edges n) (names.filter fun n => indegree edges n = 0)
  | visit {visited ready : List String} {deg : String → Int} {n : String}
      (h : KahnReach names edges visited deg (n :: ready)) :
      KahnReach names edges (visited ++ [n]) (kahnVisit deg ready (successors edges n)).1
        (kahnVisit deg ready (successors edges n)).2

section Visit

variable {deg : String → Int} {ready ms : List String}

theorem kahnVisit_deg (deg : String → Int) (ready ms : List String) (m : String) :
    (kahnVisit deg ready ms).1 m = deg m - ms.count m := by
  induction ms generalizing deg ready with
  | nil => simp [kahnVisit]
  | cons x ms ih =>
      rw [kahnVisit, ih, List.count_cons]
      by_cases hx : x = m
      · subst hx
        simp only [Function.update_self, beq_self_eq_true, if_true]
        omega
      · rw [Function.update_of_ne (Ne.symm hx), if_neg (by simpa using hx), Nat.add_zero]

/-- A counter that is never asked for more than it holds reaches zero at most once. -/
theorem kahnVisit_ready (h : ∀ m ∈ ms, (ms.count m : Int) ≤ deg m) :
    ∃ new, (kahnVisit deg ready ms).2 = ready ++ new ∧ new.Nodup ∧
      ∀ m, m ∈ new ↔ m ∈ ms ∧ deg m = ms.count m := by
  induction ms generalizing deg ready with
  | nil => exact ⟨[], by simp [kahnVisit], List.nodup_nil, by simp⟩
  | cons x ms ih =>
      have hx : (ms.count x : Int) + 1 ≤ deg x := by
        have hle := h x List.mem_cons_self
        rw [List.count_cons_self] at hle
        exact_mod_cast hle
      have hdeg : ∀ m, m ≠ x → Function.update deg x (deg x - 1) m = deg m ∧ (x :: ms).count m = ms.count m :=
        fun m hm => ⟨Function.update_of_ne hm _ _, List.count_cons_of_ne (Ne.symm hm)⟩
      have hms : ∀ m ∈ ms, (ms.count m : Int) ≤ Function.update deg x (deg x - 1) m := by
        intro m hm
        by_cases hmx : m = x
        · rw [hmx, Function.update_self]
          omega
        · rw [(hdeg m hmx).1, ← (hdeg m hmx).2]
          exact h m (List.mem_cons_of_mem _ hm)
      obtain ⟨new, hready, hnodup, hnew⟩ := @ih _ (if deg x - 1 = 0 then ready ++ [x] else ready) hms
      rw [kahnVisit]
      by_cases hzero : deg x - 1 = 0
      · -- the last edge from a node that was not visited
        rw [if_pos hzero] at hready ⊢
        have hcount : ms.count x = 0 := by omega
        refine ⟨x :: new, by rw [hready, List.append_assoc, List.singleton_append], ?_, fun m => ?_⟩
        · exact List.nodup_cons.mpr ⟨fun hmem => List.count_eq_zero.mp hcount ((hnew x).mp hmem).1, hnodup⟩
        · by_cases hmx : m = x
          · subst hmx
            simp only [List.mem_cons_self, true_and, true_iff, List.count_cons_self, hcount]
            omega
          · rw [List.mem_cons, List.mem_cons, hnew, (hdeg m hmx).1, (hdeg m hmx).2]
            simp [hmx]
      · rw [if_neg hzero] at hready ⊢
        refine ⟨new, hready, hnodup, fun m => ?_⟩
        rw [hnew]
        by_cases hmx : m = x
        · subst hmx
          rw [Function.update_self, List.count_cons_self]
          constructor
          · rintro ⟨-, heq⟩
            exact ⟨List.mem_cons_self, by push_cast; omega⟩
          · rintro ⟨-, heq⟩
            push_cast at heq
            refine ⟨List.count_pos_iff.mp ?_, by omega⟩
            omega
        · rw [List.mem_cons, (hdeg m hmx).1, (hdeg m hmx).2]
          simp [hmx]

end Visit

/-- The edges to `m` that do not come from a node of `visited`. -/
def openEdges (edges : List (String × String)) (visited : List String) (m : String) : ℕ :=
  edges.countP fun e => e.2 = m ∧ e.1 ∉ visited

theorem count_successors (edges : List (String × String)) (n m : String) :
    (successors edges n).count m = edges.countP fun e => e.1 = n ∧ e.2 = m := by
  rw [successors, List.count, List.countP_map, List.countP_filter]
  refine List.countP_congr fun e _ => ?_
  simp [and_comm]

/-- Visiting a node settles the edges that leave it. -/
theorem openEdges_concat {edges : List (String × String)} {visited : List String} {n : String} (hn : n ∉ visited)
    (m : String) :
    openEdges edges (visited ++ [n]) m + (successors edges n).count m = openEdges edges visited m := by
  rw [count_successors, openEdges, openEdges]
  induction edges with
  | nil => rfl
  | cons e edges ih =>
      simp only [List.countP_cons] at ih ⊢
      have hstep : (if (decide (e.2 = m ∧ e.1 ∉ visited ++ [n])) = true then 1 else 0) +
          (if (decide (e.1 = n ∧ e.2 = m)) = true then 1 else 0) =
          if (decide (e.2 = m ∧ e.1 ∉ visited)) = true then 1 else 0 := by
        by_cases hm : e.2 = m <;> by_cases hen : e.1 = n <;> by_cases hv : e.1 ∈ visited <;> simp_all
      omega

structure KahnInvariant (names : List String) (edges : List (String × String)) (visited : List String)
    (deg : String → Int) (ready : List String) : Prop where
  nodup : (visited ++ ready).Nodup
  subset : ∀ n ∈ visited ++ ready, n ∈ names
  deg_eq : ∀ m, deg m = openEdges edges visited m
  done_iff : ∀ m ∈ names, m ∈ visited ++ ready ↔ deg m = 0
  sorted : LibGraph.Sorted (EdgeRel edges) visited

variable {names : List String} {edges : List (String × String)}

theorem openEdges_nil (edges : List (String × String)) (m : String) : openEdges edges [] m = indegree edges m := by
  rw [openEdges, indegree, ← List.countP_eq_length_filter]
  simp

theorem openEdges_eq_zero {visited : List String} {m : String} :
    openEdges edges visited m = 0 ↔ ∀ a, EdgeRel edges a m → a ∈ visited := by
  rw [openEdges, List.countP_eq_zero]
  constructor
  · intro h a ha
    have hedge := h (a, m) ha
    simpa using hedge
  · intro h e he
    have hmem : e.2 = m → e.1 ∈ visited := fun hm => h e.1 (by rw [EdgeRel, ← hm]; exact he)
    simpa using hmem

theorem kahnInvariant_start (hnames : names.Nodup) :
    KahnInvariant names edges [] (fun n => indegree edges n) (names.filter fun n => indegree edges n = 0) where
  nodup := hnames.filter _
  subset := fun n hn => (List.mem_filter.mp hn).1
  deg_eq := fun m => by rw [openEdges_nil]
  done_iff := fun m hm => by simp [hm]
  sorted := LibGraph.sorted_nil

namespace KahnInvariant

variable {visited ready : List String} {deg : String → Int} {n : String}

/-- No counter is asked for more than it holds. -/
theorem count_le (h : KahnInvariant names edges visited deg (n :: ready)) (m : String) :
    ((successors edges n).count m : Int) ≤ deg m := by
  have hn : n ∉ visited := fun hmem => List.disjoint_of_nodup_append h.nodup hmem List.mem_cons_self
  rw [h.deg_eq, ← openEdges_concat hn m]
  push_cast
  omega

theorem visit (h : KahnInvariant names edges visited deg (n :: ready))
    (hedges : ∀ d ∈ edges, d.1 ∈ names ∧ d.2 ∈ names) :
    KahnInvariant names edges (visited ++ [n]) (kahnVisit deg ready (successors edges n)).1
      (kahnVisit deg ready (successors edges n)).2 := by
  have hn : n ∉ visited := fun hmem => List.disjoint_of_nodup_append h.nodup hmem List.mem_cons_self
  have hn0 : deg n = 0 := (h.done_iff n (h.subset n (by simp))).mp (by simp)
  have hopen : ∀ m, (openEdges edges (visited ++ [n]) m : Int) + (successors edges n).count m = deg m := by
    intro m
    rw [h.deg_eq, ← openEdges_concat hn m]
    push_cast
    rfl
  obtain ⟨new, hready, hnodup, hnew⟩ := @kahnVisit_ready deg ready _ fun m _ => h.count_le m
  have hsplit : visited ++ [n] ++ (ready ++ new) = visited ++ n :: ready ++ new := by simp
  have hnew_names : ∀ m ∈ new, m ∈ names := by
    intro m hm
    have hsucc := ((hnew m).mp hm).1
    rw [successors, List.mem_map] at hsucc
    obtain ⟨d, hd, rfl⟩ := hsucc
    exact (hedges d (List.mem_filter.mp hd).1).2
  have hnew_pos : ∀ m ∈ new, 0 < deg m := by
    intro m hm
    obtain ⟨hmem, heq⟩ := (hnew m).mp hm
    rw [heq]
    exact_mod_cast List.count_pos_iff.mpr hmem
  refine ⟨?_, ?_, fun m => ?_, fun m hm => ?_, ?_⟩
  · rw [hready, hsplit]
    refine h.nodup.append hnodup fun m hold hm => ?_
    have hzero := (h.done_iff m (h.subset m hold)).mp hold
    exact (hnew_pos m hm).ne' hzero
  · rw [hready, hsplit, List.forall_mem_append]
    exact ⟨h.subset, hnew_names⟩
  · rw [kahnVisit_deg]
    have hsum := hopen m
    omega
  · rw [hready, hsplit, List.mem_append, h.done_iff m hm, hnew, kahnVisit_deg]
    have hsum := hopen m
    constructor
    · rintro (hzero | ⟨-, heq⟩) <;> omega
    · intro hzero
      rcases Nat.eq_zero_or_pos ((successors edges n).count m) with hcount | hcount
      · exact .inl (by omega)
      · exact .inr ⟨List.count_pos_iff.mp hcount, by omega⟩
  · refine h.sorted.concat (openEdges_eq_zero.mp ?_)
    have hdeg := h.deg_eq n
    omega

/-- Every node joins the queue once at most. -/
theorem length_le (h : KahnInvariant names edges visited deg ready) :
    visited.length + ready.length ≤ names.length := by
  rw [← List.length_append]
  exact (h.nodup.subperm h.subset).length_le

/-- When the queue is empty, what is left unvisited has no source. -/
theorem cyclic_iff (h : KahnInvariant names edges visited deg []) (hnames : names.Nodup)
    (hedges : ∀ d ∈ edges, d.1 ∈ names ∧ d.2 ∈ names) :
    visited.length ≠ names.length ↔ LibGraph.Cyclic (EdgeRel edges) := by
  have hnodup : visited.Nodup := by simpa using h.nodup
  have hsubset : ∀ n ∈ visited, n ∈ names := by simpa using h.subset
  constructor
  · intro hlength
    have hleft : names.filter (fun m => m ∉ visited) ≠ [] := by
      intro hempty
      rw [List.filter_eq_nil_iff] at hempty
      have hall : ∀ m ∈ names, m ∈ visited := fun m hm => by simpa using hempty m hm
      exact hlength (le_antisymm (hnodup.subperm hsubset).length_le (hnames.subperm hall).length_le)
    refine LibGraph.cyclic_of_stuck hleft fun b hb => ?_
    obtain ⟨hb, hnot⟩ := List.mem_filter.mp hb
    have hopen : ¬∀ a, EdgeRel edges a b → a ∈ visited := by
      rw [← openEdges_eq_zero]
      intro hzero
      have hdeg : deg b = 0 := by rw [h.deg_eq, hzero]; rfl
      have hmem := (h.done_iff b hb).mpr hdeg
      rw [List.append_nil] at hmem
      exact (by simpa using hnot : b ∉ visited) hmem
    push Not at hopen
    obtain ⟨a, hab, ha⟩ := hopen
    exact ⟨a, List.mem_filter.mpr ⟨(hedges _ hab).1, by simpa using ha⟩, hab⟩
  · intro hcyclic hlength
    have hperm := (hnodup.subperm hsubset).perm_of_length_le hlength.ge
    have hall : ∀ m ∈ names, m ∈ visited := fun m hm => hperm.mem_iff.mpr hm
    exact h.sorted.not_cyclic hnodup (fun a b hab => hall b (hedges _ hab).2) hcyclic

end KahnInvariant

theorem KahnReach.invariant {visited ready : List String} {deg : String → Int}
    (h : KahnReach names edges visited deg ready) (hnames : names.Nodup)
    (hedges : ∀ d ∈ edges, d.1 ∈ names ∧ d.2 ∈ names) : KahnInvariant names edges visited deg ready := by
  induction h with
  | start => exact kahnInvariant_start hnames
  | visit _ ih => exact ih.visit hedges

/-- The loop runs to an empty queue. -/
theorem kahnLoop_terminates (hnames : names.Nodup) (hedges : ∀ d ∈ edges, d.1 ∈ names ∧ d.2 ∈ names) (fuel : ℕ) :
    ∀ visited deg ready, KahnReach names edges visited deg ready → names.length ≤ visited.length + fuel →
      ∃ visited' deg', KahnReach names edges visited' deg' [] ∧
        visited'.length = visited.length + kahnLoop edges fuel deg ready := by
  induction fuel with
  | zero =>
      intro visited deg ready h hfuel
      have hlength := (h.invariant hnames hedges).length_le
      have hready : ready = [] := List.length_eq_zero_iff.mp (by omega)
      subst hready
      exact ⟨visited, deg, h, rfl⟩
  | succ fuel ih =>
      intro visited deg ready h hfuel
      cases ready with
      | nil => exact ⟨visited, deg, h, rfl⟩
      | cons n ready =>
          obtain ⟨visited', deg', hreach, hlength⟩ := ih _ _ _ h.visit (by simp; omega)
          have hloop : kahnLoop edges (fuel + 1) deg (n :: ready) =
              kahnLoop edges fuel (kahnVisit deg ready (successors edges n)).1
                (kahnVisit deg ready (successors edges n)).2 + 1 := rfl
          refine ⟨visited', deg', hreach, ?_⟩
          rw [hlength, hloop, List.length_append, List.length_singleton]
          omega

/-! ### The answer -/

theorem checkNodes_of_valid {types seen : List String} {nodes : List WorkflowNodeSpec}
    (hnames : (nodes.map (·.name)).Nodup) (hseen : ∀ n ∈ nodes.map (·.name), n ∉ seen)
    (htypes : ∀ node ∈ nodes, node.request.type ∈ types) : checkNodes types seen nodes = none := by
  induction nodes generalizing seen with
  | nil => rfl
  | cons node nodes ih =>
      rw [List.map_cons, List.nodup_cons] at hnames
      rw [List.map_cons, List.forall_mem_cons] at hseen
      rw [List.forall_mem_cons] at htypes
      rw [checkNodes, if_neg hseen.1, if_neg (not_not.mpr htypes.1)]
      refine ih hnames.2 (fun n hn => ?_) htypes.2
      rw [List.mem_cons, not_or]
      exact ⟨fun heq => hnames.1 (heq ▸ hn), hseen.2 n hn⟩

theorem checkEdges_of_valid (hedges : ∀ d ∈ edges, d.1 ∈ names ∧ d.2 ∈ names ∧ d.1 ≠ d.2) :
    checkEdges names edges = none := by
  induction edges with
  | nil => rfl
  | cons d edges ih =>
      rw [List.forall_mem_cons] at hedges
      obtain ⟨⟨hfrom, hto, hne⟩, hrest⟩ := hedges
      rw [checkEdges, if_neg (not_not.mpr hfrom), if_neg (not_not.mpr hto), if_neg hne]
      exact ih hrest

/-- What `submit_workflow` asks of nodes and edges, apart from cycles. -/
structure WellNamed (types : List String) (nodes : List WorkflowNodeSpec) (edges : List (String × String)) :
    Prop where
  nonempty : nodes ≠ []
  names : (nodes.map (·.name)).Nodup
  types : ∀ node ∈ nodes, node.request.type ∈ types
  edges : ∀ d ∈ edges, d.1 ∈ nodes.map (·.name) ∧ d.2 ∈ nodes.map (·.name) ∧ d.1 ≠ d.2

namespace WellNamed

variable {types : List String} {nodes : List WorkflowNodeSpec}

theorem ends (h : WellNamed types nodes edges) :
    ∀ d ∈ edges, d.1 ∈ nodes.map (·.name) ∧ d.2 ∈ nodes.map (·.name) :=
  fun d hd => ⟨(h.edges d hd).1, (h.edges d hd).2.1⟩

theorem terminates (h : WellNamed types nodes edges) :
    ∃ visited deg, KahnReach (nodes.map (·.name)) edges visited deg [] ∧
      visited.length = kahn (nodes.map (·.name)) edges := by
  obtain ⟨visited, deg, hreach, hlength⟩ := kahnLoop_terminates h.names h.ends (nodes.map (·.name)).length _ _ _
    .start (Nat.le_add_left _ _)
  exact ⟨visited, deg, hreach, by rw [hlength, List.length_nil, Nat.zero_add]; rfl⟩

theorem kahn_ne_iff (h : WellNamed types nodes edges) :
    kahn (nodes.map (·.name)) edges ≠ nodes.length ↔ LibGraph.Cyclic (EdgeRel edges) := by
  obtain ⟨visited, deg, hreach, hlength⟩ := h.terminates
  rw [← hlength, ← (hreach.invariant h.names h.ends).cyclic_iff h.names h.ends, List.length_map]

/-- Validation fails for a cycle, and for nothing else. -/
theorem validate (h : WellNamed types nodes edges) :
    (LibGraph.Cyclic (EdgeRel edges) ∧ validateWorkflow types nodes edges =
        some { status := .cycle, err := "workflow contains a cycle" }) ∨
      (¬LibGraph.Cyclic (EdgeRel edges) ∧ validateWorkflow types nodes edges = none) := by
  have hnodes : checkNodes types [] nodes = none := checkNodes_of_valid h.names (by simp) h.types
  rw [← h.kahn_ne_iff, validateWorkflow, if_neg (by simpa using h.nonempty)]
  simp only [hnodes, checkEdges_of_valid h.edges, Option.none_or]
  by_cases hkahn : kahn (nodes.map (·.name)) edges ≠ nodes.length
  · exact .inl ⟨hkahn, if_pos hkahn⟩
  · exact .inr ⟨hkahn, if_neg hkahn⟩

end WellNamed

namespace JobEngine

/-- **Cycles are detected exactly.** A workflow with distinct names, known types and edges between different
nodes is refused for a cycle exactly when its edges have one; the loop that decides it ends, and none of its
counters becomes negative at any decrement. -/
theorem submitWorkflow_cycle_iff (e : JobEngine) (name : String) {nodes : List WorkflowNodeSpec}
    {edges : List (String × String)} (hstop : e.stopRequested = false) (h : WellNamed e.types nodes edges) :
    ((e.submitWorkflow name nodes edges).1.status = .cycle ↔ LibGraph.Cyclic (EdgeRel edges)) ∧
      (∃ visited deg, KahnReach (nodes.map (·.name)) edges visited deg [] ∧
        visited.length = kahn (nodes.map (·.name)) edges) ∧
      ∀ visited deg n ready, KahnReach (nodes.map (·.name)) edges visited deg (n :: ready) →
        ∀ k m, 0 ≤ (kahnVisit deg ready ((successors edges n).take k)).1 m := by
  refine ⟨?_, h.terminates, fun visited deg n ready hreach k m => ?_⟩
  · rcases h.validate with ⟨hcyclic, hvalid⟩ | ⟨hacyclic, hvalid⟩
    · rw [submitWorkflow, hstop]
      simp only [hvalid, Bool.false_eq_true, if_false]
      exact iff_of_true trivial hcyclic
    · refine iff_of_false (fun hstatus => ?_) hacyclic
      rw [submitWorkflow_of_valid name hstop hvalid] at hstatus
      split_ifs at hstatus
      unfold submitWorkflowReserved at hstatus
      dsimp only at hstatus
      split at hstatus <;> cases hstatus
  · have hle := (hreach.invariant h.names h.ends).count_le m
    have htake : ((successors edges n).take k).count m ≤ (successors edges n).count m :=
      (List.take_sublist _ _).count_le m
    rw [kahnVisit_deg]
    omega

/-- Two nodes that wait for each other, one of the edges twice. -/
theorem submitWorkflow_cycle_pair :
    (submitWorkflow { types := ["echo"] } "wf" [⟨"a", { type := "echo" }⟩, ⟨"b", { type := "echo" }⟩]
      [("a", "b"), ("a", "b"), ("b", "a")]).1.status = .cycle := by
  have hnamed : WellNamed ["echo"] [⟨"a", { type := "echo" }⟩, ⟨"b", { type := "echo" }⟩]
      [("a", "b"), ("a", "b"), ("b", "a")] := ⟨by simp, by decide, by simp, by simp⟩
  refine (submitWorkflow_cycle_iff { types := ["echo"] } "wf" rfl hnamed).1.mpr
    ⟨"a", .tail (b := "b") (.single ?_) ?_⟩
  · exact List.mem_cons_self
  · exact List.mem_cons_of_mem _ (List.mem_cons_of_mem _ List.mem_cons_self)

end JobEngine

end DistributedJobEngine

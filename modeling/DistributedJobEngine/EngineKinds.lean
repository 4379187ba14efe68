import DistributedJobEngine.EngineFrames

/-! The control flow of the engine's operations: the kinds of frames, the kinds that a step of each may leave
on its thread, and those among them that may lie below the top of a stack. What a family of frames can turn
into is then decided on the graph of kinds. -/

namespace DistributedJobEngine

inductive Kind where
  | cancel | cancelFlag | cancelSignal | cancelRemove | cancelWrite
  | cancelWorkflow | cancelWorkflowWrite | cancelWorkflowNodes | cancelWorkflowDone
  | workerPop | claim | claimFirst | claimRest | registerWorker | heartbeat
  | complete | completeRead | reply
  | start | startWrite | handler | finish | finishRecord | finishRetry | finishTerminal
  | watchdog | watchdogDead | expire | expireWrite
  | metric | callback | slot | onTerminal | release | releaseGet | releaseWrite
  | skip | skipLoop | skipRemove | skipWrite | skipChildren | skipMetric
  | account | finalize | finalizeWrite | enqueue
  deriving DecidableEq

namespace Kind

/-- What is left of an operation after it wrote a terminal row. -/
def ending : List Kind := [metric, onTerminal, callback, slot]

/-- The kinds a step may leave. -/
def next : Kind → List Kind
  | cancel => [cancelFlag, cancelRemove]
  | cancelFlag => [cancelSignal]
  | cancelRemove => [cancelWrite]
  | cancelWrite => ending
  | cancelWorkflow => [cancelWorkflowWrite]
  | cancelWorkflowWrite => [cancelWorkflowNodes]
  | cancelWorkflowNodes => [cancel, cancelWorkflowDone]
  | workerPop => [start, workerPop]
  | claim => [claimFirst]
  | claimFirst => [claimRest, claimFirst]
  | claimRest => [start]
  | complete => [completeRead, reply]
  | completeRead => [finish, reply]
  | start => [startWrite]
  | startWrite => ending ++ [enqueue, handler]
  | handler => [finish]
  | finish => [finishRecord]
  | finishRecord => [finishRetry, finishTerminal]
  | finishRetry => [enqueue]
  | finishTerminal => ending
  | watchdog | watchdogDead => [watchdogDead, expire]
  | expire => [expireWrite]
  | expireWrite => ending ++ [enqueue]
  | onTerminal => [release, account, skip]
  | release => [releaseGet]
  | releaseGet => [releaseWrite]
  | releaseWrite => [enqueue]
  | skip => [skipLoop, account]
  | skipLoop => [skipLoop, skipMetric, account, skipChildren, skipRemove]
  | skipRemove => [skipWrite]
  | skipWrite => [skipChildren]
  | skipChildren => [skipLoop]
  | skipMetric => [callback, slot]
  | account => [finalize]
  | finalize => [finalizeWrite]
  | _ => []

/-- The kinds that may wait below the top of a stack or, as a handler, between two turns. -/
def still : Kind → Bool
  | cancel | cancelWorkflowDone | reply | onTerminal | callback | slot | account | start | releaseGet | expire
  | handler => true
  | _ => false

end Kind

namespace Frame

def kind : Frame → Kind
  | cancel _ => .cancel
  | cancelFlag _ => .cancelFlag
  | cancelSignal _ => .cancelSignal
  | cancelRemove _ => .cancelRemove
  | cancelWrite _ => .cancelWrite
  | cancelWorkflow _ => .cancelWorkflow
  | cancelWorkflowWrite _ => .cancelWorkflowWrite
  | cancelWorkflowNodes _ => .cancelWorkflowNodes
  | cancelWorkflowDone _ => .cancelWorkflowDone
  | workerPop _ => .workerPop
  | claim _ _ => .claim
  | claimFirst _ _ => .claimFirst
  | claimRest _ _ _ => .claimRest
  | registerWorker _ _ => .registerWorker
  | heartbeat _ => .heartbeat
  | complete _ => .complete
  | completeRead _ _ _ => .completeRead
  | reply _ _ => .reply
  | start _ _ _ _ => .start
  | startWrite _ _ _ _ => .startWrite
  | handler _ _ => .handler
  | finish _ _ _ _ => .finish
  | finishRecord _ _ _ => .finishRecord
  | finishRetry _ _ => .finishRetry
  | finishTerminal _ _ => .finishTerminal
  | watchdog => .watchdog
  | watchdogDead _ _ _ _ => .watchdogDead
  | expire _ _ _ => .expire
  | expireWrite _ _ => .expireWrite
  | metric _ => .metric
  | callback _ => .callback
  | slot _ _ => .slot
  | onTerminal _ => .onTerminal
  | release _ => .release
  | releaseGet _ => .releaseGet
  | releaseWrite _ => .releaseWrite
  | skip _ => .skip
  | skipLoop _ => .skipLoop
  | skipRemove _ _ => .skipRemove
  | skipWrite _ _ => .skipWrite
  | skipChildren _ _ => .skipChildren
  | skipMetric _ => .skipMetric
  | account _ _ => .account
  | finalize _ _ => .finalize
  | finalizeWrite _ _ => .finalizeWrite
  | enqueue _ _ => .enqueue

end Frame

/-- The frames `fs` may follow one of kind `k`. -/
structure Follows (k : Kind) (fs : List Frame) : Prop where
  next : ∀ g ∈ fs, g.kind ∈ k.next
  tail : ∀ g ∈ fs.tail, g.kind.still = true

namespace Follows

variable {k : Kind} {fs : List Frame}

theorem nil : Follows k [] := ⟨by simp, by simp⟩

theorem single {g : Frame} (h : g.kind ∈ k.next) : Follows k [g] := ⟨by simpa using h, by simp⟩

/-- A loop leaves one frame for each turn. -/
theorem map {α : Type} {l : List α} {g : α → Frame} (h : ∀ a ∈ l, (g a).kind ∈ k.next ∧ (g a).kind.still = true) :
    Follows k (l.map g) := by
  have hall : ∀ x ∈ l.map g, x.kind ∈ k.next ∧ x.kind.still = true := by
    intro x hx
    obtain ⟨a, ha, rfl⟩ := List.mem_map.mp hx
    exact h a ha
  exact ⟨fun x hx => (hall x hx).1, fun x hx => (hall x (List.mem_of_mem_tail hx)).2⟩

theorem frameTail {row : Job} {token : Option UInt64} (h : Kind.ending ⊆ k.next) :
    Follows k (Frame.tail row token) := by
  refine ⟨fun g hg => h ?_, fun g hg => ?_⟩
  · simp only [Frame.tail, List.mem_cons, List.not_mem_nil, or_false] at hg
    rcases hg with rfl | rfl | rfl | rfl <;> simp [Kind.ending, Frame.kind]
  · simp only [Frame.tail, List.tail_cons, List.mem_cons, List.not_mem_nil, or_false] at hg
    rcases hg with rfl | rfl | rfl <;> rfl

end Follows

namespace JobEngine

variable {e : JobEngine}

theorem reclaim_follows {k : Kind} (now : Int) (dead : List WorkerId) (expired : List (JobId × UInt64))
    (h : k = .watchdog ∨ k = .watchdogDead) : Follows k (reclaim now dead expired) := by
  cases dead with
  | nil =>
      refine .map fun j _ => ⟨?_, rfl⟩
      rcases h with rfl | rfl <;> simp [Kind.next, Frame.kind]
  | cons w dead =>
      refine .single ?_
      rcases h with rfl | rfl <;> simp [Kind.next, Frame.kind]

/-- **A step follows the graph of kinds.** -/
theorem advance_follows (c : Choice) (f : Frame) : Follows f.kind (e.advance c f).2 := by
  cases f with
  | watchdog => exact reclaim_follows _ _ _ (.inl rfl)
  | watchdogDead => exact reclaim_follows _ _ _ (.inr rfl)
  | cancelWorkflowNodes w =>
      refine ⟨fun g hg => ?_, fun g hg => ?_⟩
      · simp only [advance, cancelWorkflowNodes, List.mem_append, List.mem_map, List.mem_singleton] at hg
        rcases hg with ⟨j, -, rfl⟩ | rfl <;> simp [Kind.next, Frame.kind]
      · have hg' := List.mem_of_mem_tail hg
        simp only [advance, cancelWorkflowNodes, List.mem_append, List.mem_map, List.mem_singleton] at hg'
        rcases hg' with ⟨j, -, rfl⟩ | rfl <;> rfl
  | claimRest workerId maxJobs first => exact .map fun _ _ => ⟨by simp [Kind.next, Frame.kind], rfl⟩
  | release parent =>
      simp only [advance, release]
      split
      · exact .nil
      · exact .map fun _ _ => ⟨by simp [Kind.next, Frame.kind], rfl⟩
  | skipMetric jobs =>
      have hmem : ∀ g ∈ (e.skipMetric jobs).2, g.kind = .callback ∨ g.kind = .slot := by
        intro g hg
        obtain ⟨j, -, hg⟩ := List.mem_flatMap.mp hg
        simp only [List.mem_cons, List.not_mem_nil, or_false] at hg
        rcases hg with rfl | rfl
        · exact .inl rfl
        · exact .inr rfl
      refine ⟨fun g hg => ?_, fun g hg => ?_⟩
      · rcases hmem g hg with h | h <;> rw [h] <;> simp [Kind.next, Frame.kind]
      · rcases hmem g (List.mem_of_mem_tail hg) with h | h <;> rw [h] <;> rfl
  | finishTerminal job token => exact .frameTail (k := .finishTerminal) (by decide)
  | cancelWrite job =>
      simp only [advance, cancelWrite, updateJob]
      split_ifs
      · exact .nil
      · exact .frameTail (k := .cancelWrite) (by decide)
  | startWrite job owner eligibleAt remote =>
      simp only [advance, startWrite]
      split
      · exact .frameTail (k := .startWrite) (by decide)
      · dsimp only [updateJob]
        split_ifs
        · exact .single (by simp [Kind.next, Frame.kind])
        · cases remote
          · exact .single (by simp [Kind.next, Frame.kind])
          · exact .nil
  | expireWrite now job =>
      simp only [advance, expireWrite]
      split
      · exact .frameTail (k := .expireWrite) (by decide)
      · exact .single (by simp [Kind.next, Frame.kind])
  | completeRead msg info call =>
      simp only [advance, completeRead]
      split
      · exact .single (by simp [Kind.next, Frame.kind])
      · exact ⟨by simp [Kind.next, Frame.kind], by simp [Kind.still, Frame.kind]⟩
  | onTerminal job =>
      simp only [advance, onTerminal]
      split_ifs
      · exact .nil
      · exact ⟨by simp [Kind.next, Frame.kind], by simp [Kind.still, Frame.kind]⟩
      · exact .single (by simp [Kind.next, Frame.kind])
  | skipLoop w =>
      simp only [advance, skipLoop]
      (repeat' split) <;>
        first
          | exact .single (by simp [Kind.next, Frame.kind])
          | exact ⟨by simp [Kind.next, Frame.kind], by simp [Kind.still, Frame.kind]⟩
  | _ =>
      simp only [advance, cancel, cancelFlag, cancelWorkflow, cancelWorkflowWrite, workerPop, claim, claimFirst,
        complete, start, handler, finish, finishRecord, finishRetry, expire, releaseGet, releaseWrite, skip,
        skipWrite, skipChildren, account, finalize]
      (repeat' split) <;>
        first
          | exact .nil
          | exact .single (by simp [Kind.next, Frame.kind])

end JobEngine

end DistributedJobEngine

import Mathlib.Data.Multiset.AddSub
import Mathlib.Data.Multiset.Bind
import Mathlib.Data.Multiset.Filter
import Mathlib.Logic.Relation
import Mathlib.Tactic

/-! Threads over a shared state. A thread is a stack of frames and a step runs the frame on top of one
thread; one mutex is taken by the frames that need it and kept by the frames that hold it. Two ways of
running a pool are given: steps of all threads interleaved, and turns in which one thread runs alone until
it parks. Invariants are stated over the state and the multiset of all frames, so that both ways share one
step lemma. -/

namespace LibPool

variable {σ φ χ : Type}

/-- What a frame does to the shared state, and the frames that take its place; `χ` is what the step takes
from outside. A thread whose only frame `parks` waits for the outside. -/
structure System (σ φ χ : Type) where
  advance : σ → χ → φ → σ × List φ
  needs : φ → Bool
  holds : φ → Bool
  parks : φ → Bool

@[ext] structure Pool (σ φ : Type) where
  state : σ
  threads : List (List φ)

namespace Pool

def frames (p : Pool σ φ) : Multiset φ := p.threads.flatten

theorem frames_concat (s s' : σ) (threads : List (List φ)) (t : List φ) :
    (⟨s, threads ++ [t]⟩ : Pool σ φ).frames = (t : Multiset φ) + (⟨s', threads⟩ : Pool σ φ).frames := by
  unfold frames
  rw [Multiset.coe_add, Multiset.coe_eq_coe, List.flatten_append, List.flatten_singleton]
  exact List.perm_append_comm

theorem frames_split (s : σ) (pre post : List (List φ)) (f : φ) (rest : List φ) :
    (⟨s, pre ++ (f :: rest) :: post⟩ : Pool σ φ).frames =
      f ::ₘ ((rest : Multiset φ) + (pre.flatten ++ post.flatten : List φ)) := by
  unfold frames
  rw [Multiset.coe_add, Multiset.cons_coe, Multiset.coe_eq_coe, List.flatten_append, List.flatten_cons,
    List.cons_append]
  refine List.perm_middle.trans (List.Perm.cons f ?_)
  rw [← List.append_assoc, ← List.append_assoc]
  exact List.Perm.append_right _ List.perm_append_comm

theorem frames_stack (s : σ) (pre post : List (List φ)) (t : List φ) :
    (⟨s, pre ++ t :: post⟩ : Pool σ φ).frames =
      (t : Multiset φ) + (pre.flatten ++ post.flatten : List φ) := by
  unfold frames
  rw [Multiset.coe_add, Multiset.coe_eq_coe, List.flatten_append, List.flatten_cons, ← List.append_assoc,
    ← List.append_assoc]
  exact List.Perm.append_right _ List.perm_append_comm

end Pool

namespace System

variable (S : System σ φ χ)

/-- The frames besides the one that steps: the rest of its thread and all other threads. -/
def others (pre post : List (List φ)) (rest : List φ) : Multiset φ :=
  (rest : Multiset φ) + (pre.flatten ++ post.flatten : List φ)

/-- The mutex is free for `f`. -/
def Free (f : φ) (others : Multiset φ) : Prop := S.needs f = true → ∀ g ∈ others, S.holds g = false

/-- One step of the pool. `Env` are the changes from outside, `Op` the frames a new thread may start with
and `Ok` a condition on the frame that steps, the state before and the other frames. -/
inductive Step (Env : σ → σ → Prop) (Op : φ → Prop) (Ok : σ → χ → φ → Multiset φ → Prop) :
    Pool σ φ → Pool σ φ → Prop
  | run {s : σ} {c : χ} {pre post : List (List φ)} {f : φ} {rest : List φ}
      (hfree : S.Free f (others pre post rest)) (hok : Ok s c f (others pre post rest)) :
      Step Env Op Ok ⟨s, pre ++ (f :: rest) :: post⟩
        ⟨(S.advance s c f).1, pre ++ ((S.advance s c f).2 ++ rest) :: post⟩
  | env {s s' : σ} {threads : List (List φ)} (h : Env s s') : Step Env Op Ok ⟨s, threads⟩ ⟨s', threads⟩
  | spawn {s : σ} {threads : List (List φ)} {f : φ} (h : Op f) :
      Step Env Op Ok ⟨s, threads⟩ ⟨s, threads ++ [[f]]⟩

/-- Any number of interleaved steps. -/
abbrev Run (Env : σ → σ → Prop) (Op : φ → Prop) (Ok : σ → χ → φ → Multiset φ → Prop) :
    Pool σ φ → Pool σ φ → Prop :=
  Relation.ReflTransGen (S.Step Env Op Ok)

section Interleaved

variable {S} {Env : σ → σ → Prop} {Op : φ → Prop} {Ok : σ → χ → φ → Multiset φ → Prop} {p p' : Pool σ φ}

/-- A step of the pool in terms of the multiset of frames. -/
theorem Step.cases_frames (h : S.Step Env Op Ok p p') :
    (∃ c f O, S.Free f O ∧ Ok p.state c f O ∧ p.frames = f ::ₘ O ∧ p'.state = (S.advance p.state c f).1 ∧
      p'.frames = ((S.advance p.state c f).2 : Multiset φ) + O) ∨
    (Env p.state p'.state ∧ p'.frames = p.frames) ∨
    (∃ f, Op f ∧ p'.state = p.state ∧ p'.frames = f ::ₘ p.frames) := by
  cases h with
  | @run s c pre post f rest hfree hok =>
      refine .inl ⟨c, f, _, hfree, hok, Pool.frames_split s pre post f rest, rfl, ?_⟩
      rw [Pool.frames_stack, others, ← Multiset.coe_add, add_assoc]
  | env h => exact .inr (.inl ⟨h, rfl⟩)
  | @spawn s threads f h =>
      refine .inr (.inr ⟨f, h, rfl, ?_⟩)
      simp only [Pool.frames, List.flatten_append, List.flatten_cons, List.flatten_nil, List.append_nil]
      rw [Multiset.cons_coe, Multiset.coe_eq_coe]
      exact List.perm_append_singleton f threads.flatten

/-- **Invariants of interleaved runs.** What every step of a frame, every change from outside and every
new thread preserves holds along every run. -/
theorem Run.invariant {I : σ → Multiset φ → Prop}
    (hrun : ∀ s c f O, S.Free f O → Ok s c f O → I s (f ::ₘ O) →
      I (S.advance s c f).1 (((S.advance s c f).2 : Multiset φ) + O))
    (henv : ∀ s s' F, Env s s' → I s F → I s' F) (hspawn : ∀ s f F, Op f → I s F → I s (f ::ₘ F))
    (h : S.Run Env Op Ok p p') (h0 : I p.state p.frames) : I p'.state p'.frames := by
  induction h with
  | refl => exact h0
  | @tail p₁ p₂ _ hstep ih =>
      rcases hstep.cases_frames with ⟨c, f, O, hfree, hok, hF, hs, hF'⟩ | ⟨henv', hF⟩ | ⟨f, hop, hs, hF⟩
      · rw [hs, hF']
        rw [hF] at ih
        exact hrun _ c f O hfree hok ih
      · rw [hF]
        exact henv _ _ _ henv' ih
      · rw [hs, hF]
        exact hspawn _ f _ hop ih

/-- All frames of some stacks. -/
def framesOf (T : Multiset (List φ)) : Multiset φ := T.bind fun t => t

theorem framesOf_cons (t : List φ) (T : Multiset (List φ)) : framesOf (t ::ₘ T) = t + framesOf T :=
  Multiset.cons_bind _ _ _

theorem framesOf_coe (l : List (List φ)) : framesOf (l : Multiset (List φ)) = (l.flatten : List φ) := by
  rw [framesOf, Multiset.coe_bind, List.flatMap_id']

/-- A step of the pool in terms of the multiset of stacks. -/
theorem Step.cases_stacks (h : S.Step Env Op Ok p p') :
    (∃ c f, ∃ rest : List φ, ∃ T, S.Free f ((rest : Multiset φ) + framesOf T) ∧
      Ok p.state c f ((rest : Multiset φ) + framesOf T) ∧ (p.threads : Multiset (List φ)) = (f :: rest) ::ₘ T ∧
      p'.state = (S.advance p.state c f).1 ∧
      (p'.threads : Multiset (List φ)) = ((S.advance p.state c f).2 ++ rest) ::ₘ T) ∨
    (Env p.state p'.state ∧ p'.threads = p.threads) ∨
    (∃ f, Op f ∧ p'.state = p.state ∧ (p'.threads : Multiset (List φ)) = [f] ::ₘ p.threads) := by
  cases h with
  | @run s c pre post f rest hfree hok =>
      have hothers : others pre post rest =
          (rest : Multiset φ) + framesOf ((pre ++ post : List (List φ)) : Multiset (List φ)) := by
        rw [framesOf_coe, List.flatten_append, others]
      rw [hothers] at hfree hok
      refine .inl ⟨c, f, rest, _, hfree, hok, ?_, rfl, ?_⟩ <;>
        exact Multiset.coe_eq_coe.mpr List.perm_middle
  | env h => exact .inr (.inl ⟨h, rfl⟩)
  | @spawn s threads f h => exact .inr (.inr ⟨f, h, rfl, Multiset.coe_eq_coe.mpr (List.perm_append_singleton _ _)⟩)

/-- **Invariants of interleaved runs that see the stacks.** -/
theorem Run.invariant_stacks {I : σ → Multiset (List φ) → Prop}
    (hrun : ∀ s c f (rest : List φ) T, S.Free f ((rest : Multiset φ) + framesOf T) →
      Ok s c f ((rest : Multiset φ) + framesOf T) → I s ((f :: rest) ::ₘ T) →
      I (S.advance s c f).1 (((S.advance s c f).2 ++ rest) ::ₘ T))
    (henv : ∀ s s' T, Env s s' → I s T → I s' T) (hspawn : ∀ s f T, Op f → I s T → I s ([f] ::ₘ T))
    (h : S.Run Env Op Ok p p') (h0 : I p.state p.threads) : I p'.state p'.threads := by
  induction h with
  | refl => exact h0
  | @tail p₁ p₂ _ hstep ih =>
      rcases hstep.cases_stacks with ⟨c, f, rest, T, hfree, hok, hT, hs, hT'⟩ | ⟨henv', hT⟩ | ⟨f, hop, hs, hT⟩
      · rw [hs, hT']
        rw [hT] at ih
        exact hrun _ c f rest T hfree hok ih
      · rw [hT]
        exact henv _ _ _ henv' ih
      · rw [hs, hT]
        exact hspawn _ f _ hop ih

end Interleaved

/-! ### One thread at a time -/

/-- The stack is done or waits for the outside. -/
def Parked (t : List φ) : Prop := t = [] ∨ ∃ f, t = [f] ∧ S.parks f = true

/-- A stack runs alone until it parks. -/
inductive Alone : σ → List φ → σ → List φ → Prop
  | parked {s : σ} {t : List φ} (h : S.Parked t) : Alone s t s t
  | step {s s' : σ} {c : χ} {f : φ} {rest t : List φ} (hgo : ¬ S.Parked (f :: rest))
      (h : Alone (S.advance s c f).1 ((S.advance s c f).2 ++ rest) s' t) : Alone s (f :: rest) s' t

/-- One turn: a new operation or a parked thread runs until it parks, or something happens outside. -/
inductive Turn (Env : σ → σ → Prop) (Op : φ → Prop) : Pool σ φ → Pool σ φ → Prop
  | call {s s' : σ} {threads : List (List φ)} {f : φ} {t : List φ} (hop : Op f) (h : S.Alone s [f] s' t) :
      Turn Env Op ⟨s, threads⟩ ⟨s', threads ++ [t]⟩
  | resume {s s' : σ} {c : χ} {pre post : List (List φ)} {f : φ} {t : List φ}
      (h : S.Alone (S.advance s c f).1 (S.advance s c f).2 s' t) :
      Turn Env Op ⟨s, pre ++ [f] :: post⟩ ⟨s', pre ++ t :: post⟩
  | env {s s' : σ} {threads : List (List φ)} (h : Env s s') : Turn Env Op ⟨s, threads⟩ ⟨s', threads⟩

/-- Any number of turns. -/
abbrev Turns (Env : σ → σ → Prop) (Op : φ → Prop) : Pool σ φ → Pool σ φ → Prop :=
  Relation.ReflTransGen (S.Turn Env Op)

section Atomic

variable {S} {Env : σ → σ → Prop} {Op : φ → Prop} {p p' : Pool σ φ} {Q : φ → Prop}
  {I : σ → Multiset φ → Prop}

/-- Frames below the top of a stack stay quiet if no step puts a frame that is not quiet below the top. -/
theorem forall_tail_append {fs rest : List φ} (hfs : ∀ g ∈ fs.tail, Q g) (hrest : ∀ g ∈ rest, Q g) :
    ∀ g ∈ (fs ++ rest).tail, Q g := by
  cases fs with
  | nil => exact fun g hg => hrest g (List.mem_of_mem_tail hg)
  | cons f fs =>
      intro g hg
      rcases List.mem_append.mp hg with hg | hg
      · exact hfs g hg
      · exact hrest g hg

/-- One step of a stack among quiet frames, all of whose frames but the top are quiet. -/
theorem invariant_advance {s : σ} {c : χ} {f : φ} {rest : List φ} {O : Multiset φ}
    (hrun : ∀ s c f O, (∀ g ∈ O, Q g) → I s (f ::ₘ O) →
      I (S.advance s c f).1 (((S.advance s c f).2 : Multiset φ) + O))
    (hO : ∀ g ∈ O, Q g) (hrest : ∀ g ∈ rest, Q g) (h0 : I s (((f :: rest : List φ) : Multiset φ) + O)) :
    I (S.advance s c f).1 ((((S.advance s c f).2 ++ rest : List φ) : Multiset φ) + O) := by
  have hall : ∀ g ∈ (rest : Multiset φ) + O, Q g := by
    intro g hg
    rcases Multiset.mem_add.mp hg with hg | hg
    · exact hrest g hg
    · exact hO g hg
  have h1 := hrun s c f _ hall (by rwa [← Multiset.cons_coe, Multiset.cons_add] at h0)
  rwa [← add_assoc, Multiset.coe_add] at h1

/-- What every step of a frame among quiet frames preserves holds after a thread has run alone. -/
theorem Alone.invariant {s s' : σ} {t t' : List φ} {O : Multiset φ} (h : S.Alone s t s' t')
    (htail : ∀ s c f, ∀ g ∈ (S.advance s c f).2.tail, Q g)
    (hrun : ∀ s c f O, (∀ g ∈ O, Q g) → I s (f ::ₘ O) →
      I (S.advance s c f).1 (((S.advance s c f).2 : Multiset φ) + O))
    (hO : ∀ g ∈ O, Q g) (ht : ∀ g ∈ t.tail, Q g) (h0 : I s ((t : Multiset φ) + O)) :
    I s' ((t' : Multiset φ) + O) := by
  induction h with
  | parked _ => exact h0
  | @step s s' c f rest t _ _ ih =>
      apply ih (forall_tail_append (htail s c f) ht)
      exact invariant_advance hrun hO ht h0

/-- What every step of a stack preserves holds after it has run alone. -/
theorem Alone.invariant_stack {J : σ → List φ → Prop} {s s' : σ} {t t' : List φ} (h : S.Alone s t s' t')
    (hstep : ∀ s c f rest, J s (f :: rest) → J (S.advance s c f).1 ((S.advance s c f).2 ++ rest)) (h0 : J s t) :
    J s' t' := by
  induction h with
  | parked _ => exact h0
  | @step s s' c f rest t _ _ ih => exact ih (hstep s c f rest h0)

theorem Alone.parked_end {s s' : σ} {t t' : List φ} (h : S.Alone s t s' t') : S.Parked t' := by
  induction h with
  | parked h => exact h
  | step _ _ ih => exact ih

/-- All threads are done or parked. -/
def AtRest (p : Pool σ φ) : Prop := ∀ t ∈ p.threads, S.Parked t

theorem AtRest.parks (h : S.AtRest p) {f : φ} (hf : f ∈ p.frames) : S.parks f = true := by
  obtain ⟨t, ht, hft⟩ := List.mem_flatten.mp (Multiset.mem_coe.mp hf)
  rcases h t ht with rfl | ⟨g, rfl, hg⟩
  · cases hft
  · rw [List.mem_singleton.mp hft]
    exact hg

theorem Turn.atRest (h : S.Turn Env Op p p') (hp : S.AtRest p) : S.AtRest p' := by
  cases h with
  | call _ h =>
      intro t ht
      rcases List.mem_append.mp ht with ht | ht
      · exact hp t ht
      · rw [List.mem_singleton.mp ht]
        exact h.parked_end
  | @resume s s' c pre post f t' h =>
      intro t ht
      rcases List.mem_append.mp ht with ht | ht
      · exact hp t (List.mem_append_left _ ht)
      · rcases List.mem_cons.mp ht with rfl | ht
        · exact h.parked_end
        · exact hp t (List.mem_append_right _ (List.mem_cons_of_mem _ ht))
  | env _ => exact hp

/-- **Invariants of atomic turns.** -/
theorem Turn.invariant (h : S.Turn Env Op p p') (hp : S.AtRest p)
    (htail : ∀ s c f, ∀ g ∈ (S.advance s c f).2.tail, Q g) (hpark : ∀ f, S.parks f = true → Q f)
    (hrun : ∀ s c f O, (∀ g ∈ O, Q g) → I s (f ::ₘ O) →
      I (S.advance s c f).1 (((S.advance s c f).2 : Multiset φ) + O))
    (henv : ∀ s s' F, (∀ g ∈ F, S.parks g = true) → Env s s' → I s F → I s' F)
    (hspawn : ∀ s f F, (∀ g ∈ F, S.parks g = true) → Op f → I s F → I s (f ::ₘ F))
    (h0 : I p.state p.frames) : I p'.state p'.frames := by
  have hparks : ∀ g ∈ p.frames, S.parks g = true := fun g hg => hp.parks hg
  cases h with
  | @call s s' threads f t hop h =>
      have hquiet : ∀ g ∈ (threads.flatten : Multiset φ), Q g := fun g hg => hpark g (hp.parks hg)
      have h1 : I s (([f] : List φ) + (threads.flatten : Multiset φ)) := hspawn s f _ hparks hop h0
      have h2 := h.invariant htail hrun hquiet (by simp) h1
      simp only [Pool.frames, List.flatten_append, List.flatten_cons, List.flatten_nil, List.append_nil]
      rwa [Multiset.coe_add, Multiset.coe_eq_coe.mpr List.perm_append_comm] at h2
  | @resume s s' c pre post f t h =>
      have hquiet : ∀ g ∈ ((pre.flatten ++ post.flatten : List φ) : Multiset φ), Q g := by
        intro g hg
        apply hpark g (hp.parks _)
        rw [Pool.frames_stack]
        exact Multiset.mem_add.mpr (.inr hg)
      rw [Pool.frames_split] at h0
      have h1 := hrun s c f _ (by simpa using hquiet) h0
      rw [Multiset.coe_nil, zero_add] at h1
      rw [Pool.frames_stack]
      exact h.invariant htail hrun hquiet (fun g hg => htail s c f g hg) h1
  | env h => exact henv _ _ _ hparks h h0

theorem Turns.atRest (h : S.Turns Env Op p p') (hp : S.AtRest p) : S.AtRest p' := by
  induction h with
  | refl => exact hp
  | tail _ hturn ih => exact hturn.atRest ih

/-- One turn, or a restart: a new state, and no thread. -/
inductive Life (S : System σ φ χ) (Env : σ → σ → Prop) (Op : φ → Prop) (R : σ → σ → Prop) :
    Pool σ φ → Pool σ φ → Prop
  | turn {p p' : Pool σ φ} (h : S.Turn Env Op p p') : Life S Env Op R p p'
  | restart {p : Pool σ φ} {s : σ} (h : R p.state s) : Life S Env Op R p ⟨s, []⟩

/-- Any number of turns and restarts. -/
abbrev Lives (S : System σ φ χ) (Env : σ → σ → Prop) (Op : φ → Prop) (R : σ → σ → Prop) :
    Pool σ φ → Pool σ φ → Prop :=
  Relation.ReflTransGen (S.Life Env Op R)

theorem Turns.lives {R : σ → σ → Prop} (h : S.Turns Env Op p p') : S.Lives Env Op R p p' :=
  Relation.ReflTransGen.mono (fun _ _ hturn => Life.turn hturn) _ _ h

theorem Lives.atRest {R : σ → σ → Prop} (h : S.Lives Env Op R p p') (hp : S.AtRest p) : S.AtRest p' := by
  induction h with
  | refl => exact hp
  | tail _ hlife ih =>
      cases hlife with
      | turn hturn => exact hturn.atRest ih
      | restart _ => exact fun t ht => by cases ht

/-- **Invariants of lives.** What turns keep and every restart establishes anew. -/
theorem Lives.invariant {R : σ → σ → Prop} (h : S.Lives Env Op R p p') (hp : S.AtRest p)
    (htail : ∀ s c f, ∀ g ∈ (S.advance s c f).2.tail, Q g) (hpark : ∀ f, S.parks f = true → Q f)
    (hrun : ∀ s c f O, (∀ g ∈ O, Q g) → I s (f ::ₘ O) →
      I (S.advance s c f).1 (((S.advance s c f).2 : Multiset φ) + O))
    (henv : ∀ s s' F, (∀ g ∈ F, S.parks g = true) → Env s s' → I s F → I s' F)
    (hspawn : ∀ s f F, (∀ g ∈ F, S.parks g = true) → Op f → I s F → I s (f ::ₘ F))
    (hrestart : ∀ s s' F, R s s' → I s F → I s' 0) (h0 : I p.state p.frames) : I p'.state p'.frames := by
  induction h with
  | refl => exact h0
  | tail hlives hlife ih =>
      cases hlife with
      | turn hturn => exact hturn.invariant (Lives.atRest hlives hp) htail hpark hrun henv hspawn ih
      | restart hr => exact hrestart _ _ _ hr ih

end Atomic

/-! ### Running a pool -/

/-- What a schedule does next: a step of thread `i`, a change from outside or a new thread. -/
inductive Act (σ φ χ : Type) where
  | run (i : ℕ) (c : χ)
  | env (g : σ → σ)
  | spawn (f : φ)

/-- One act of a schedule, if the thread has a frame, the mutex is free for it and the step is `ok`. -/
def exec (ok : σ → χ → φ → List φ → Bool) (p : Pool σ φ) : Act σ φ χ → Option (Pool σ φ)
  | .run i c =>
      match p.threads.drop i with
      | (f :: rest) :: post =>
          let others := rest ++ ((p.threads.take i).flatten ++ post.flatten)
          if ok p.state c f others && !(S.needs f && others.any S.holds) then
            some ⟨(S.advance p.state c f).1, p.threads.take i ++ ((S.advance p.state c f).2 ++ rest) :: post⟩
          else none
      | _ => none
  | .env g => some { p with state := g p.state }
  | .spawn f => some { p with threads := p.threads ++ [[f]] }

def execs (ok : σ → χ → φ → List φ → Bool) (p : Pool σ φ) (acts : List (Act σ φ χ)) : Option (Pool σ φ) :=
  acts.foldlM (S.exec ok) p

section Exec

variable {S} {Env : σ → σ → Prop} {Op : φ → Prop} {Ok : σ → χ → φ → Multiset φ → Prop}
  {ok : σ → χ → φ → List φ → Bool} {p p' : Pool σ φ}

/-- The schedule uses only changes and threads that may happen. -/
def Allowed (Env : σ → σ → Prop) (Op : φ → Prop) : Act σ φ χ → Prop
  | .run _ _ => True
  | .env g => ∀ s, Env s (g s)
  | .spawn f => Op f

theorem exec_step (hok : ∀ s c f O, ok s c f O = true → Ok s c f O) {a : Act σ φ χ}
    (ha : Allowed Env Op a) (h : S.exec ok p a = some p') : S.Step Env Op Ok p p' := by
  cases a with
  | run i c =>
      simp only [exec] at h
      split at h
      · rename_i f rest post hdrop
        split at h
        · rename_i hcheck
          cases h
          simp only [Bool.and_eq_true, Bool.not_eq_true', Bool.and_eq_false_iff, List.any_eq_false,
            Bool.not_eq_true] at hcheck
          have hothers : others (p.threads.take i) post rest =
              ((rest ++ ((p.threads.take i).flatten ++ post.flatten) : List φ) : Multiset φ) := by
            rw [others, Multiset.coe_add]
          have hfree : S.Free f (others (p.threads.take i) post rest) := by
            intro hneeds g hg
            rcases hcheck.2 with hno | hno
            · rw [hneeds] at hno
              cases hno
            · rw [hothers] at hg
              exact hno g hg
          have hp : p = ⟨p.state, p.threads.take i ++ (f :: rest) :: post⟩ := by
            rw [← hdrop, List.take_append_drop]
          have hstep : S.Step Env Op Ok _ _ :=
            .run hfree (hothers ▸ hok p.state c f _ hcheck.1)
          rwa [← hp] at hstep
        · cases h
      · cases h
  | env g =>
      cases h
      exact .env (ha p.state)
  | spawn f =>
      cases h
      exact .spawn ha

theorem execs_run (hok : ∀ s c f O, ok s c f O = true → Ok s c f O) {acts : List (Act σ φ χ)}
    (ha : ∀ a ∈ acts, Allowed Env Op a) (h : S.execs ok p acts = some p') : S.Run Env Op Ok p p' := by
  induction acts generalizing p with
  | nil =>
      cases h
      exact .refl
  | cons a acts ih =>
      rw [execs, List.foldlM_cons] at h
      cases hstep : S.exec ok p a with
      | none =>
          rw [hstep] at h
          cases h
      | some p₁ =>
          rw [hstep] at h
          exact .head (exec_step hok (ha a List.mem_cons_self) hstep)
            (ih (fun b hb => ha b (List.mem_cons_of_mem _ hb)) h)

/-- A schedule that gets through is a run to what it ends with. -/
theorem exists_run {α : Type} {view : Pool σ φ → α} {x : α} {acts : List (Act σ φ χ)}
    (hok : ∀ s c f O, ok s c f O = true → Ok s c f O) (ha : ∀ a ∈ acts, Allowed Env Op a)
    (h : (S.execs ok p acts).map view = some x) : ∃ p', S.Run Env Op Ok p p' ∧ view p' = x := by
  obtain ⟨p', hp', hx⟩ := Option.map_eq_some_iff.mp h
  exact ⟨p', execs_run hok ha hp', hx⟩

/-- A schedule in two parts, with what is seen in between. -/
theorem exists_run_run {α β : Type} {view : Pool σ φ → α} {view' : Pool σ φ → β} {x : α} {y : β}
    {acts acts' : List (Act σ φ χ)} (hok : ∀ s c f O, ok s c f O = true → Ok s c f O)
    (ha : ∀ a ∈ acts, Allowed Env Op a) (ha' : ∀ a ∈ acts', Allowed Env Op a)
    (h : ((S.execs ok p acts).bind fun p₁ => (S.execs ok p₁ acts').map fun p₂ => (view p₁, view' p₂)) =
      some (x, y)) :
    ∃ p₁ p₂, S.Run Env Op Ok p p₁ ∧ S.Run Env Op Ok p₁ p₂ ∧ view p₁ = x ∧ view' p₂ = y := by
  obtain ⟨p₁, hp₁, h⟩ := Option.bind_eq_some_iff.mp h
  obtain ⟨p₂, hp₂, h⟩ := Option.map_eq_some_iff.mp h
  rw [Prod.mk.injEq] at h
  exact ⟨p₁, p₂, execs_run hok ha hp₁, execs_run hok ha' hp₂, h.1, h.2⟩

end Exec

/-! ### Playing turns -/

/-- A stack run alone for at most `fuel` steps, all with the same choice; `none` if it does not park. -/
def alone (c : χ) : ℕ → σ → List φ → Option (σ × List φ)
  | _, s, [] => some (s, [])
  | fuel, s, f :: rest =>
      if rest.isEmpty && S.parks f then some (s, f :: rest)
      else match fuel with
        | 0 => none
        | n + 1 => alone c n (S.advance s c f).1 ((S.advance s c f).2 ++ rest)

/-- One turn: a call, a parked thread that goes on, or a change from outside. -/
inductive Play (σ φ χ : Type) where
  | call (f : φ) (c : χ)
  | resume (i : ℕ) (c : χ)
  | env (g : σ → σ)

def play (fuel : ℕ) (p : Pool σ φ) : Play σ φ χ → Option (Pool σ φ)
  | .call f c => (S.alone c fuel p.state [f]).map fun r => ⟨r.1, p.threads ++ [r.2]⟩
  | .resume i c =>
      match p.threads.drop i with
      | [f] :: post =>
          (S.alone c fuel (S.advance p.state c f).1 (S.advance p.state c f).2).map fun r =>
            ⟨r.1, p.threads.take i ++ r.2 :: post⟩
      | _ => none
  | .env g => some { p with state := g p.state }

def plays (fuel : ℕ) (p : Pool σ φ) (turns : List (Play σ φ χ)) : Option (Pool σ φ) :=
  turns.foldlM (S.play fuel) p

section Plays

variable {S} {Env : σ → σ → Prop} {Op : φ → Prop} {p p' : Pool σ φ} {fuel : ℕ}

theorem alone_of_some {c : χ} {s s' : σ} {t t' : List φ} (h : S.alone c fuel s t = some (s', t')) :
    S.Alone s t s' t' := by
  induction fuel generalizing s t with
  | zero =>
      cases t with
      | nil =>
          cases h
          exact .parked (.inl rfl)
      | cons f rest =>
          simp only [alone] at h
          split_ifs at h with hpark
          cases h
          rw [Bool.and_eq_true, List.isEmpty_iff] at hpark
          exact .parked (.inr ⟨f, by rw [hpark.1], hpark.2⟩)
  | succ n ih =>
      cases t with
      | nil =>
          cases h
          exact .parked (.inl rfl)
      | cons f rest =>
          simp only [alone] at h
          split_ifs at h with hpark
          · cases h
            rw [Bool.and_eq_true, List.isEmpty_iff] at hpark
            exact .parked (.inr ⟨f, by rw [hpark.1], hpark.2⟩)
          · refine .step ?_ (ih h)
            rintro (hnil | ⟨g, hg, hparks⟩)
            · cases hnil
            · cases hg
              exact hpark (by rw [hparks]; rfl)

/-- The turn uses only changes and calls that may happen. -/
def Playable (Env : σ → σ → Prop) (Op : φ → Prop) : Play σ φ χ → Prop
  | .call f _ => Op f
  | .resume _ _ => True
  | .env g => ∀ s, Env s (g s)

theorem play_turn {a : Play σ φ χ} (ha : Playable Env Op a) (h : S.play fuel p a = some p') :
    S.Turn Env Op p p' := by
  cases a with
  | call f c =>
      obtain ⟨⟨s, t⟩, halone, rfl⟩ := Option.map_eq_some_iff.mp h
      exact .call ha (alone_of_some halone)
  | resume i c =>
      simp only [play] at h
      split at h
      · rename_i f post hdrop
        obtain ⟨⟨s, t⟩, halone, rfl⟩ := Option.map_eq_some_iff.mp h
        have hp : p = ⟨p.state, p.threads.take i ++ [f] :: post⟩ :=
          Pool.ext rfl (by rw [← hdrop]; exact (List.take_append_drop i p.threads).symm)
        have hturn : S.Turn Env Op ⟨p.state, p.threads.take i ++ [f] :: post⟩ ⟨s, p.threads.take i ++ t :: post⟩ :=
          .resume (alone_of_some halone)
        rwa [← hp] at hturn
      · cases h
  | env g =>
      cases h
      exact .env (ha p.state)

theorem plays_turns {turns : List (Play σ φ χ)} (ha : ∀ a ∈ turns, Playable Env Op a)
    (h : S.plays fuel p turns = some p') : S.Turns Env Op p p' := by
  induction turns generalizing p with
  | nil =>
      cases h
      exact .refl
  | cons a turns ih =>
      rw [plays, List.foldlM_cons] at h
      obtain ⟨p₁, hp₁, h⟩ := Option.bind_eq_some_iff.mp h
      exact .head (play_turn (ha a List.mem_cons_self) hp₁) (ih (fun b hb => ha b (List.mem_cons_of_mem _ hb)) h)

/-- Turns that get through are a run to what they end with. -/
theorem exists_turns {α : Type} {view : Pool σ φ → α} {x : α} {turns : List (Play σ φ χ)}
    (ha : ∀ a ∈ turns, Playable Env Op a) (h : (S.plays fuel p turns).map view = some x) :
    ∃ p', S.Turns Env Op p p' ∧ view p' = x := by
  obtain ⟨p', hp', hx⟩ := Option.map_eq_some_iff.mp h
  exact ⟨p', plays_turns ha hp', hx⟩

/-- Turns that get through after others are a run from where those ended. -/
theorem exists_turns_after {α : Type} {view : Pool σ φ → Pool σ φ → α} {x : α} {turns turns' : List (Play σ φ χ)}
    (ha : ∀ a ∈ turns, Playable Env Op a) (ha' : ∀ a ∈ turns', Playable Env Op a)
    (h : ((S.plays fuel p turns).bind fun q => (S.plays fuel q turns').map (view q)) = some x) :
    ∃ q q', S.Turns Env Op p q ∧ S.Turns Env Op q q' ∧ view q q' = x := by
  obtain ⟨q, hq, hrest⟩ := Option.bind_eq_some_iff.mp h
  obtain ⟨q', hturns, hx⟩ := exists_turns ha' hrest
  exact ⟨q, q', plays_turns ha hq, hturns, hx⟩

/-- Turns, one call that gets through, and turns after it. -/
theorem exists_turns_around {α : Type} {view : Pool σ φ → σ × List φ → Pool σ φ → α} {x : α}
    {turns turns' : List (Play σ φ χ)} {f : φ} {c : χ} (ha : ∀ a ∈ turns, Playable Env Op a)
    (ha' : ∀ a ∈ turns', Playable Env Op a)
    (h : ((S.plays fuel p turns).bind fun q => (S.alone c fuel q.state [f]).bind fun r =>
      (S.plays fuel ⟨r.1, q.threads ++ [r.2]⟩ turns').map (view q r)) = some x) :
    ∃ q s t q', S.Turns Env Op p q ∧ S.Alone q.state [f] s t ∧ S.Turns Env Op ⟨s, q.threads ++ [t]⟩ q' ∧
      view q (s, t) q' = x := by
  obtain ⟨q, hq, hrest⟩ := Option.bind_eq_some_iff.mp h
  obtain ⟨⟨s, t⟩, halone, hrest⟩ := Option.bind_eq_some_iff.mp hrest
  obtain ⟨q', hturns, hx⟩ := exists_turns ha' hrest
  exact ⟨q, s, t, q', plays_turns ha hq, alone_of_some halone, hturns, hx⟩

end Plays

/-! ### Steps of one thread -/

/-- `n` steps of a stack that nothing interrupts; `c i` is what step `i` takes from outside. -/
def steps (c : ℕ → χ) : ℕ → σ × List φ → σ × List φ
  | 0, p => p
  | n + 1, p =>
      match p.2 with
      | [] => p
      | f :: rest => steps (fun i => c (i + 1)) n ((S.advance p.1 (c 0) f).1, (S.advance p.1 (c 0) f).2 ++ rest)

/-- The stack comes from one point to the other, whatever it takes from outside. -/
def Reaches (p p' : σ × List φ) : Prop := ∀ c, ∃ n, S.steps c n p = p'

section Reaches

variable {S} {p p' p'' : σ × List φ}

theorem Reaches.refl (p : σ × List φ) : S.Reaches p p := fun _ => ⟨0, rfl⟩

theorem steps_nil (c : ℕ → χ) (n : ℕ) (s : σ) : S.steps c n (s, []) = (s, []) := by
  cases n <;> rfl

theorem steps_add (c : ℕ → χ) (n m : ℕ) (p : σ × List φ) :
    S.steps c (n + m) p = S.steps (fun i => c (n + i)) m (S.steps c n p) := by
  induction n generalizing c p with
  | zero => simp only [steps, Nat.zero_add]
  | succ n ih =>
      rcases p with ⟨s, _ | ⟨f, rest⟩⟩
      · rw [steps_nil, steps_nil, steps_nil]
      · rw [Nat.succ_add]
        simp only [steps]
        rw [ih]
        simp only [Nat.add_right_comm]

theorem Reaches.trans (h : S.Reaches p p') (h' : S.Reaches p' p'') : S.Reaches p p'' := by
  intro c
  obtain ⟨n, hn⟩ := h c
  obtain ⟨m, hm⟩ := h' fun i => c (n + i)
  exact ⟨n + m, by rw [steps_add, hn, hm]⟩

theorem Reaches.head {s : σ} {f : φ} {rest : List φ}
    (h : ∀ c, S.Reaches ((S.advance s c f).1, (S.advance s c f).2 ++ rest) p) : S.Reaches (s, f :: rest) p := by
  intro c
  obtain ⟨n, hn⟩ := h (c 0) fun i => c (i + 1)
  exact ⟨n + 1, hn⟩

end Reaches

/-- A turn has begun in a pool: its thread has made some steps and not come to its end. -/
inductive Amid (Op : φ → Prop) : Pool σ φ → σ → Multiset φ → Prop
  | call {s : σ} {threads : List (List φ)} {f : φ} (hop : Op f) (c : ℕ → χ) (n : ℕ) :
      Amid Op ⟨s, threads⟩ (S.steps c n (s, [f])).1
        (((S.steps c n (s, [f])).2 : Multiset φ) + (threads.flatten : List φ))
  | resume {s : σ} {pre post : List (List φ)} {f : φ} (c : ℕ → χ) (n : ℕ) :
      Amid Op ⟨s, pre ++ [f] :: post⟩ (S.steps c n (s, [f])).1
        (((S.steps c n (s, [f])).2 : Multiset φ) + (pre.flatten ++ post.flatten : List φ))

section Amid

variable {S} {Op : φ → Prop} {p : Pool σ φ} {Q : φ → Prop} {I : σ → Multiset φ → Prop}
  (htail : ∀ s c f, ∀ g ∈ (S.advance s c f).2.tail, Q g)
  (hrun : ∀ s c f O, (∀ g ∈ O, Q g) → I s (f ::ₘ O) →
    I (S.advance s c f).1 (((S.advance s c f).2 : Multiset φ) + O))

include htail hrun

theorem steps_invariant {O : Multiset φ} (hO : ∀ g ∈ O, Q g) (c : ℕ → χ) (n : ℕ) {q : σ × List φ}
    (ht : ∀ g ∈ q.2.tail, Q g) (h0 : I q.1 ((q.2 : Multiset φ) + O)) :
    I (S.steps c n q).1 (((S.steps c n q).2 : Multiset φ) + O) := by
  induction n generalizing c q with
  | zero => exact h0
  | succ n ih =>
      rcases q with ⟨s, _ | ⟨f, rest⟩⟩
      · rw [steps_nil]
        exact h0
      · exact ih _ (forall_tail_append (htail s (c 0) f) ht) (invariant_advance hrun hO ht h0)

/-- **Invariants amid a turn.** -/
theorem Amid.invariant {s : σ} {F : Multiset φ} (h : S.Amid Op p s F) (hp : S.AtRest p)
    (hpark : ∀ f, S.parks f = true → Q f)
    (hspawn : ∀ s f F, (∀ g ∈ F, S.parks g = true) → Op f → I s F → I s (f ::ₘ F))
    (h0 : I p.state p.frames) : I s F := by
  have hparks : ∀ g ∈ p.frames, S.parks g = true := fun g hg => hp.parks hg
  cases h with
  | @call s threads f hop c n =>
      exact steps_invariant htail hrun (fun g hg => hpark g (hparks g hg)) c n (by simp) (hspawn s f _ hparks hop h0)
  | @resume s pre post f c n =>
      rw [Pool.frames_stack] at h0 hparks
      exact steps_invariant htail hrun (fun g hg => hpark g (hparks g (Multiset.mem_add.mpr (.inr hg)))) c n (by simp)
        h0

end Amid

end System

end LibPool

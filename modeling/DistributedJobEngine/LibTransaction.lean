import Mathlib.Data.List.Basic
import Mathlib.Tactic

/-! One connection to a transactional database whose statements may fail. A statement answers with a
result code: busy answers are retried a bounded number of times, an error is final. `BEGIN` is refused
inside a transaction, a `COMMIT` that reports an error leaves the transaction open, and `ROLLBACK` closes
it whatever it reports. -/

namespace LibTransaction

variable {σ : Type}

/-- The answers of a statement that a retry loop tells apart. -/
inductive Code where
  | ok | busy | locked | error
  deriving DecidableEq, Repr

/-- The committed tables, the tables as the open transaction sees them, and what the database answers on
its own account to the statements still to come; `pos` of them have been run. -/
structure Connection (σ : Type) where
  db : σ
  transaction : Option σ := none
  codes : ℕ → Code := fun _ => .ok
  pos : ℕ := 0

namespace Connection

/-- Runs a statement once. It may also fail by itself, as on a violated constraint. -/
def attempt (c : Connection σ) (effect : Connection σ → Option (Connection σ)) : Code × Connection σ :=
  let next := { c with pos := c.pos + 1 }
  match c.codes c.pos with
  | .ok =>
      match effect next with
      | some done => (.ok, done)
      | none => (.error, next)
  | code => (code, next)

/-- Runs a statement up to `tries` times, again while the database answers that it is busy. -/
def retry (effect : Connection σ → Option (Connection σ)) : ℕ → Connection σ → Bool × Connection σ
  | 0, c => (false, c)
  | tries + 1, c =>
      match c.attempt effect with
      | (.ok, c) => (true, c)
      | (.error, c) => (false, c)
      | (_, c) => retry effect tries c

def beginImmediate (c : Connection σ) : Option (Connection σ) :=
  match c.transaction with
  | some _ => none
  | none => some { c with transaction := some c.db }

def commit (c : Connection σ) : Option (Connection σ) :=
  c.transaction.map fun tables => { c with db := tables, transaction := none }

def rollback (c : Connection σ) : Connection σ := { c with transaction := none }

/-- A statement inside a transaction writes to its tables, outside one to the committed ones. -/
def write (statement : σ → Option σ) (c : Connection σ) : Option (Connection σ) :=
  match c.transaction with
  | some tables => (statement tables).map fun tables => { c with transaction := some tables }
  | none => (statement c.db).map fun db => { c with db }

/-- Runs statements in order up to the first that fails. -/
def writes (tries : ℕ) : List (σ → Option σ) → Connection σ → Bool × Connection σ
  | [], c => (true, c)
  | statement :: rest, c =>
      match c.retry (write statement) tries with
      | (true, c) => writes tries rest c
      | (false, c) => (false, c)

/-- A connection between `BEGIN` and `COMMIT`: over the committed tables `db`, the transaction sees
`tables`. -/
structure Inside (c : Connection σ) (db tables : σ) : Prop where
  db : c.db = db
  transaction : c.transaction = some tables

/-- A connection that is in no transaction over the committed tables `db`. -/
structure Outside (c : Connection σ) (db : σ) : Prop where
  db : c.db = db
  transaction : c.transaction = none

variable {c : Connection σ} {db tables : σ}

theorem Inside.at (h : c.Inside db tables) (n : ℕ) : Inside { c with pos := n } db tables :=
  ⟨h.db, h.transaction⟩

theorem Outside.at (h : c.Outside db) (n : ℕ) : Outside { c with pos := n } db := ⟨h.db, h.transaction⟩

/-- What holds of a connection however many statements it has run holds where a statement takes effect,
and after one that fails. -/
theorem retry_cases (effect : Connection σ → Option (Connection σ)) (tries : ℕ) {P : Connection σ → Prop}
    (hpos : ∀ c n, P c → P { c with pos := n }) (hc : P c) :
    (∃ c', c.retry effect tries = (false, c') ∧ P c') ∨
      ∃ issued c', P issued ∧ effect issued = some c' ∧ c.retry effect tries = (true, c') := by
  induction tries generalizing c with
  | zero => exact .inl ⟨c, rfl, hc⟩
  | succ tries ih =>
      have hnext := hpos c (c.pos + 1) hc
      unfold retry attempt
      cases hcode : c.codes c.pos <;> simp only
      case ok =>
        cases heffect : effect { c with pos := c.pos + 1 } with
        | some done => exact .inr ⟨_, done, hnext, heffect, rfl⟩
        | none => exact .inl ⟨_, rfl, hnext⟩
      case error => exact .inl ⟨_, rfl, hnext⟩
      all_goals exact ih hnext

/-- One transaction: the statements between `BEGIN IMMEDIATE` and `COMMIT`, rolled back at the first one
that fails. A failed `COMMIT` is reported and nothing else. -/
def transact (execTries stepTries : ℕ) (statements : List (σ → Option σ)) (c : Connection σ) :
    Bool × Connection σ :=
  match c.retry beginImmediate execTries with
  | (false, c) => (false, c)
  | (true, c) =>
      match c.writes stepTries statements with
      | (false, c) => (false, c.rollback)
      | (true, c) => c.retry commit execTries

/-- The transaction gets as far as its `COMMIT`, and that fails. -/
def commitRefused (execTries stepTries : ℕ) (statements : List (σ → Option σ)) (c : Connection σ) : Bool :=
  match c.retry beginImmediate execTries with
  | (false, _) => false
  | (true, c) =>
      match c.writes stepTries statements with
      | (false, _) => false
      | (true, c) => !(c.retry commit execTries).1

/-- The statements of an open transaction leave it open; when none fails its tables have gone through
them all. -/
theorem writes_cases (tries : ℕ) (statements : List (σ → Option σ)) (hc : c.Inside db tables) :
    (∃ c' tables', c.writes tries statements = (false, c') ∧ c'.Inside db tables') ∨
      ∃ c' tables', c.writes tries statements = (true, c') ∧ c'.Inside db tables' ∧
        statements.foldlM (fun tables statement => statement tables) tables = some tables' := by
  induction statements generalizing c tables with
  | nil => exact .inr ⟨c, tables, rfl, hc, rfl⟩
  | cons statement statements ih =>
      unfold writes
      rcases retry_cases (write statement) tries (fun c n (h : c.Inside db tables) => h.at n) hc with
        ⟨c₁, hretry, h₁⟩ | ⟨issued, c₁, hissued, heffect, hretry⟩
      · rw [hretry]
        exact .inl ⟨c₁, tables, rfl, h₁⟩
      · rw [hretry]
        simp only [write, hissued.transaction, Option.map_eq_some_iff] at heffect
        obtain ⟨tables₁, hstatement, rfl⟩ := heffect
        rw [List.foldlM_cons, hstatement]
        exact ih ⟨hissued.db, rfl⟩

/-- **A transaction ends.** It fails and changes nothing, or commits the effect of all its statements, or
reaches a `COMMIT` that fails and stays open. -/
theorem transact_cases (execTries stepTries : ℕ) (statements : List (σ → Option σ)) (hc : c.Outside db) :
    (∃ c', c.transact execTries stepTries statements = (false, c') ∧ c'.Outside db ∧
        c.commitRefused execTries stepTries statements = false) ∨
    (∃ c' db', c.transact execTries stepTries statements = (true, c') ∧ c'.Outside db' ∧
        statements.foldlM (fun tables statement => statement tables) db = some db' ∧
        c.commitRefused execTries stepTries statements = false) ∨
    ∃ c' tables, c.transact execTries stepTries statements = (false, c') ∧ c'.Inside db tables ∧
        c.commitRefused execTries stepTries statements = true := by
  unfold transact commitRefused
  rcases retry_cases beginImmediate execTries (fun c n (h : c.Outside db) => h.at n) hc with
    ⟨c₁, hbegin, h₁⟩ | ⟨issued, c₁, hissued, heffect, hbegin⟩
  · rw [hbegin]
    exact .inl ⟨c₁, rfl, h₁, rfl⟩
  rw [hbegin]
  simp only [beginImmediate, hissued.transaction, hissued.db, Option.some.injEq] at heffect
  have hopen : c₁.Inside db db := by
    subst heffect
    exact ⟨rfl, rfl⟩
  rcases writes_cases stepTries statements hopen with
    ⟨c₂, tables, hwrites, h₂⟩ | ⟨c₂, tables, hwrites, h₂, hfold⟩
  · simp only [hwrites]
    exact .inl ⟨c₂.rollback, rfl, ⟨h₂.db, rfl⟩, trivial⟩
  simp only [hwrites]
  rcases retry_cases commit execTries (fun c n (h : c.Inside db tables) => h.at n) h₂ with
    ⟨c₃, hcommit, h₃⟩ | ⟨issued', c₃, hissued', heffect', hcommit⟩
  · rw [hcommit]
    exact .inr (.inr ⟨c₃, tables, rfl, h₃, rfl⟩)
  · rw [hcommit]
    simp only [commit, hissued'.transaction, Option.map_some, Option.some.injEq] at heffect'
    subst heffect'
    exact .inr (.inl ⟨_, tables, rfl, ⟨rfl, rfl⟩, hfold, rfl⟩)

end Connection

end LibTransaction

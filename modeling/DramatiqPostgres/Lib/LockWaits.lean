import DramatiqPostgres.Lib.Runs
import Mathlib.Data.Set.Basic
import Mathlib.Logic.Function.Basic

/-!
# Waiting for locks

Transactions as far as their locks go.  A transaction runs one statement after
the other; a statement is after some keys, and locks them one by one; all locks
are kept until the transaction ends.  Which keys a statement finds is left open,
so that one run of this system stands for every state of the tables in which a
program's statements can meet these keys.

## Main definitions

* `Scope` — whether a statement waits for locked keys or passes over them, and
  whether it can be after more than one.
* `system` — every interleaving of any number of transactions, each of which
  runs the statements of its program.
* `WaitsFor`, `NoDeadlock` — who waits for whom, and the law: no set of
  transactions in which each waits for another one of the set, and who does not
  wait can go on.
* `StartsApart` — the condition on a step.

## Main results

* `noDeadlock_of_startsApart` — the law holds in every state of a run whose
  steps meet the condition.
* `startsApart_of_below` — the condition can be evaluated along a run of given
  transactions.

## Design notes

**Who takes part in a deadlock** holds a lock that another one wants, and wants
a lock itself.  A transaction of one statement that is after one key holds
nothing while it waits; one whose statement skips locked keys does not wait.
Neither is ever `Holding`, whatever the run.

**What is asked of the others** is that no two of them are after one key
(`Apart`).  The condition is about the moments in which a transaction becomes
`Holding`: the beginning of a statement after many keys, and of a statement of a
transaction that has locks already.  The second kind is where transactions of
several statements differ from the statements by themselves: what the first one
has locked is kept while the second one waits.

**The law is that of a deadlock detector**: a nonempty set of transactions each
of which waits for one of the set is what it looks for.  It needs no bound on
the number of transactions, and no transaction has to end for it to hold.

**A chain of three waits** is what the proof excludes (`Apart.not_waitsFor`).
Whoever is waited for, and waits, is `Holding`; so in a chain of three the
second and the third both are, and the second is after a key that the third has
locked.  In a set that waits for itself there would be such a chain from each of
its members.

## What is left out

Keys that a statement begins to be after while it runs: a statement finds all of
its keys when it begins, as one that reads a snapshot does.  Locks of other
kinds than exclusive ones.
-/

universe u v

namespace LockWaits

/-- How a statement locks the keys it is after. -/
inductive Scope where
  /-- It waits for each of its keys, and may be after many. -/
  | many
  /-- It waits for its key, and is after one at most. -/
  | one
  /-- It passes over the keys that others have locked. -/
  | skips
  deriving DecidableEq, Repr

/-- A statement: how it locks, and the keys it can be after. -/
structure Statement (κ : Type v) where
  scope : Scope
  table : κ → Bool

/-- A transaction in progress.  What it has locked it keeps to its end, over the
statements; what it is after is the business of the statement under way. -/
structure Tx (π : Type u) (κ : Type v) where
  program : π
  /-- The statements after the one under way. -/
  rest : List (Statement κ)
  scope : Scope
  /-- The keys that the statement under way has still to visit. -/
  pending : List κ
  locked : List κ

/-- The transactions in progress, and the holder of each lock. -/
structure State (π : Type u) (κ : Type v) where
  txs : ℕ → Option (Tx π κ)
  locks : κ → Option ℕ

/-- One step of one transaction. -/
inductive Action (π : Type u) (κ : Type v) where
  /-- It begins, and its first statement finds `keys`. -/
  | begin (t : ℕ) (program : π) (keys : List κ)
  /-- Its next statement begins. -/
  | next (t : ℕ) (keys : List κ)
  /-- It locks the next key. -/
  | visit (t : ℕ)
  /-- It passes over the next key, under which it finds no row any more, or
  which it skips. -/
  | pass (t : ℕ)
  | commit (t : ℕ)
  | abort (t : ℕ)

variable {π : Type u} {κ : Type v}

/-- The statement under way has nothing left to lock, or may stop. -/
def Tx.Through (tx : Tx π κ) : Prop := tx.pending = [] ∨ tx.scope = .skips

instance [DecidableEq κ] (tx : Tx π κ) : Decidable tx.Through :=
  inferInstanceAs (Decidable (_ ∨ _))

/-- What a statement can find: different keys of its table, and one at most if
that is its scope. -/
def Statement.Finds (stmt : Statement κ) (keys : List κ) : Prop :=
  keys.Nodup ∧ (∀ k ∈ keys, stmt.table k = true) ∧ (stmt.scope = .one → keys.length ≤ 1)

instance [DecidableEq κ] (stmt : Statement κ) (keys : List κ) : Decidable (stmt.Finds keys) :=
  inferInstanceAs (Decidable (_ ∧ _ ∧ (_ → _)))

namespace State

/-- Replace a transaction. -/
def setTx (s : State π κ) (t : ℕ) (tx : Option (Tx π κ)) : State π κ :=
  { s with txs := Function.update s.txs t tx }

/-- A transaction ends, and its locks are gone. -/
def endTx (s : State π κ) (t : ℕ) : State π κ :=
  { s.setTx t none with locks := fun k => if s.locks k = some t then none else s.locks k }

variable [DecidableEq κ]

/-- A key that another transaction has locked. -/
def LockedByOther (s : State π κ) (t : ℕ) (k : κ) : Prop := ∃ t' ∈ s.locks k, t' ≠ t

instance (s : State π κ) (t : ℕ) (k : κ) : Decidable (s.LockedByOther t k) :=
  inferInstanceAs (Decidable (∃ t' ∈ s.locks k, t' ≠ t))

/-- The next key of a transaction is locked. -/
def visit (s : State π κ) (t : ℕ) (tx : Tx π κ) : Option (State π κ) :=
  match tx.pending with
  | [] => none
  | k :: rest =>
      if s.LockedByOther t k then none
      else some { s.setTx t (some { tx with pending := rest, locked := k :: tx.locked }) with
        locks := Function.update s.locks k (some t) }

/-- The next key of a transaction is passed over. -/
def pass (s : State π κ) (t : ℕ) (tx : Tx π κ) : Option (State π κ) :=
  match tx.pending with
  | [] => none
  | k :: rest =>
      if s.LockedByOther t k ∧ tx.scope ≠ .skips then none
      else some (s.setTx t (some { tx with pending := rest }))

/-- The state after a step. -/
def step (statements : π → List (Statement κ)) (s : State π κ) : Action π κ → Option (State π κ)
  | .begin t program keys =>
      match s.txs t, statements program with
      | none, stmt :: rest =>
          if stmt.Finds keys then some (s.setTx t (some ⟨program, rest, stmt.scope, keys, []⟩))
          else none
      | _, _ => none
  | .next t keys => (s.txs t).bind fun tx =>
      match tx.rest with
      | [] => none
      | stmt :: rest =>
          if tx.Through ∧ stmt.Finds keys then
            some (s.setTx t (some ⟨tx.program, rest, stmt.scope, keys, tx.locked⟩))
          else none
  | .visit t => (s.txs t).bind fun tx => s.visit t tx
  | .pass t => (s.txs t).bind fun tx => s.pass t tx
  | .commit t => (s.txs t).bind fun tx =>
      if tx.Through ∧ tx.rest = [] then some (s.endTx t) else none
  | .abort t => (s.txs t).map fun _ => s.endTx t

end State

/-- Every interleaving of any number of transactions. -/
def system [DecidableEq κ] (statements : π → List (Statement κ)) :
    StepSystem (State π κ) (Action π κ) :=
  ⟨⟨fun _ => none, fun _ => none⟩, State.step statements⟩

/-! ## The law and its condition -/

section Law

variable [DecidableEq κ] (statements : π → List (Statement κ))

/-- A transaction waits for one that has locked its next key. -/
def State.WaitsFor (s : State π κ) (t t' : ℕ) : Prop :=
  ∃ tx ∈ s.txs t, tx.scope ≠ .skips ∧ ∃ k ∈ tx.pending.head?, t' ∈ s.locks k ∧ t' ≠ t

instance (s : State π κ) (t t' : ℕ) : Decidable (s.WaitsFor t t') :=
  inferInstanceAs (Decidable (∃ tx ∈ s.txs t, _ ∧ ∃ k ∈ tx.pending.head?, _))

/-- A transaction can lock its next key; or else, when nothing is left to lock,
it can begin its next statement, whatever that finds, or commit if there is
none. -/
structure State.GoesOn (s : State π κ) (t : ℕ) (tx : Tx π κ) : Prop where
  visit : ¬ tx.Through → (s.step statements (.visit t)).isSome
  next : tx.Through → ∀ stmt rest keys, tx.rest = stmt :: rest → stmt.Finds keys →
    (s.step statements (.next t keys)).isSome
  commit : tx.Through → tx.rest = [] → (s.step statements (.commit t)).isSome

/-- **No deadlock.**  The first part alone would hold of a system that is stuck
for another reason; the second says that there is none. -/
structure NoDeadlock (s : State π κ) : Prop where
  /-- No set of transactions waits for itself. -/
  acyclic : ∀ T : Set ℕ, (∀ t ∈ T, ∃ t' ∈ T, s.WaitsFor t t') → T = ∅
  /-- A transaction that does not wait can go on. -/
  goesOn : ∀ t tx, s.txs t = some tx → (∀ t', ¬ s.WaitsFor t t') → s.GoesOn statements t tx

/-- The transaction waits for a key, or may do so, while it has locked another
one: now, or when it has locked the first of the keys it is after. -/
def Tx.Holding (tx : Tx π κ) : Prop :=
  tx.scope ≠ .skips ∧ tx.pending ≠ [] ∧ (tx.locked ≠ [] ∨ 2 ≤ tx.pending.length)

instance (tx : Tx π κ) : Decidable tx.Holding := inferInstanceAs (Decidable (_ ∧ _ ∧ _))

/-- No two such transactions are after one key, and none is after a key that
another has locked. -/
def Apart (s : State π κ) : Prop :=
  ∀ t t' tx tx', t ≠ t' → s.txs t = some tx → s.txs t' = some tx' → tx.Holding → tx'.Holding →
    ∀ k ∈ tx.pending, k ∉ tx'.locked ∧ k ∉ tx'.pending

/-- Transaction `t'` is not holding, or neither has nor is after any of `keys`,
and is not after any of `locked`. -/
def State.ClearOf (s : State π κ) (t' : ℕ) (locked keys : List κ) : Prop :=
  ∀ tx' ∈ s.txs t', tx'.Holding →
    (∀ k ∈ keys, k ∉ tx'.locked ∧ k ∉ tx'.pending) ∧ ∀ k ∈ locked, k ∉ tx'.pending

instance (s : State π κ) (t' : ℕ) (locked keys : List κ) : Decidable (s.ClearOf t' locked keys) :=
  inferInstanceAs (Decidable (∀ tx' ∈ s.txs t', _ → _))

/-- A transaction that has locked `locked`, and now begins to be after `keys`,
is apart from the others.  Nothing is asked of one that skips locked keys, finds
none, or has locked nothing and finds one. -/
def JoinsApart (s : State π κ) (t : ℕ) (scope : Scope) (locked keys : List κ) : Prop :=
  scope ≠ .skips → keys ≠ [] → locked ≠ [] ∨ 2 ≤ keys.length →
    ∀ t', t' ≠ t → s.ClearOf t' locked keys

/-- **The condition on a step**: the statement that begins, if one does, is
apart from the others.  It is about the state before the step and the keys the
statement finds; nothing is asked of the steps inside a statement. -/
def StartsApart (s : State π κ) : Action π κ → Prop
  | .begin t program keys =>
      ∀ stmt ∈ (statements program).head?, JoinsApart s t stmt.scope [] keys
  | .next t keys =>
      ∀ tx ∈ s.txs t, ∀ stmt ∈ tx.rest.head?, JoinsApart s t stmt.scope tx.locked keys
  | _ => True

end Law

/-! ## The invariant -/

/-- Whoever has a lock is under way and knows of it.  This needs no condition on
the run. -/
def Owned (s : State π κ) : Prop := ∀ k t, s.locks k = some t → ∃ tx ∈ s.txs t, k ∈ tx.locked

section Steps

variable {s s' : State π κ} {t : ℕ} {tx : Tx π κ}

/-- A transaction begins or goes on, and keeps what it has locked. -/
theorem Owned.setTx {tx' : Tx π κ} (howned : Owned s)
    (htxs : s'.txs = Function.update s.txs t (some tx'))
    (hlocks : ∀ k t₁, s'.locks k = some t₁ → s.locks k = some t₁ ∨ t₁ = t ∧ k ∈ tx'.locked)
    (hkeeps : ∀ tx, s.txs t = some tx → ∀ k ∈ tx.locked, k ∈ tx'.locked) : Owned s' := by
  intro k t₁ hk
  rw [htxs]
  rcases hlocks k t₁ hk with hold | ⟨rfl, hmem⟩
  · obtain ⟨tx₁, h₁, hmem⟩ := howned k t₁ hold
    by_cases ht : t₁ = t
    · subst ht
      exact ⟨tx', Function.update_self .., hkeeps tx₁ h₁ k hmem⟩
    · exact ⟨tx₁, by rw [Option.mem_def, Function.update_of_ne ht]; exact h₁, hmem⟩
  · exact ⟨tx', Function.update_self .., hmem⟩

theorem Owned.endTx (howned : Owned s) : Owned (s.endTx t) := by
  intro k t₁ hk
  simp only [State.endTx] at hk
  split_ifs at hk with hown
  have ht : t₁ ≠ t := fun ht => hown (ht ▸ hk)
  obtain ⟨tx₁, h₁, hmem⟩ := howned k t₁ hk
  exact ⟨tx₁, (Function.update_of_ne ht ..).trans h₁, hmem⟩

/-- One transaction goes on.  If it is holding afterwards, it was before and is
after no other keys, or it is apart from the others. -/
theorem Apart.setTx {tx' : Tx π κ} (hapart : Apart s)
    (htxs : s'.txs = Function.update s.txs t (some tx'))
    (hnew : tx'.Holding → ∀ t₁, t₁ ≠ t → s.ClearOf t₁ tx'.locked tx'.pending) : Apart s' := by
  intro t₁ t₂ tx₁ tx₂ hne h₁ h₂ hholding₁ hholding₂ k hk
  rw [htxs] at h₁ h₂
  by_cases ht₁ : t₁ = t
  · subst ht₁
    rw [Function.update_self, Option.some_inj] at h₁
    rw [Function.update_of_ne hne.symm] at h₂
    subst h₁
    exact (hnew hholding₁ t₂ hne.symm tx₂ h₂ hholding₂).1 k hk
  · rw [Function.update_of_ne ht₁] at h₁
    by_cases ht₂ : t₂ = t
    · subst ht₂
      rw [Function.update_self, Option.some_inj] at h₂
      subst h₂
      obtain ⟨hkeys, hlocked⟩ := hnew hholding₂ t₁ ht₁ tx₁ h₁ hholding₁
      exact ⟨fun hin => hlocked k hin hk, fun hin => (hkeys k hin).2 hk⟩
    · rw [Function.update_of_ne ht₂] at h₂
      exact hapart t₁ t₂ tx₁ tx₂ hne h₁ h₂ hholding₁ hholding₂ k hk

theorem Apart.endTx (hapart : Apart s) : Apart (s.endTx t) := by
  have hold : ∀ {t₁ tx₁}, (s.endTx t).txs t₁ = some tx₁ → s.txs t₁ = some tx₁ := by
    intro t₁ tx₁ h₁
    have h : Function.update s.txs t none t₁ = some tx₁ := h₁
    by_cases ht : t₁ = t
    · rw [ht, Function.update_self] at h
      cases h
    · rwa [Function.update_of_ne ht] at h
  exact fun t₁ t₂ tx₁ tx₂ hne h₁ h₂ => hapart t₁ t₂ tx₁ tx₂ hne (hold h₁) (hold h₂)

/-- A transaction that goes on in its statement was holding before if it is now,
and what it is after or has locked now it was after or had locked. -/
theorem Apart.advance {tx' : Tx π κ} (hapart : Apart s) (htx : s.txs t = some tx)
    (htxs : s'.txs = Function.update s.txs t (some tx')) (hscope : tx'.scope = tx.scope) {k : κ}
    (hpending : tx.pending = k :: tx'.pending)
    (hlocked : tx'.locked = tx.locked ∨ tx'.locked = k :: tx.locked) : Apart s' := by
  refine hapart.setTx htxs fun hholding t₁ hne tx₁ h₁ hholding₁ => ?_
  have hbefore : tx.Holding := by
    refine ⟨hscope ▸ hholding.1, by rw [hpending]; exact List.cons_ne_nil _ _, Or.inr ?_⟩
    rw [hpending, List.length_cons]
    have hpos := List.length_pos_of_ne_nil hholding.2.1
    omega
  have hkeys := hapart t t₁ tx tx₁ hne.symm htx h₁ hbefore hholding₁
  rw [hpending] at hkeys
  refine ⟨fun k' hk' => hkeys k' (List.mem_cons_of_mem _ hk'), fun k' hk' hin => ?_⟩
  have hold : k' ∈ tx.locked → False := fun hmem =>
    (hapart t₁ t tx₁ tx hne h₁ htx hholding₁ hbefore k' hin).1 hmem
  rcases hlocked with hsame | hmore
  · exact hold (hsame ▸ hk')
  · rw [hmore, List.mem_cons] at hk'
    rcases hk' with rfl | hmem
    · exact (hkeys k' List.mem_cons_self).2 hin
    · exact hold hmem

/-! ### Who waits for whom -/

/-- A transaction that waits, and that another one waits for, holds a lock while
it waits: that of the key the other one is after. -/
theorem Owned.holding {t₀ t₁ t₂ : ℕ} (howned : Owned s) (h₀ : s.WaitsFor t₀ t₁)
    (h₁ : s.WaitsFor t₁ t₂) : ∃ tx, s.txs t₁ = some tx ∧ tx.Holding := by
  obtain ⟨-, -, -, k, -, hk, -⟩ := h₀
  obtain ⟨tx, htx, hscope, k', hk', -, -⟩ := h₁
  obtain ⟨tx', htx', hmem⟩ := howned k t₁ hk
  obtain rfl := Option.some_inj.mp (htx.symm.trans htx')
  refine ⟨tx, htx, hscope, ?_, Or.inl (List.ne_nil_of_mem hmem)⟩
  rintro hnil
  rw [hnil] at hk'
  cases hk'

/-- **Chains of waiting are short** while the holding transactions are apart. -/
theorem Apart.not_waitsFor {t₀ t₁ t₂ t₃ : ℕ} (hapart : Apart s) (howned : Owned s)
    (h₀ : s.WaitsFor t₀ t₁) (h₁ : s.WaitsFor t₁ t₂) : ¬ s.WaitsFor t₂ t₃ := by
  intro h₂
  obtain ⟨tx₁, htx₁, hholding₁⟩ := howned.holding h₀ h₁
  obtain ⟨tx₂, htx₂, hholding₂⟩ := howned.holding h₁ h₂
  obtain ⟨tx, htx, -, k, hk, hlock, hne⟩ := h₁
  obtain rfl := Option.some_inj.mp (htx.symm.trans htx₁)
  obtain ⟨tx', htx', hmem⟩ := howned k t₂ hlock
  obtain rfl := Option.some_inj.mp (htx'.symm.trans htx₂)
  exact (hapart t₁ t₂ tx tx' hne.symm htx₁ htx₂ hholding₁ hholding₂ k
    (List.mem_of_mem_head? hk)).1 hmem

variable [DecidableEq κ] {statements : π → List (Statement κ)}

/-! ### One step -/

/-- **What a step does**: a transaction begins a statement, goes on in one, or
ends. -/
theorem step_cases {a : Action π κ} (h : s.step statements a = some s') :
    (∃ t program stmt rest keys, a = .begin t program keys ∧ s.txs t = none ∧
      statements program = stmt :: rest ∧ stmt.Finds keys ∧
      s' = s.setTx t (some ⟨program, rest, stmt.scope, keys, []⟩)) ∨
    (∃ t tx stmt rest keys, a = .next t keys ∧ s.txs t = some tx ∧ tx.Through ∧
      tx.rest = stmt :: rest ∧ stmt.Finds keys ∧
      s' = s.setTx t (some ⟨tx.program, rest, stmt.scope, keys, tx.locked⟩)) ∨
    (∃ t tx k rest, a = .visit t ∧ s.txs t = some tx ∧ tx.pending = k :: rest ∧
      ¬ s.LockedByOther t k ∧
      s' = { s.setTx t (some { tx with pending := rest, locked := k :: tx.locked }) with
        locks := Function.update s.locks k (some t) }) ∨
    (∃ t tx k rest, a = .pass t ∧ s.txs t = some tx ∧ tx.pending = k :: rest ∧
      s' = s.setTx t (some { tx with pending := rest })) ∨
    ∃ t, (a = .commit t ∨ a = .abort t) ∧ s' = s.endTx t := by
  cases a with
  | begin t program keys =>
      simp only [State.step] at h
      split at h
      · next stmt rest htx hstmts =>
          split_ifs at h with hfinds
          cases h
          exact Or.inl ⟨t, program, stmt, rest, keys, rfl, htx, hstmts, hfinds, rfl⟩
      · cases h
  | next t keys =>
      obtain ⟨tx, htx, h⟩ := Option.bind_eq_some_iff.mp h
      split at h
      · cases h
      · next stmt rest hrest =>
          split_ifs at h with hguard
          cases h
          exact Or.inr (Or.inl ⟨t, tx, stmt, rest, keys, rfl, htx, hguard.1, hrest, hguard.2, rfl⟩)
  | visit t =>
      obtain ⟨tx, htx, h⟩ := Option.bind_eq_some_iff.mp h
      unfold State.visit at h
      split at h
      · cases h
      · next k rest hpending =>
          split_ifs at h with hfree
          cases h
          exact Or.inr (Or.inr (Or.inl ⟨t, tx, k, rest, rfl, htx, hpending, hfree, rfl⟩))
  | pass t =>
      obtain ⟨tx, htx, h⟩ := Option.bind_eq_some_iff.mp h
      unfold State.pass at h
      split at h
      · cases h
      · next k rest hpending =>
          split_ifs at h
          cases h
          exact Or.inr (Or.inr (Or.inr (Or.inl ⟨t, tx, k, rest, rfl, htx, hpending, rfl⟩)))
  | commit t =>
      obtain ⟨tx, htx, h⟩ := Option.bind_eq_some_iff.mp h
      split_ifs at h
      cases h
      exact Or.inr (Or.inr (Or.inr (Or.inr ⟨t, Or.inl rfl, rfl⟩)))
  | abort t =>
      obtain ⟨tx, htx, rfl⟩ := Option.map_eq_some_iff.mp h
      exact Or.inr (Or.inr (Or.inr (Or.inr ⟨t, Or.inr rfl, rfl⟩)))

/-- **Step lemma.**  Locks are owned, whatever is done. -/
theorem Owned.step {a : Action π κ} (howned : Owned s) (h : s.step statements a = some s') :
    Owned s' := by
  rcases step_cases h with ⟨t, program, stmt, rest, keys, -, htx, -, -, rfl⟩ |
    ⟨t, tx, stmt, rest, keys, -, htx, -, -, -, rfl⟩ |
    ⟨t, tx, k, rest, -, htx, hpending, hfree, rfl⟩ | ⟨t, tx, k, rest, -, htx, hpending, rfl⟩ |
    ⟨t, -, rfl⟩
  · refine howned.setTx rfl (fun k t₁ hk => Or.inl hk) fun tx₁ h₁ => ?_
    rw [htx] at h₁
    cases h₁
  · refine howned.setTx rfl (fun k t₁ hk => Or.inl hk) fun tx₁ h₁ k hk => ?_
    obtain rfl := Option.some_inj.mp (htx.symm.trans h₁)
    exact hk
  · refine howned.setTx rfl (fun k' t₁ hk' => ?_) fun tx₁ h₁ k' hk' => ?_
    · have hk' : Function.update s.locks k (some t) k' = some t₁ := hk'
      by_cases hkey : k' = k
      · subst hkey
        rw [Function.update_self, Option.some_inj] at hk'
        exact Or.inr ⟨hk'.symm, List.mem_cons_self⟩
      · rw [Function.update_of_ne hkey] at hk'
        exact Or.inl hk'
    · obtain rfl := Option.some_inj.mp (htx.symm.trans h₁)
      exact List.mem_cons_of_mem _ hk'
  · refine howned.setTx rfl (fun k t₁ hk => Or.inl hk) fun tx₁ h₁ k' hk' => ?_
    obtain rfl := Option.some_inj.mp (htx.symm.trans h₁)
    exact hk'
  · exact howned.endTx

/-- **Step lemma.**  A step whose statement starts apart keeps the holding
transactions apart. -/
theorem Apart.step {a : Action π κ} (hapart : Apart s) (hstarts : StartsApart statements s a)
    (h : s.step statements a = some s') : Apart s' := by
  rcases step_cases h with ⟨t, program, stmt, rest, keys, rfl, htx, hstmts, -, rfl⟩ |
    ⟨t, tx, stmt, rest, keys, rfl, htx, -, hrest, -, rfl⟩ |
    ⟨t, tx, k, rest, -, htx, hpending, hfree, rfl⟩ | ⟨t, tx, k, rest, -, htx, hpending, rfl⟩ |
    ⟨t, -, rfl⟩
  · refine hapart.setTx rfl fun hholding => ?_
    exact hstarts stmt (by rw [hstmts]; rfl) hholding.1 hholding.2.1 hholding.2.2
  · refine hapart.setTx rfl fun hholding => ?_
    exact hstarts tx htx stmt (by rw [hrest]; rfl) hholding.1 hholding.2.1 hholding.2.2
  · exact hapart.advance htx rfl rfl hpending (Or.inr rfl)
  · exact hapart.advance htx rfl rfl hpending (Or.inl rfl)
  · exact hapart.endTx

/-! ## The law -/

/-- A transaction that does not wait can go on. -/
theorem goesOn_of_not_waitsFor (htx : s.txs t = some tx) (hfree : ∀ t', ¬ s.WaitsFor t t') :
    s.GoesOn statements t tx where
  visit := by
    intro hthrough
    obtain ⟨hpending, hscope⟩ := not_or.mp hthrough
    obtain ⟨k, rest, hkeys⟩ := List.exists_cons_of_ne_nil hpending
    have hunlocked : ¬ s.LockedByOther t k := by
      rintro ⟨t', ht', hne⟩
      exact hfree t' ⟨tx, htx, hscope, k, by rw [hkeys]; rfl, ht', hne⟩
    simp only [State.step, htx, Option.bind_some, State.visit, hkeys, if_neg hunlocked]
    rfl
  next := by
    intro hthrough stmt rest keys hrest hfinds
    simp only [State.step, htx, Option.bind_some, hrest, if_pos (And.intro hthrough hfinds)]
    rfl
  commit := by
    intro hthrough hrest
    rw [State.step, htx, Option.bind_some, if_pos ⟨hthrough, hrest⟩]
    rfl

/-- Apart transactions are in no deadlock. -/
theorem Apart.noDeadlock_of_owned (hapart : Apart s) (howned : Owned s) :
    NoDeadlock statements s where
  acyclic := by
    intro T hT
    refine Set.eq_empty_of_forall_notMem fun t₀ h₀ => ?_
    obtain ⟨t₁, h₁, hwaits₀⟩ := hT t₀ h₀
    obtain ⟨t₂, h₂, hwaits₁⟩ := hT t₁ h₁
    obtain ⟨t₃, -, hwaits₂⟩ := hT t₂ h₂
    exact hapart.not_waitsFor howned hwaits₀ hwaits₁ hwaits₂
  goesOn := fun _ _ htx hfree => goesOn_of_not_waitsFor htx hfree

/-- A transaction of one statement that is not after many keys starts apart from
any others. -/
theorem startsApart_of_one {t : ℕ} {program : π} {stmt : Statement κ} {keys : List κ}
    (hprogram : statements program = [stmt]) (hscope : stmt.scope ≠ .many)
    (h : s.step statements (.begin t program keys) = some s') :
    StartsApart statements s (.begin t program keys) := by
  intro stmt' hstmt'
  rw [hprogram] at hstmt'
  cases hstmt'
  intro hskips _ hmany
  have hone : stmt.scope = .one := by
    cases hstmt : stmt.scope with
    | many => exact absurd hstmt hscope
    | one => rfl
    | skips => exact absurd hstmt hskips
  rcases step_cases h with ⟨t', program', stmt', rest, keys', heq, -, hstmts, hfinds, -⟩ |
    ⟨_, _, _, _, _, heq, -⟩ | ⟨_, _, _, _, heq, -⟩ | ⟨_, _, _, _, heq, -⟩ | ⟨_, heq | heq, -⟩
  · cases heq
    rw [hprogram] at hstmts
    cases hstmts
    have hfew := hfinds.2.2 hone
    rcases hmany with hlocked | htwo
    · exact absurd rfl hlocked
    · omega
  all_goals cases heq

end Steps

/-- **No deadlock** in a run whose statements start apart, whatever programs the
transactions run and whatever keys their statements find. -/
theorem noDeadlock_of_startsApart [DecidableEq κ] (statements : π → List (Statement κ))
    (as : List (Action π κ))
    (hstarts : ∀ p ∈ (system statements).taken as, StartsApart statements p.1 p.2) :
    ∀ s ∈ (system statements).visited as, NoDeadlock statements s := by
  intro s hs
  have hinit : Owned (system statements).init ∧ Apart (system statements).init :=
    ⟨fun _ _ h => (nomatch h), fun _ _ _ _ _ h => (nomatch h)⟩
  obtain ⟨howned, hapart⟩ := StepSystem.inv_of_mem_visitedFrom (M := system statements)
    (I := fun s => Owned s ∧ Apart s) (C := StartsApart statements)
    (fun _ _ _ h hstarts hstep => ⟨h.1.step hstep, h.2.step hstarts hstep⟩) hinit hstarts s hs
  exact hapart.noDeadlock_of_owned howned

/-! ## Runs of few transactions -/

section Few

variable [DecidableEq κ] {statements : π → List (Statement κ)} {s s' : State π κ}

/-- The transaction that takes the step. -/
def Action.tx : Action π κ → ℕ
  | .begin t _ _ | .next t _ | .visit t | .pass t | .commit t | .abort t => t

/-- `JoinsApart`, with the transactions below `n` for the others. -/
def JoinsApartBelow (n : ℕ) (s : State π κ) (t : ℕ) (scope : Scope) (locked keys : List κ) : Prop :=
  scope ≠ .skips → keys ≠ [] → locked ≠ [] ∨ 2 ≤ keys.length →
    ∀ t' < n, t' ≠ t → s.ClearOf t' locked keys

instance (n : ℕ) (s : State π κ) (t : ℕ) (scope : Scope) (locked keys : List κ) :
    Decidable (JoinsApartBelow n s t scope locked keys) :=
  inferInstanceAs (Decidable (_ → _ → _ → ∀ t' < n, _ → _))

/-- `StartsApart`, with the transactions below `n` for the others: it can be
evaluated. -/
def StartsApartBelow (statements : π → List (Statement κ)) (n : ℕ) (s : State π κ) :
    Action π κ → Prop
  | .begin t program keys =>
      ∀ stmt ∈ (statements program).head?, JoinsApartBelow n s t stmt.scope [] keys
  | .next t keys =>
      ∀ tx ∈ s.txs t, ∀ stmt ∈ tx.rest.head?, JoinsApartBelow n s t stmt.scope tx.locked keys
  | _ => True

instance (n : ℕ) (s : State π κ) (a : Action π κ) :
    Decidable (StartsApartBelow statements n s a) :=
  match a with
  | .begin _ program _ => inferInstanceAs (Decidable (∀ stmt ∈ (statements program).head?, _))
  | .next t _ => inferInstanceAs (Decidable (∀ tx ∈ s.txs t, ∀ stmt ∈ tx.rest.head?, _))
  | .visit _ | .pass _ | .commit _ | .abort _ => instDecidableTrue

omit [DecidableEq κ] in
theorem JoinsApartBelow.joinsApart {n t : ℕ} {scope : Scope} {locked keys : List κ}
    (h : JoinsApartBelow n s t scope locked keys) (hfew : ∀ t, n ≤ t → s.txs t = none) :
    JoinsApart s t scope locked keys := by
  intro hskips hkeys hmany t' hne
  by_cases ht' : t' < n
  · exact h hskips hkeys hmany t' ht' hne
  · intro tx' htx'
    rw [hfew t' (not_lt.mp ht')] at htx'
    cases htx'

/-- **Step lemma.**  No transactions from `n` on come up. -/
theorem txs_eq_none_of_step {a : Action π κ} {n : ℕ} (hfew : ∀ t, n ≤ t → s.txs t = none)
    (ha : a.tx < n) (h : s.step statements a = some s') : ∀ t, n ≤ t → s'.txs t = none := by
  intro t ht
  have hupdate : ∃ new, s'.txs = Function.update s.txs a.tx new := by
    rcases step_cases h with ⟨_, _, _, _, _, rfl, -, -, -, rfl⟩ |
      ⟨_, _, _, _, _, rfl, -, -, -, -, rfl⟩ | ⟨_, _, _, _, rfl, -, -, -, rfl⟩ |
      ⟨_, _, _, _, rfl, -, -, rfl⟩ | ⟨_, rfl | rfl, rfl⟩
    all_goals exact ⟨_, rfl⟩
  obtain ⟨new, htxs⟩ := hupdate
  rw [htxs, Function.update_of_ne (by omega), hfew t ht]

/-- The condition can be checked on the transactions that a run is about. -/
theorem startsApart_of_below {n : ℕ} {as : List (Action π κ)} (htxs : ∀ a ∈ as, a.tx < n)
    (h : ∀ p ∈ (system statements).taken as, StartsApartBelow statements n p.1 p.2) :
    ∀ p ∈ (system statements).taken as, StartsApart statements p.1 p.2 := by
  intro p hp
  have hfew : ∀ t, n ≤ t → p.1.txs t = none :=
    StepSystem.inv_of_mem_taken (M := system statements)
      (I := fun s => ∀ t, n ≤ t → s.txs t = none) (C := fun _ a => a.tx < n) (fun _ _ => rfl)
      (fun _ _ _ hfew ha hstep => txs_eq_none_of_step hfew ha hstep)
      (fun q hq => htxs q.2 (StepSystem.snd_mem_of_mem_takenFrom hq)) hp
  have hcheck := h p hp
  obtain ⟨s, a⟩ := p
  cases a with
  | begin t program keys => exact fun stmt hstmt => (hcheck stmt hstmt).joinsApart hfew
  | next t keys => exact fun tx htx stmt hstmt => (hcheck tx htx stmt hstmt).joinsApart hfew
  | visit | pass | commit | abort => trivial

end Few

end LockWaits

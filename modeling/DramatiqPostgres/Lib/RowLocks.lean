import DramatiqPostgres.Lib.Runs
import DramatiqPostgres.Lib.Table
import Mathlib.Data.List.Induction

/-!
# Statements under row locks

Single-statement transactions at READ COMMITTED, at the granularity of one row
lock.  A statement reads the keys and versions of its candidate rows in a
**snapshot**, when it begins.  It then goes through them one by one: it waits
for, or skips, a row that another transaction has locked; it locks the **latest
committed version** of a row, if the row of the snapshot is still there; and it
takes the row if that version still meets its condition.  At its commit the rows
it took are written and its locks are gone; an abort only drops the locks.  An
upsert locks its key instead, whether or not a row holds it.

A row that is deleted and inserted again is another row: `ident` tells the two
apart.

### The main result

The point of the locks is `explained_of_mem_visited`: whatever the interleaving,
the committed table is what the committed statements make of the initial one
when each runs **atomically, in the order of the commits**, on rows that match
its condition at that moment (`Admissible`).  Laws about interleavings are then
laws about sequences of atomic statements, and these need no locks.

### What the model keeps, and what it leaves open

* **The order of a scan** is part of the action that begins it: any order of the
  keys that match in the snapshot which goes along `before`, the ORDER BY of the
  statement if it has one.  So a law holds of every plan the server can choose.
* **The snapshot is not the truth.**  A candidate's version may be old by the
  time it is visited; the condition is evaluated again on the version that gets
  locked, and it is that version which is written.  This is what makes two
  updates of one row come one after the other.
* **Waiting is not a state.**  A statement that waits has a next row it cannot
  lock, and no step; who waits for whom can be read off the locks.

### What is load-bearing

The invariant `Ok` ties three things together for each transaction (`TxOk`): its
locks are its own, the rows it took are the committed rows of keys it has
locked, and they meet its condition.  A commit touches locked keys only
(`find?_effect_of_not_mem`), and two transactions never have locked the same
key, so the facts about all others survive it (`TxOk.frame`).  Without the
re-evaluation at the lock the third clause would fail, and a commit would not be
`Admissible`.
-/

universe u v w

namespace RowLocks

variable {ρ : Type u} {κ : Type v} {σ : Type w} {key : ρ → κ} {ident : ρ → ℕ}

/-- What a statement does to a table: it goes through rows and writes or deletes
them, or it inserts a row unless its key is taken.  `hwrite` and `hset` say that
no write changes a key, so a lock on a key stays a lock on the row. -/
inductive Plan (key : ρ → κ) where
  /-- Write, or delete, the rows that meet `cond`: the first `limit` of them in
  the order `before`, if there is a limit. -/
  | scan (cond : ρ → Bool) (before : ρ → ρ → Bool) (limit : Option ℕ) (skipLocked : Bool)
      (write : ρ → Option ρ) (hwrite : ∀ r r', write r = some r' → key r' = key r)
  /-- Insert `row`, or `set` the row that has its key. -/
  | upsert (row : ρ) (set : ρ → ρ) (hset : ∀ r, key (set r) = key r)

/-- A transaction in progress: what it has still to visit, what it has locked,
and what it will write. -/
structure Tx (σ : Type w) (ρ : Type u) (κ : Type v) where
  stmt : σ
  /-- Candidates not visited yet, as the snapshot has them. -/
  pending : List ρ
  locked : List κ
  /-- The rows that will be written, in the version that was locked. -/
  taken : List ρ

/-- A committed statement and the rows it wrote, in the version that was
locked. -/
structure Event (σ : Type w) (ρ : Type u) where
  stmt : σ
  taken : List ρ

/-- The committed table, the transactions in progress and the commits so far.
The log is a history variable: no step reads it, and laws are about it. -/
structure State (σ : Type w) (key : ρ → κ) where
  committed : Table ρ key
  txs : ℕ → Option (Tx σ ρ κ)
  /-- The transaction that holds the lock of a key. -/
  locks : κ → Option ℕ
  log : List (Event σ ρ)

/-- One step of one transaction.  `order` lists the keys of the candidates in
the order the statement visits them. -/
inductive Action (σ : Type w) (κ : Type v) where
  | start (t : ℕ) (stmt : σ) (order : List κ)
  | lock (t : ℕ)
  | commit (t : ℕ)
  | abort (t : ℕ)

section Step

variable [DecidableEq κ]

/-- A statement that has taken all the rows it may. -/
def full (limit : Option ℕ) (taken : List ρ) : Bool := limit.any fun n => n ≤ taken.length

/-- Nothing is left to lock: a scan has visited all its candidates or reached
its limit, an upsert has its key. -/
def Tx.isDone (p : Plan key) (tx : Tx σ ρ κ) : Bool :=
  match p with
  | .scan _ _ limit _ _ _ => tx.pending.isEmpty || full limit tx.taken
  | .upsert row _ _ => key row ∈ tx.locked

/-- The table after a statement has written the rows it took, in the versions it
has locked. -/
def effect (p : Plan key) (taken : List ρ) (table : Table ρ key) : Table ρ key :=
  match p with
  | .scan _ _ _ _ write hwrite =>
      table.alter
        (fun r => match taken.find? fun v => key v = key r with
          | some v => write v
          | none => some r) <| by
        intro r r' h
        split at h
        · next v hv =>
            have hkey : key v = key r := by simpa using List.find?_some hv
            rw [hwrite v r' h, hkey]
        · rw [Option.some_inj.mp h]
  | .upsert row set hset => table.upsert row set hset

namespace State

/-- A fresh session on a table. -/
def start (table : Table ρ key) : State σ key := ⟨table, fun _ => none, fun _ => none, []⟩

/-- Replace a transaction. -/
def setTx (s : State σ key) (t : ℕ) (tx : Option (Tx σ ρ κ)) : State σ key :=
  { s with txs := Function.update s.txs t tx }

/-- Drop the locks of a transaction. -/
def release (s : State σ key) (t : ℕ) : State σ key :=
  { s with locks := fun k => if s.locks k = some t then none else s.locks k }

/-- A transaction begins, and its statement reads its snapshot. -/
def begin (plan : σ → Plan key) (s : State σ key) (t : ℕ) (stmt : σ) (order : List κ) :
    Option (State σ key) :=
  match s.txs t, plan stmt with
  | none, .scan cond before _ _ _ _ =>
      let candidates := order.filterMap s.committed.find?
      if order.Perm ((s.committed.rows.filter cond).map key) ∧
          candidates.Pairwise (fun r r' => before r r' = true) then
        some (s.setTx t (some ⟨stmt, candidates, [], []⟩))
      else none
  | none, .upsert _ _ _ => some (s.setTx t (some ⟨stmt, [], [], []⟩))
  | some _, _ => none

/-- The next candidate of a scan: it is passed over, locked and taken, or locked
and left; and there is no step while another transaction has it locked. -/
def visit (ident : ρ → ℕ) (cond : ρ → Bool) (skipLocked : Bool) (s : State σ key) (t : ℕ)
    (tx : Tx σ ρ κ) (r : ρ) (rest : List ρ) : Option (State σ key) :=
  match s.locks (key r) with
  | some _ =>
      -- Locked by another transaction: skipped, or waited for.
      if skipLocked then some (s.setTx t (some { tx with pending := rest })) else none
  | none =>
      match s.committed.find? (key r) with
      | none => some (s.setTx t (some { tx with pending := rest }))
      | some v =>
          if ident v = ident r then
            some { s.setTx t (some { tx with
                pending := rest
                locked := key r :: tx.locked
                taken := if cond v then tx.taken ++ [v] else tx.taken }) with
              locks := Function.update s.locks (key r) (some t) }
          else some (s.setTx t (some { tx with pending := rest }))

/-- A transaction locks, or passes over, one row.  The condition is evaluated on
the version that is committed now. -/
def lock (ident : ρ → ℕ) (plan : σ → Plan key) (s : State σ key) (t : ℕ) (tx : Tx σ ρ κ) :
    Option (State σ key) :=
  if tx.isDone (plan tx.stmt) then none
  else
    match plan tx.stmt with
    | .scan cond _ _ skipLocked _ _ =>
        match tx.pending with
        | [] => none
        | r :: rest => s.visit ident cond skipLocked t tx r rest
    | .upsert row _ _ =>
        if s.locks (key row) = none then
          some { s.setTx t (some { tx with
              locked := [key row]
              taken := (s.committed.find? (key row)).toList }) with
            locks := Function.update s.locks (key row) (some t) }
        else none

/-- A transaction that has nothing left to lock writes its rows and ends. -/
def commit (plan : σ → Plan key) (s : State σ key) (t : ℕ) (tx : Tx σ ρ κ) :
    Option (State σ key) :=
  if tx.isDone (plan tx.stmt) then
    some { (s.setTx t none).release t with
      committed := effect (plan tx.stmt) tx.taken s.committed
      log := s.log ++ [⟨tx.stmt, tx.taken⟩] }
  else none

/-- The state after a step. -/
def step (ident : ρ → ℕ) (plan : σ → Plan key) (s : State σ key) :
    Action σ κ → Option (State σ key)
  | .start t stmt order => s.begin plan t stmt order
  | .lock t => (s.txs t).bind fun tx => s.lock ident plan t tx
  | .commit t => (s.txs t).bind fun tx => s.commit plan t tx
  | .abort t => (s.txs t).map fun _ => (s.setTx t none).release t

end State

/-- Every interleaving of any number of transactions on `table`. -/
def system (ident : ρ → ℕ) (plan : σ → Plan key) (table : Table ρ key) :
    StepSystem (State σ key) (Action σ κ) :=
  ⟨State.start table, State.step ident plan⟩

/-! ## Atomic statements -/

/-- What a statement may have taken when it runs atomically on `table`:
different rows of the table that meet its condition, no more than its limit.
Which of the rows that meet it is left open, since a statement that skips locked
rows takes what it can get. -/
def Admissible (p : Plan key) (taken : List ρ) (table : Table ρ key) : Prop :=
  match p with
  | .scan cond _ limit _ _ _ =>
      (∀ v ∈ taken, table.find? (key v) = some v ∧ cond v = true) ∧ (taken.map key).Nodup ∧
        ∀ n ∈ limit, taken.length ≤ n
  | .upsert row _ _ => taken = (table.find? (key row)).toList

/-- The table is what the committed statements make of `table`, atomically and
in order.  Each of them took rows it may take in the state it found
(`Admissible`). -/
inductive Explained (plan : σ → Plan key) (table : Table ρ key) :
    List (Event σ ρ) → Table ρ key → Prop where
  | nil : Explained plan table [] table
  | snoc {log : List (Event σ ρ)} {table' : Table ρ key} (e : Event σ ρ) :
      Explained plan table log table' → Admissible (plan e.stmt) e.taken table' →
        Explained plan table (log ++ [e]) (effect (plan e.stmt) e.taken table')

/-- The row of a key after a scan. -/
theorem find?_effect_scan {cond : ρ → Bool} {before : ρ → ρ → Bool} {limit : Option ℕ}
    {skipLocked : Bool} {write : ρ → Option ρ}
    {hwrite : ∀ r r', write r = some r' → key r' = key r} {taken : List ρ} {table : Table ρ key}
    (h : Admissible (.scan cond before limit skipLocked write hwrite) taken table) (k : κ) :
    (effect (.scan cond before limit skipLocked write hwrite) taken table).find? k
      = (table.find? k).bind fun r => if k ∈ taken.map key then write r else some r := by
  rw [effect, Table.find?_alter]
  cases hr : table.find? k with
  | none => rfl
  | some r =>
      have hkey : key r = k := Table.key_of_find? hr
      simp only [Option.bind_some]
      cases hv : taken.find? fun v => key v = key r with
      | none =>
          have hnot : k ∉ taken.map key := by
            intro hk
            obtain ⟨v, hv', hvk⟩ := List.mem_map.mp hk
            have := List.find?_eq_none.mp hv v hv'
            simp [hvk, hkey] at this
          rw [if_neg hnot]
      | some v =>
          have hmem := List.mem_of_find?_eq_some hv
          have hvk : key v = key r := by simpa using List.find?_some hv
          -- The row that was locked is the row of the table.
          have hsame : v = r := by
            have hfind := (h.1 v hmem).1
            rw [hvk, hkey, hr, Option.some_inj] at hfind
            exact hfind.symm
          rw [if_pos (List.mem_map.mpr ⟨v, hmem, hvk.trans hkey⟩), hsame]

/-- A statement leaves the rows of the keys it has not locked alone.  This is
the frame of a commit. -/
theorem find?_effect_of_not_mem {p : Plan key} {taken : List ρ} {table : Table ρ key} {k : κ}
    (hscan : k ∉ taken.map key)
    (hupsert : ∀ row set hset, p = .upsert row set hset → k ≠ key row) :
    (effect p taken table).find? k = table.find? k := by
  cases p with
  | scan cond before limit skipLocked write hwrite =>
      rw [effect, Table.find?_alter]
      cases hr : table.find? k with
      | none => rfl
      | some r =>
          have hnone : (taken.find? fun v => key v = key r) = none := by
            rw [List.find?_eq_none]
            intro v hv
            rw [Table.key_of_find? hr]
            simpa using fun hk => hscan (List.mem_map.mpr ⟨v, hv, hk⟩)
          simp [hnone]
  | upsert row set hset => rw [effect, Table.find?_upsert, if_neg (hupsert row set hset rfl)]

/-! ## Sequences of atomic statements -/

theorem Explained.of_concat {plan : σ → Plan key} {table final : Table ρ key}
    {log : List (Event σ ρ)} {e : Event σ ρ} (h : Explained plan table (log ++ [e]) final) :
    ∃ table', Explained plan table log table' ∧ Admissible (plan e.stmt) e.taken table' ∧
      final = effect (plan e.stmt) e.taken table' := by
  generalize hlog : log ++ [e] = log' at h
  cases h with
  | nil => simp at hlog
  | snoc e' hexplained hadmissible =>
      obtain ⟨rfl, he⟩ := List.append_inj' hlog rfl
      rw [List.cons.injEq] at he
      obtain ⟨rfl, -⟩ := he
      exact ⟨_, hexplained, hadmissible, rfl⟩

theorem Explained.of_append {plan : σ → Plan key} {table final : Table ρ key}
    {log rest : List (Event σ ρ)} (h : Explained plan table (log ++ rest) final) :
    ∃ table', Explained plan table log table' := by
  induction rest using List.reverseRecOn generalizing final with
  | nil => exact ⟨final, by simpa using h⟩
  | append_singleton rest e ih =>
      rw [← List.append_assoc] at h
      obtain ⟨table', h, -, -⟩ := h.of_concat
      exact ih h

/-- **What lies between two events.**  If `start` brings about `P`, only `back`
ends it, and `stop` cannot happen under it, then between a `start` and a `stop`
there is a `back`.  The induction goes back from the `stop`, along the events
between. -/
theorem Explained.exists_between {plan : σ → Plan key} {table final : Table ρ key}
    (P : Table ρ key → Prop) (start stop back : Event σ ρ → Prop)
    (hstart : ∀ e table, start e → Admissible (plan e.stmt) e.taken table →
      P (effect (plan e.stmt) e.taken table))
    (hkeep : ∀ e table, P table → ¬ back e → Admissible (plan e.stmt) e.taken table →
      P (effect (plan e.stmt) e.taken table))
    (hstop : ∀ e table, stop e → Admissible (plan e.stmt) e.taken table → ¬ P table)
    {before : List (Event σ ρ)} {e₁ : Event σ ρ} {between : List (Event σ ρ)} {e₂ : Event σ ρ}
    {after : List (Event σ ρ)}
    (h : Explained plan table (before ++ e₁ :: (between ++ e₂ :: after)) final)
    (h₁ : start e₁) (h₂ : stop e₂) : ∃ e ∈ between, back e := by
  by_contra hnone
  push Not at hnone
  -- Under the assumption `P` holds after every part of `between`.
  have hP : ∀ (part : List (Event σ ρ)), (∀ e ∈ part, ¬ back e) → ∀ table',
      Explained plan table (before ++ e₁ :: part) table' → P table' := by
    intro part
    induction part using List.reverseRecOn with
    | nil =>
        intro _ table' hpart
        obtain ⟨table₀, -, hadmissible, rfl⟩ := hpart.of_concat
        exact hstart e₁ table₀ h₁ hadmissible
    | append_singleton part e ih =>
        intro hback table' hpart
        rw [← List.cons_append, ← List.append_assoc] at hpart
        obtain ⟨table₀, hshorter, hadmissible, rfl⟩ := hpart.of_concat
        refine hkeep e table₀ (ih (fun e' he' => ?_) table₀ hshorter) ?_ hadmissible
        · exact hback e' (List.mem_append_left _ he')
        · exact hback e (List.mem_append_right _ (List.mem_singleton_self e))
  have hsplit : before ++ e₁ :: (between ++ e₂ :: after)
      = ((before ++ e₁ :: between) ++ [e₂]) ++ after := by simp
  rw [hsplit] at h
  obtain ⟨table₂, h⟩ := h.of_append
  obtain ⟨table₁, h, hadmissible, -⟩ := h.of_concat
  exact hstop e₂ table₁ h₂ hadmissible (hP between hnone table₁ h)

/-! ## The invariant of the locks -/

/-- What is known of a transaction in progress: it has its locks, what it took
are committed rows of keys it has locked, they meet its condition, and they are
as many as its limit admits. -/
structure TxOk (plan : σ → Plan key) (s : State σ key) (t : ℕ) (tx : Tx σ ρ κ) : Prop where
  locked : ∀ k ∈ tx.locked, s.locks k = some t
  taken : ∀ v ∈ tx.taken, key v ∈ tx.locked ∧ s.committed.find? (key v) = some v
  scan : ∀ cond before limit skipLocked write hwrite,
    plan tx.stmt = .scan cond before limit skipLocked write hwrite →
      (∀ v ∈ tx.taken, cond v = true) ∧ ((tx.taken ++ tx.pending).map key).Nodup ∧
        ∀ n ∈ limit, tx.taken.length ≤ n
  upsert : ∀ row set hset, plan tx.stmt = .upsert row set hset →
    key row ∈ tx.locked → tx.taken = (s.committed.find? (key row)).toList

/-- Locks protect what was taken, and the commits explain the table.  The second
clause is the main result, and the first is what makes it inductive. -/
structure Ok (plan : σ → Plan key) (table : Table ρ key) (s : State σ key) : Prop where
  txs : ∀ t tx, s.txs t = some tx → TxOk plan s t tx
  explained : Explained plan table s.log s.committed

variable {plan : σ → Plan key} {table : Table ρ key} {s s' : State σ key} {t : ℕ}
  {tx : Tx σ ρ κ}

theorem ok_start : Ok plan table (State.start table) := by
  refine ⟨fun t tx h => ?_, .nil⟩
  cases h

/-- **A transaction is only concerned by the keys it has locked.**  Any change
of the state that leaves its locks and the rows under them alone leaves what is
known of it alone. -/
theorem TxOk.frame (h : TxOk plan s t tx) (hlocks : ∀ k ∈ tx.locked, s'.locks k = some t)
    (hrows : ∀ k ∈ tx.locked, s'.committed.find? k = s.committed.find? k) :
    TxOk plan s' t tx := by
  refine ⟨hlocks, fun v hv => ?_, h.scan, fun row set hset hplan hmem => ?_⟩
  · obtain ⟨hmem, hfind⟩ := h.taken v hv
    exact ⟨hmem, by rw [hrows _ hmem, hfind]⟩
  · rw [hrows _ hmem]
    exact h.upsert row set hset hplan hmem

/-- What a finished transaction took is admissible at its commit. -/
theorem TxOk.admissible (h : TxOk plan s t tx) (hdone : tx.isDone (plan tx.stmt) = true) :
    Admissible (plan tx.stmt) tx.taken s.committed := by
  cases hplan : plan tx.stmt with
  | scan cond before limit skipLocked write hwrite =>
      obtain ⟨hcond, hnodup, hlimit⟩ := h.scan _ _ _ _ _ _ hplan
      rw [List.map_append, List.nodup_append] at hnodup
      exact ⟨fun v hv => ⟨(h.taken v hv).2, hcond v hv⟩, hnodup.1, hlimit⟩
  | upsert row set hset =>
      rw [hplan, Tx.isDone, decide_eq_true_eq] at hdone
      exact h.upsert row set hset hplan hdone

/-- One transaction moves on: it stays in order, and so do all others. -/
theorem Ok.setTx (hok : Ok plan table s) (htxs : s'.txs = Function.update s.txs t (some tx))
    (hcommitted : s'.committed = s.committed) (hlog : s'.log = s.log)
    (hlocks : ∀ t' k, t' ≠ t → s.locks k = some t' → s'.locks k = some t')
    (htx : TxOk plan s' t tx) : Ok plan table s' := by
  refine ⟨fun t' tx' h => ?_, by rw [hcommitted, hlog]; exact hok.explained⟩
  rw [htxs] at h
  by_cases ht : t' = t
  · rw [ht, Function.update_self, Option.some_inj] at h
    rw [ht, ← h]
    exact htx
  · rw [Function.update_of_ne ht] at h
    have hother := hok.txs t' tx' h
    exact hother.frame (fun k hk => hlocks t' k ht (hother.locked k hk))
      fun k _ => by rw [hcommitted]

/-- A transaction ends: the locks of the others stay, and so do their rows. -/
theorem Ok.endTx (hok : Ok plan table s) (htxs : s'.txs = Function.update s.txs t none)
    (hlocks : ∀ t' k, t' ≠ t → s.locks k = some t' → s'.locks k = some t')
    (hrows : ∀ t' k, t' ≠ t → s.locks k = some t' →
      s'.committed.find? k = s.committed.find? k)
    (hexplained : Explained plan table s'.log s'.committed) : Ok plan table s' := by
  refine ⟨fun t' tx' h => ?_, hexplained⟩
  rw [htxs] at h
  by_cases ht : t' = t
  · rw [ht, Function.update_self] at h
    cases h
  · rw [Function.update_of_ne ht] at h
    have hother := hok.txs t' tx' h
    exact hother.frame (fun k hk => hlocks t' k ht (hother.locked k hk))
      fun k hk => hrows t' k ht (hother.locked k hk)

omit [DecidableEq κ] in
theorem locks_release {t' : ℕ} {k : κ} (ht : t' ≠ t) (h : s.locks k = some t') :
    (s.release t).locks k = some t' := by
  show (if s.locks k = some t then none else s.locks k) = some t'
  rw [h, if_neg fun heq => ht (Option.some_inj.mp heq)]

/-! ## The steps -/

theorem ok_begin {stmt : σ} {order : List κ} (hok : Ok plan table s)
    (h : s.begin plan t stmt order = some s') : Ok plan table s' := by
  unfold State.begin at h
  split at h
  · next cond before limit skipLocked write hwrite htx hplan =>
      simp only at h
      split_ifs at h with hguard
      cases h
      refine hok.setTx rfl rfl rfl (fun _ _ _ h => h) ⟨?_, ?_, ?_, ?_⟩
      · intro k hk
        cases hk
      · intro v hv
        cases hv
      · intro cond' before' limit' skipLocked' write' hwrite' _
        refine ⟨fun v hv => absurd hv List.not_mem_nil, ?_, fun n _ => Nat.zero_le n⟩
        -- The candidates have the keys of `order`, which are keys of different rows.
        have hkeys := s.committed.map_filterMap_find?_sublist order
        have hnodup : order.Nodup :=
          hguard.1.nodup_iff.mpr ((List.filter_sublist.map key).nodup s.committed.nodup)
        simpa using hkeys.nodup hnodup
      · intro row set hset _ hk
        cases hk
  · next row set hset htx hplan =>
      cases h
      refine hok.setTx rfl rfl rfl (fun _ _ _ h => h) ⟨?_, ?_, ?_, ?_⟩
      · intro k hk
        cases hk
      · intro v hv
        cases hv
      · intro cond before limit skipLocked write hwrite hscan
        rw [hplan] at hscan
        cases hscan
      · intro row' set' hset' _ hk
        cases hk
  · cases h

/-- A scan that passes over a candidate. -/
theorem TxOk.pass {r : ρ} {rest : List ρ} (h : TxOk plan s t tx)
    (hpending : tx.pending = r :: rest) : TxOk plan s t { tx with pending := rest } := by
  refine ⟨h.locked, h.taken, fun cond before limit skipLocked write hwrite hplan => ?_, h.upsert⟩
  obtain ⟨hcond, hnodup, hlimit⟩ := h.scan _ _ _ _ _ _ hplan
  refine ⟨hcond, hnodup.sublist (List.Sublist.map key ?_), hlimit⟩
  rw [hpending]
  exact (List.sublist_cons_self r rest).append_left tx.taken

theorem ok_pass {r : ρ} {rest : List ρ} (hok : Ok plan table s) (htx : s.txs t = some tx)
    (hpending : tx.pending = r :: rest) :
    Ok plan table (s.setTx t (some { tx with pending := rest })) := by
  refine hok.setTx rfl rfl rfl (fun _ _ _ h => h) ?_
  exact ((hok.txs t tx htx).pass hpending).frame (hok.txs t tx htx).locked fun _ _ => rfl

/-- A scan that locks a candidate, and takes it if it still meets the
condition. -/
theorem ok_take {cond : ρ → Bool} {before : ρ → ρ → Bool} {limit : Option ℕ} {skipLocked : Bool}
    {write : ρ → Option ρ} {hwrite : ∀ r r', write r = some r' → key r' = key r} {r v : ρ}
    {rest : List ρ} (hok : Ok plan table s) (htx : s.txs t = some tx)
    (hplan : plan tx.stmt = .scan cond before limit skipLocked write hwrite)
    (hdone : tx.isDone (plan tx.stmt) = false) (hpending : tx.pending = r :: rest)
    (hfree : s.locks (key r) = none) (hv : s.committed.find? (key r) = some v) :
    Ok plan table
      { s.setTx t (some { tx with
          pending := rest
          locked := key r :: tx.locked
          taken := if cond v then tx.taken ++ [v] else tx.taken }) with
        locks := Function.update s.locks (key r) (some t) } := by
  have hold := hok.txs t tx htx
  have hvr : key v = key r := Table.key_of_find? hv
  obtain ⟨hcond, hnodup, hlimit⟩ := hold.scan _ _ _ _ _ _ hplan
  refine hok.setTx rfl rfl rfl ?_ ⟨?_, ?_, ?_, ?_⟩
  · -- The lock was free, so no other transaction loses one.
    intro t' k _ hk
    have hne : k ≠ key r := by
      rintro rfl
      rw [hfree] at hk
      cases hk
    show Function.update s.locks (key r) (some t) k = some t'
    rw [Function.update_of_ne hne, hk]
  · intro k hk
    show Function.update s.locks (key r) (some t) k = some t
    by_cases hkr : k = key r
    · rw [hkr, Function.update_self]
    · rw [Function.update_of_ne hkr]
      exact hold.locked k ((List.mem_cons.mp hk).resolve_left hkr)
  · intro w hw
    have hcases : w ∈ tx.taken ∨ w = v := by
      simp only at hw
      split_ifs at hw
      · simpa using hw
      · exact Or.inl hw
    rcases hcases with hw | rfl
    · obtain ⟨hmem, hfind⟩ := hold.taken w hw
      exact ⟨List.mem_cons_of_mem _ hmem, hfind⟩
    · exact ⟨by rw [hvr]; exact List.mem_cons_self, by rw [hvr]; exact hv⟩
  · intro cond' before' limit' skipLocked' write' hwrite' hplan'
    rw [hplan] at hplan'
    cases hplan'
    rw [hpending] at hnodup
    by_cases hmatch : cond v = true
    · simp only [hmatch, if_true]
      refine ⟨?_, ?_, ?_⟩
      · intro w hw
        rcases List.mem_append.mp hw with hw | hw
        · exact hcond w hw
        · rw [List.mem_singleton.mp hw, hmatch]
      · simpa [hvr] using hnodup
      · intro n hn
        rw [hplan, Tx.isDone, Bool.or_eq_false_iff] at hdone
        have hfull := hdone.2
        rw [Option.mem_def.mp hn, full, Option.any_some, decide_eq_false_iff_not] at hfull
        simp only [List.length_append, List.length_singleton]
        omega
    · simp only [hmatch, Bool.false_eq_true, if_false]
      refine ⟨hcond, hnodup.sublist (List.Sublist.map key ?_), hlimit⟩
      exact (List.sublist_cons_self r rest).append_left tx.taken
  · intro row set hset hplan'
    rw [hplan] at hplan'
    cases hplan'

theorem ok_lock (hok : Ok plan table s) (htx : s.txs t = some tx)
    (h : s.lock ident plan t tx = some s') : Ok plan table s' := by
  unfold State.lock at h
  split_ifs at h with hdone
  rw [Bool.not_eq_true] at hdone
  split at h
  · next cond before limit skipLocked write hwrite hplan =>
      split at h
      · cases h
      · next r rest hpending =>
          unfold State.visit at h
          split at h
          · split_ifs at h
            cases h
            exact ok_pass hok htx hpending
          · next hfree =>
              split at h
              · cases h
                exact ok_pass hok htx hpending
              · next v hv =>
                  by_cases hident : ident v = ident r
                  · rw [if_pos hident] at h
                    cases h
                    exact ok_take hok htx hplan hdone hpending hfree hv
                  · rw [if_neg hident] at h
                    cases h
                    exact ok_pass hok htx hpending
  · next row set hset hplan =>
      split_ifs at h with hfree
      cases h
      refine hok.setTx rfl rfl rfl ?_ ⟨?_, ?_, ?_, ?_⟩
      · intro t' k _ hk
        have hne : k ≠ key row := by
          rintro rfl
          rw [hfree] at hk
          cases hk
        show Function.update s.locks (key row) (some t) k = some t'
        rw [Function.update_of_ne hne, hk]
      · intro k hk
        rw [List.mem_singleton.mp hk]
        exact Function.update_self ..
      · intro v hv
        have hfind : s.committed.find? (key row) = some v := by simpa using hv
        rw [Table.key_of_find? hfind]
        exact ⟨List.mem_singleton_self _, hfind⟩
      · intro cond before limit skipLocked write hwrite hplan'
        rw [hplan] at hplan'
        cases hplan'
      · intro row' set' hset' hplan' _
        rw [hplan] at hplan'
        cases hplan'
        rfl

/-- **A commit is one atomic statement**, and touches no row that another
transaction has locked.  The first half extends the explanation of the table by
one event, the second keeps what is known of all others. -/
theorem ok_commit (hok : Ok plan table s) (htx : s.txs t = some tx)
    (h : s.commit plan t tx = some s') : Ok plan table s' := by
  unfold State.commit at h
  split_ifs at h with hdone
  cases h
  have hold := hok.txs t tx htx
  refine hok.endTx rfl (fun t' k ht hk => locks_release ht hk) ?_
    (.snoc ⟨tx.stmt, tx.taken⟩ hok.explained (hold.admissible hdone))
  intro t' k ht hk
  -- The key is locked by another transaction, so by none of the keys written here.
  have hnot : k ∉ tx.locked := by
    intro hmem
    rw [hold.locked k hmem] at hk
    exact ht (Option.some_inj.mp hk).symm
  refine find?_effect_of_not_mem ?_ ?_
  · intro hmem
    obtain ⟨v, hv, rfl⟩ := List.mem_map.mp hmem
    exact hnot (hold.taken v hv).1
  · rintro row set hset hplan rfl
    rw [hplan, Tx.isDone, decide_eq_true_eq] at hdone
    exact hnot hdone

theorem ok_abort (hok : Ok plan table s) : Ok plan table ((s.setTx t none).release t) :=
  hok.endTx rfl (fun _ _ ht hk => locks_release (s := s.setTx t none) ht hk) (fun _ _ _ _ => rfl)
    hok.explained

/-- **Step lemma.**  By the kind of the step; only a commit has something to
show for the table. -/
theorem ok_step {a : Action σ κ} (hok : Ok plan table s) (h : s.step ident plan a = some s') :
    Ok plan table s' := by
  cases a with
  | start t stmt order => exact ok_begin hok h
  | lock t =>
      obtain ⟨tx, htx, h⟩ := Option.bind_eq_some_iff.mp h
      exact ok_lock hok htx h
  | commit t =>
      obtain ⟨tx, htx, h⟩ := Option.bind_eq_some_iff.mp h
      exact ok_commit hok htx h
  | abort t =>
      obtain ⟨tx, -, rfl⟩ := Option.map_eq_some_iff.mp h
      exact ok_abort hok

/-- **Row locks make statements atomic.**  In every state of every interleaving,
the committed table is what the committed statements make of the initial one,
one after the other, in the order of their commits. -/
theorem explained_of_mem_visited {as : List (Action σ κ)}
    (h : s ∈ (system ident plan table).visited as) : Explained plan table s.log s.committed :=
  (StepSystem.inv_of_mem_visited (I := Ok plan table) ok_start
    (fun _ _ _ hok hstep => ok_step hok hstep) h).explained

/-- The invariant of every interleaving. -/
theorem ok_of_reachable (h : (system ident plan table).Reachable s) : Ok plan table s :=
  h.inv (I := Ok plan table) ok_start fun _ _ _ hok hstep => ok_step hok hstep

/-- **Only a commit changes the table**: it writes what the transaction took. -/
theorem committed_cases {a : Action σ κ} (h : s.step ident plan a = some s') :
    s'.committed = s.committed ∧ (∀ t, a ≠ .commit t) ∨
      ∃ t tx, a = .commit t ∧ s.txs t = some tx ∧ tx.isDone (plan tx.stmt) = true ∧
        s'.committed = effect (plan tx.stmt) tx.taken s.committed := by
  cases a with
  | start t stmt order =>
      refine Or.inl ⟨?_, fun _ hcommit => by cases hcommit⟩
      simp only [State.step, State.begin] at h
      split at h
      · split_ifs at h
        cases h
        rfl
      · cases h
        rfl
      · cases h
  | lock t =>
      refine Or.inl ⟨?_, fun _ hcommit => by cases hcommit⟩
      obtain ⟨tx, -, h⟩ := Option.bind_eq_some_iff.mp h
      unfold State.lock at h
      split_ifs at h
      split at h
      · split at h
        · cases h
        · unfold State.visit at h
          split at h
          · split_ifs at h
            cases h
            rfl
          · split at h
            · cases h
              rfl
            · split_ifs at h <;> cases h <;> rfl
      · split_ifs at h
        cases h
        rfl
  | commit t =>
      obtain ⟨tx, htx, h⟩ := Option.bind_eq_some_iff.mp h
      unfold State.commit at h
      split_ifs at h with hdone
      cases h
      exact Or.inr ⟨t, tx, rfl, htx, hdone, rfl⟩
  | abort t =>
      obtain ⟨tx, -, rfl⟩ := Option.map_eq_some_iff.mp h
      exact Or.inl ⟨rfl, fun _ hcommit => by cases hcommit⟩

/-- Where a row of the table after a statement comes from. -/
inductive Origin (p : Plan key) (table : Table ρ key) (r' : ρ) : Prop where
  | kept (h : r' ∈ table)
  | written {cond before limit skipLocked write hwrite}
      (hplan : p = .scan cond before limit skipLocked write hwrite) (r : ρ) (h : r ∈ table)
      (hcond : cond r = true) (hset : write r = some r')
  | inserted {row set hset} (hplan : p = .upsert row set hset) (h : r' = row)
      (hnew : table.find? (key row) = none)
  | updated {row set hset} (hplan : p = .upsert row set hset) (r : ρ) (h : r ∈ table)
      (hkey : key r = key row) (hrow : r' = set r)

/-- **A statement keeps a row, or writes it as its plan says.**  So an invariant
of rows is kept by a commit if the writes of its plan keep it. -/
theorem origin_of_mem_effect {p : Plan key} {taken : List ρ} {table : Table ρ key} {r' : ρ}
    (hadmissible : Admissible p taken table) (h : r' ∈ effect p taken table) :
    Origin p table r' := by
  have hfind := Table.find?_key h
  cases p with
  | scan cond before limit skipLocked write hwrite =>
      rw [find?_effect_scan hadmissible, Option.bind_eq_some_iff] at hfind
      obtain ⟨r, hr, hset⟩ := hfind
      split_ifs at hset with hmem
      · obtain ⟨v, hv, hkey⟩ := List.mem_map.mp hmem
        obtain ⟨hv, hcond⟩ := hadmissible.1 v hv
        rw [hkey, hr, Option.some_inj] at hv
        subst hv
        exact .written rfl r (Table.mem_of_find? hr) hcond hset
      · cases hset
        exact .kept (Table.mem_of_find? hr)
  | upsert row set hset =>
      rw [effect, Table.find?_upsert] at hfind
      split_ifs at hfind with hkey
      · cases hrow : table.find? (key r') with
        | none =>
            rw [hrow, Option.elim_none, Option.some_inj] at hfind
            exact .inserted rfl hfind.symm (hkey ▸ hrow)
        | some r =>
            rw [hrow, Option.elim_some, Option.some_inj] at hfind
            exact .updated rfl r (Table.mem_of_find? hrow) ((Table.key_of_find? hrow).trans hkey)
              hfind.symm
      · exact .kept (Table.mem_of_find? hfind)

end Step

end RowLocks

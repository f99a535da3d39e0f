import DramatiqPostgres.Lib.LockWaits
import DramatiqPostgres.Lib.RowLocks

/-!
# The steps of statements under row locks

What a step of `RowLocks.system` does to the transactions and to the locks,
apart from what it does to the rows.  `begin_cases` and `lock_cases` say it of
the two steps that neither end nor abort a transaction, and `stmt_cases` follows
a transaction back to the step it began with.

## Locks without rows

`maps_lockWaits` forgets the rows: every run of `RowLocks.system` is a run of
`LockWaits.system`, whose transactions have one statement each and find the keys
of their candidates.  So whatever holds of the waiting there, whichever keys a
statement finds, holds of the waiting here.

What is forgotten is what decides whether a row is locked or passed over: the
versions, the conditions and the limit.  There a statement may pass over any key
that nobody else has locked, so all these decisions are among its steps.

The two systems differ in how they record an upsert.  Here it has no candidates,
and wants the key of its row until it has locked it; there that key is what it
is after.  A scan that stops at a limit leaves candidates behind; it may, since
such a scan skips locked rows (`Locks`).

## What a statement's plan has to do with its scope

`Locks` says it: a plan that skips locked rows has the scope that does, only
such a plan has a limit, and a statement after one row has a condition that
fixes the key.  It is the hypothesis of the map, and each statement of a program
meets it by its SQL.
-/

universe u v w

namespace RowLocks

open LockWaits (Statement)

variable {ρ : Type u} {κ : Type v} {σ : Type w} {key : ρ → κ} {ident : ρ → ℕ} [DecidableEq κ]
  {plan : σ → Plan key} {table : Table ρ key} {s s' : State σ key} {t : ℕ} {tx : Tx σ ρ κ}

/-! ## What a step does -/

/-- What a scan finds when it begins: the rows of these keys, in the version
that is committed then. -/
def candidates (s : State σ key) (order : List κ) : List ρ := order.filterMap s.committed.find?

/-- The candidates of a scan meet its condition, and have different keys, since
the order in which they are found is a permutation of the rows that meet it. -/
theorem of_candidates {cond : ρ → Bool} {order : List κ}
    (horder : order.Perm ((s.committed.rows.filter cond).map key)) :
    ((candidates s order).map key).Nodup ∧
      ∀ k ∈ (candidates s order).map key, ∃ r, cond r = true ∧ key r = k := by
  have hsub := s.committed.map_filterMap_find?_sublist order
  have hnodup : order.Nodup :=
    horder.nodup_iff.mpr ((List.filter_sublist.map key).nodup s.committed.nodup)
  refine ⟨hsub.nodup hnodup, fun k hk => ?_⟩
  obtain ⟨r, hr, rfl⟩ := List.mem_map.mp (horder.subset (hsub.subset hk))
  exact ⟨r, (List.mem_filter.mp hr).2, rfl⟩

/-- A transaction that begins has locked nothing.  A scan is after its
candidates, an upsert after nothing yet: it names one key, and looks for its row
when it locks it. -/
inductive Began (plan : σ → Plan key) (s : State σ key) (stmt : σ) (order : List κ)
    (tx : Tx σ ρ κ) : Prop where
  | scan {cond before limit skipLocked write hwrite}
      (hplan : plan stmt = .scan cond before limit skipLocked write hwrite)
      (horder : order.Perm ((s.committed.rows.filter cond).map key))
      (htx : tx = ⟨stmt, candidates s order, [], []⟩)
  | upsert {row set hset} (hplan : plan stmt = .upsert row set hset) (htx : tx = ⟨stmt, [], [], []⟩)

theorem begin_cases {stmt : σ} {order : List κ} (h : s.begin plan t stmt order = some s') :
    ∃ tx, s.txs t = none ∧ s' = s.setTx t (some tx) ∧ Began plan s stmt order tx := by
  unfold State.begin at h
  split at h
  · next cond before limit skipLocked write hwrite htx hplan =>
      simp only at h
      split_ifs at h with hguard
      cases h
      exact ⟨_, htx, rfl, .scan hplan hguard.1 rfl⟩
  · next row set hset htx hplan =>
      cases h
      exact ⟨_, htx, rfl, .upsert hplan rfl⟩
  · cases h

/-- What a transaction does to the locks when it goes on: it passes over, or
locks, the next row of its scan, or it locks the key of its upsert.  There is
one case for each line of the scan, with what decides it. -/
inductive Advanced (plan : σ → Plan key) (s : State σ key) (t : ℕ) (tx tx' : Tx σ ρ κ)
    (s' : State σ key) : Prop where
  | passed {cond before limit skipLocked write hwrite r}
      (hplan : plan tx.stmt = .scan cond before limit skipLocked write hwrite)
      (hpending : tx.pending = r :: tx'.pending) (hlocked : tx'.locked = tx.locked)
      (hfree : s.locks (key r) = none ∨ skipLocked = true) (hlocks : s'.locks = s.locks)
  | locked {cond before limit skipLocked write hwrite r}
      (hplan : plan tx.stmt = .scan cond before limit skipLocked write hwrite)
      (hpending : tx.pending = r :: tx'.pending) (hlocked : tx'.locked = key r :: tx.locked)
      (hfree : s.locks (key r) = none)
      (hlocks : s'.locks = Function.update s.locks (key r) (some t))
  | upserts {row set hset} (hplan : plan tx.stmt = .upsert row set hset)
      (hnot : key row ∉ tx.locked) (hlocked : tx'.locked = [key row])
      (hfree : s.locks (key row) = none)
      (hlocks : s'.locks = Function.update s.locks (key row) (some t))

theorem lock_cases (h : s.lock ident plan t tx = some s') :
    ∃ tx', s'.txs = Function.update s.txs t (some tx') ∧ tx'.stmt = tx.stmt ∧
      Advanced plan s t tx tx' s' := by
  unfold State.lock at h
  split_ifs at h with hdone
  split at h
  · next cond before limit skipLocked write hwrite hplan =>
      split at h
      · cases h
      · next r rest hpending =>
          unfold State.visit at h
          split at h
          · split_ifs at h with hskip
            cases h
            exact ⟨_, rfl, rfl, .passed hplan hpending rfl (Or.inr hskip) rfl⟩
          · next hfree =>
              split at h
              · cases h
                exact ⟨_, rfl, rfl, .passed hplan hpending rfl (Or.inl hfree) rfl⟩
              · next v hv =>
                  by_cases hident : ident v = ident r
                  · rw [if_pos hident] at h
                    cases h
                    exact ⟨_, rfl, rfl, .locked hplan hpending rfl hfree rfl⟩
                  · rw [if_neg hident] at h
                    cases h
                    exact ⟨_, rfl, rfl, .passed hplan hpending rfl (Or.inl hfree) rfl⟩
  · next row set hset hplan =>
      split_ifs at h with hfree
      cases h
      rw [hplan, Tx.isDone, decide_eq_true_eq] at hdone
      exact ⟨_, rfl, rfl, .upserts hplan hdone rfl hfree rfl⟩

theorem commit_cases (h : s.commit plan t tx = some s') :
    tx.isDone (plan tx.stmt) = true ∧ s'.txs = Function.update s.txs t none ∧
      s'.locks = fun k => if s.locks k = some t then none else s.locks k := by
  unfold State.commit at h
  split_ifs at h with hdone
  cases h
  exact ⟨hdone, rfl, rfl⟩

/-- The statement of a transaction is the one it started with: a transaction
that is there after a step was there before it, with the same statement, or the
step is its start. -/
theorem stmt_cases {a : Action σ κ} (h : s.step ident plan a = some s')
    (htx : s'.txs t = some tx) :
    (∃ tx', s.txs t = some tx' ∧ tx'.stmt = tx.stmt ∧ a ≠ .commit t) ∨
      ∃ order, a = .start t tx.stmt order := by
  have hupdate : ∀ {t' : ℕ} {new : Option (Tx σ ρ κ)}, s'.txs = Function.update s.txs t' new →
      t = t' ∧ new = some tx ∨ t ≠ t' ∧ s.txs t = some tx := by
    intro t' new htxs
    rw [htxs] at htx
    by_cases ht : t = t'
    · rw [ht, Function.update_self] at htx
      exact Or.inl ⟨ht, htx⟩
    · rw [Function.update_of_ne ht] at htx
      exact Or.inr ⟨ht, htx⟩
  cases a with
  | start t' stmt order =>
      obtain ⟨new, -, rfl, hbegan⟩ := begin_cases h
      rcases hupdate rfl with ⟨rfl, hnew⟩ | ⟨-, hold⟩
      · cases hnew
        cases hbegan with
        | scan _ _ hnew | upsert _ hnew => exact Or.inr ⟨order, by rw [hnew]⟩
      · exact Or.inl ⟨tx, hold, rfl, fun ha => by cases ha⟩
  | lock t' =>
      obtain ⟨tx', htx', h⟩ := Option.bind_eq_some_iff.mp h
      obtain ⟨new, htxs, hstmt, -⟩ := lock_cases h
      rcases hupdate htxs with ⟨rfl, hnew⟩ | ⟨-, hold⟩
      · cases hnew
        exact Or.inl ⟨tx', htx', hstmt.symm, fun ha => by cases ha⟩
      · exact Or.inl ⟨tx, hold, rfl, fun ha => by cases ha⟩
  | commit t' =>
      obtain ⟨tx', -, h⟩ := Option.bind_eq_some_iff.mp h
      obtain ⟨-, htxs, -⟩ := commit_cases h
      rcases hupdate htxs with ⟨rfl, hnew⟩ | ⟨hne, hold⟩
      · cases hnew
      · exact Or.inl ⟨tx, hold, rfl, fun ha => hne (by cases ha; rfl)⟩
  | abort t' =>
      obtain ⟨tx', -, rfl⟩ := Option.map_eq_some_iff.mp h
      rcases hupdate rfl with ⟨rfl, hnew⟩ | ⟨-, hold⟩
      · cases hnew
      · exact Or.inl ⟨tx, hold, rfl, fun ha => by cases ha⟩

/-! ## Locks without rows -/

/-- A plan locks its rows as a statement without rows does. -/
def Locks (p : Plan key) (stmt : Statement κ) : Prop :=
  match p with
  | .scan cond _ limit skipLocked _ _ =>
      (skipLocked = true ↔ stmt.scope = .skips) ∧ (limit.isSome → skipLocked = true) ∧
        (stmt.scope = .one → ∀ r r', cond r = true → cond r' = true → key r = key r') ∧
          ∀ r, cond r = true → stmt.table (key r) = true
  | .upsert row _ _ => stmt.scope = .one ∧ stmt.table (key row) = true

/-- What a statement finds when it begins: the keys of a scan's candidates, or
the one key of an upsert. -/
def found (plan : σ → Plan key) (s : State σ key) (stmt : σ) (order : List κ) : List κ :=
  match plan stmt with
  | .scan _ _ _ _ _ _ => (candidates s order).map key
  | .upsert row _ _ => [key row]

/-- A transaction without its rows: the keys it is after and those it has
locked.  An upsert is after the key of its row until it has it. -/
def Tx.lockView (plan : σ → Plan key) (view : σ → Statement κ) (tx : Tx σ ρ κ) :
    LockWaits.Tx σ κ :=
  match plan tx.stmt with
  | .scan _ _ _ _ _ _ => ⟨tx.stmt, [], (view tx.stmt).scope, tx.pending.map key, tx.locked⟩
  | .upsert row _ _ =>
      if key row ∈ tx.locked then ⟨tx.stmt, [], (view tx.stmt).scope, [], [key row]⟩
      else ⟨tx.stmt, [], (view tx.stmt).scope, [key row], []⟩

/-- The transactions without their rows, each with the one statement it has. -/
def State.lockView (plan : σ → Plan key) (view : σ → Statement κ) (s : State σ key) :
    LockWaits.State σ κ :=
  ⟨fun t => (s.txs t).map (Tx.lockView plan view), s.locks⟩

/-- What a step is without its rows.  A row that is not locked is passed over,
and whether it is shows in what the transaction has locked after the step. -/
def lockLabel (ident : ρ → ℕ) (plan : σ → Plan key) (s : State σ key) :
    Action σ κ → Option (LockWaits.Action σ κ)
  | .start t stmt order => some (.begin t stmt (found plan s stmt order))
  | .lock t =>
      if ((s.step ident plan (.lock t)).bind fun s' => s'.txs t).map Tx.locked =
          (s.txs t).map Tx.locked then
        some (.pass t)
      else some (.visit t)
  | .commit t => some (.commit t)
  | .abort t => some (.abort t)

omit [DecidableEq κ] in
/-- Keys of rows that meet a condition that fixes the key are one at most. -/
theorem length_le_one {cond : ρ → Bool} {keys : List κ} (hnodup : keys.Nodup)
    (hkeys : ∀ k ∈ keys, ∃ r, cond r = true ∧ key r = k)
    (hfixed : ∀ r r', cond r = true → cond r' = true → key r = key r') : keys.length ≤ 1 := by
  match keys with
  | [] => exact Nat.zero_le 1
  | [_] => exact le_rfl
  | k :: k' :: rest =>
      obtain ⟨r, hr, rfl⟩ := hkeys k List.mem_cons_self
      obtain ⟨r', hr', rfl⟩ := hkeys k' (List.mem_cons_of_mem _ List.mem_cons_self)
      rw [hfixed r r' hr hr', List.nodup_cons] at hnodup
      exact absurd List.mem_cons_self hnodup.1

theorem lockView_setTx (view : σ → Statement κ) {new : Option (Tx σ ρ κ)}
    (htxs : s'.txs = Function.update s.txs t new) :
    (s'.lockView plan view).txs =
      Function.update (s.lockView plan view).txs t (new.map (Tx.lockView plan view)) := by
  funext t'
  simp only [State.lockView, htxs]
  by_cases ht : t' = t
  · rw [ht, Function.update_self, Function.update_self]
  · rw [Function.update_of_ne ht, Function.update_of_ne ht]

omit [DecidableEq κ] in
/-- States without rows that agree in both fields, which is what is left to
prove of every step. -/
theorem lockView_ext {u u' : LockWaits.State σ κ} (htxs : u.txs = u'.txs)
    (hlocks : u.locks = u'.locks) : u = u' := by
  cases u
  cases u'
  exact congrArg₂ LockWaits.State.mk htxs hlocks

theorem txs_lockView (view : σ → Statement κ) (htx : s.txs t = some tx) :
    (s.lockView plan view).txs t = some (Tx.lockView plan view tx) := by
  simp only [State.lockView, htx, Option.map_some]

theorem not_lockedByOther_lockView (view : σ → Statement κ) (t : ℕ) {k : κ}
    (hfree : s.locks k = none) : ¬ (s.lockView plan view).LockedByOther t k := by
  rintro ⟨t', ht', -⟩
  exact Option.some_ne_none t' (hfree.symm.trans ht').symm

section Map

variable {view : σ → Statement κ} (hview : ∀ stmt, Locks (plan stmt) (view stmt))

include hview

theorem lockView_start {stmt : σ} {order : List κ} (h : s.begin plan t stmt order = some s') :
    (s.lockView plan view).step (fun stmt => [view stmt])
      (.begin t stmt (found plan s stmt order)) = some (s'.lockView plan view) := by
  obtain ⟨tx, htx, rfl, hbegan⟩ := begin_cases h
  have hlocks := hview stmt
  have hnone : (s.lockView plan view).txs t = none := by
    rw [State.lockView]
    simp only [htx, Option.map_none]
  have hfinds : (view stmt).Finds (found plan s stmt order) ∧
      Tx.lockView plan view tx = ⟨stmt, [], (view stmt).scope, found plan s stmt order, []⟩ := by
    cases hbegan with
    | scan hplan horder htx =>
        obtain ⟨hnodup, hkeys⟩ := of_candidates horder
        rw [hplan] at hlocks
        subst htx
        simp only [found, Tx.lockView, hplan]
        refine ⟨⟨hnodup, fun k hk => ?_, fun hone =>
          length_le_one hnodup hkeys (hlocks.2.2.1 hone)⟩, trivial⟩
        obtain ⟨r, hr, rfl⟩ := hkeys k hk
        exact hlocks.2.2.2 r hr
    | upsert hplan htx =>
        rw [hplan] at hlocks
        subst htx
        simp only [found, Tx.lockView, hplan]
        refine ⟨⟨List.nodup_singleton _, fun k hk => ?_, fun _ => le_rfl⟩,
          if_neg List.not_mem_nil⟩
        exact List.mem_singleton.mp hk ▸ hlocks.2
  simp only [LockWaits.State.step, hnone, if_pos hfinds.1]
  refine congrArg some (lockView_ext ?_ rfl)
  have htxs : (s.setTx t (some tx)).txs = Function.update s.txs t (some tx) := rfl
  rw [lockView_setTx view htxs, Option.map_some, hfinds.2]
  rfl

theorem lockView_lock (htx : s.txs t = some tx) (h : s.lock ident plan t tx = some s') :
    ∃ a ∈ lockLabel ident plan s (.lock t),
      (s.lockView plan view).step (fun stmt => [view stmt]) a = some (s'.lockView plan view) := by
  obtain ⟨tx', htxs, hstmt, hadvanced⟩ := lock_cases h
  have hlocks := hview tx.stmt
  have hstep : s.step ident plan (.lock t) = some s' := by
    rw [State.step, htx, Option.bind_some, h]
  have hbefore : (s.lockView plan view).txs t = some (Tx.lockView plan view tx) :=
    txs_lockView view htx
  have hafter : (s'.lockView plan view).txs = Function.update (s.lockView plan view).txs t
      (some (Tx.lockView plan view tx')) := lockView_setTx view htxs
  -- whether the step is a visit shows in what the transaction has locked
  have hlabel : lockLabel ident plan s (.lock t) =
      if tx'.locked = tx.locked then some (.pass t) else some (.visit t) := by
    simp only [lockLabel, hstep, Option.bind_some, htxs, Function.update_self, Option.map_some, htx,
      Option.some_inj]
  cases hadvanced with
  | @passed _ _ _ skipLocked _ _ r hplan hpending hlocked hfree hsame =>
      rw [hplan] at hlocks
      refine ⟨.pass t, by rw [hlabel, if_pos hlocked]; rfl, ?_⟩
      have hold : Tx.lockView plan view tx = ⟨tx.stmt, [], (view tx.stmt).scope,
          key r :: tx'.pending.map key, tx.locked⟩ := by
        simp only [Tx.lockView, hplan, hpending, List.map_cons]
      have hnew : Tx.lockView plan view tx' = ⟨tx.stmt, [], (view tx.stmt).scope,
          tx'.pending.map key, tx.locked⟩ := by
        simp only [Tx.lockView, hstmt, hplan, hlocked]
      have hmay : ¬ ((s.lockView plan view).LockedByOther t (key r) ∧
          (view tx.stmt).scope ≠ .skips) := by
        rintro ⟨hother, hnot⟩
        rcases hfree with hnone | hskip
        · exact not_lockedByOther_lockView view t hnone hother
        · exact hnot (hlocks.1.mp hskip)
      simp only [LockWaits.State.step, hbefore, Option.bind_some, LockWaits.State.pass, hold,
        if_neg hmay]
      refine congrArg some (lockView_ext ?_ hsame.symm)
      rw [hafter, hnew]
      rfl
  | @locked _ _ _ _ _ _ r hplan hpending hlocked hfree hsame =>
      have hne : tx'.locked ≠ tx.locked := by
        rw [hlocked]
        exact List.cons_ne_self _ _
      refine ⟨.visit t, by rw [hlabel, if_neg hne]; rfl, ?_⟩
      have hold : Tx.lockView plan view tx = ⟨tx.stmt, [], (view tx.stmt).scope,
          key r :: tx'.pending.map key, tx.locked⟩ := by
        simp only [Tx.lockView, hplan, hpending, List.map_cons]
      have hnew : Tx.lockView plan view tx' = ⟨tx.stmt, [], (view tx.stmt).scope,
          tx'.pending.map key, key r :: tx.locked⟩ := by
        simp only [Tx.lockView, hstmt, hplan, hlocked]
      have hmay : ¬ (s.lockView plan view).LockedByOther t (key r) :=
        not_lockedByOther_lockView view t hfree
      simp only [LockWaits.State.step, hbefore, Option.bind_some, LockWaits.State.visit, hold,
        if_neg hmay]
      refine congrArg some (lockView_ext ?_ hsame.symm)
      rw [hafter, hnew]
      rfl
  | @upserts row _ _ hplan hnot hlocked hfree hsame =>
      have hne : tx'.locked ≠ tx.locked := by
        rintro hsame
        rw [← hsame, hlocked] at hnot
        exact hnot List.mem_cons_self
      refine ⟨.visit t, by rw [hlabel, if_neg hne]; rfl, ?_⟩
      have hold : Tx.lockView plan view tx =
          ⟨tx.stmt, [], (view tx.stmt).scope, [key row], []⟩ := by
        simp only [Tx.lockView, hplan, if_neg hnot]
      have hmem : key row ∈ tx'.locked := hlocked ▸ List.mem_cons_self
      have hnew : Tx.lockView plan view tx' =
          ⟨tx.stmt, [], (view tx.stmt).scope, [], [key row]⟩ := by
        simp only [Tx.lockView, hstmt, hplan, if_pos hmem]
      have hmay : ¬ (s.lockView plan view).LockedByOther t (key row) :=
        not_lockedByOther_lockView view t hfree
      simp only [LockWaits.State.step, hbefore, Option.bind_some, LockWaits.State.visit, hold,
        if_neg hmay]
      refine congrArg some (lockView_ext ?_ hsame.symm)
      rw [hafter, hnew]
      rfl

/-- A transaction that is done has nothing left to lock, or may stop. -/
theorem through_lockView (hdone : tx.isDone (plan tx.stmt) = true) :
    (Tx.lockView plan view tx).Through ∧ (Tx.lockView plan view tx).rest = [] := by
  have hlocks := hview tx.stmt
  cases hplan : plan tx.stmt with
  | scan cond before limit skipLocked write hwrite =>
      rw [hplan] at hlocks hdone
      simp only [Tx.lockView, hplan]
      refine ⟨?_, trivial⟩
      rw [Tx.isDone, Bool.or_eq_true] at hdone
      rcases hdone with hempty | hfull
      · exact Or.inl (by rw [List.isEmpty_iff.mp hempty]; rfl)
      · have hlimit : limit.isSome := by
          cases limit with
          | none => cases hfull
          | some n => rfl
        exact Or.inr (hlocks.1.mp (hlocks.2.1 hlimit))
  | upsert row set hset =>
      rw [hplan, Tx.isDone, decide_eq_true_eq] at hdone
      simp only [Tx.lockView, hplan, if_pos hdone]
      exact ⟨Or.inl rfl, trivial⟩

/-- **Every run under row locks is a run of the locks alone**, with statements
that find the keys of their candidates.  `Locks` is all that is asked of the
plans. -/
theorem maps_lockWaits (ident : ρ → ℕ) (table : Table ρ key) :
    (system ident plan table).Maps (LockWaits.system (fun stmt => [view stmt]))
      (State.lockView plan view) (lockLabel ident plan) where
  init := rfl
  step := by
    intro s a s' _ h
    cases a with
    | start t stmt order => exact lockView_start hview h
    | lock t =>
        obtain ⟨tx, htx, h⟩ := Option.bind_eq_some_iff.mp h
        obtain ⟨a, ha, hstep⟩ := lockView_lock hview htx h
        rw [Option.mem_def] at ha
        rw [ha]
        exact hstep
    | commit t =>
        obtain ⟨tx, htx, h⟩ := Option.bind_eq_some_iff.mp h
        obtain ⟨hdone, htxs, hlocks⟩ := commit_cases h
        have hbefore : (s.lockView plan view).txs t = some (Tx.lockView plan view tx) :=
          txs_lockView view htx
        show (s.lockView plan view).step (fun stmt => [view stmt]) (.commit t) = _
        rw [LockWaits.State.step, hbefore, Option.bind_some, if_pos (through_lockView hview hdone)]
        exact congrArg some (lockView_ext (lockView_setTx view htxs).symm hlocks.symm)
    | abort t =>
        obtain ⟨tx, htx, rfl⟩ := Option.map_eq_some_iff.mp h
        have hbefore : (s.lockView plan view).txs t = some (Tx.lockView plan view tx) :=
          txs_lockView view htx
        have htxs : ((s.setTx t none).release t).txs = Function.update s.txs t none := rfl
        show (s.lockView plan view).step (fun stmt => [view stmt]) (.abort t) = _
        rw [LockWaits.State.step, hbefore, Option.map_some]
        exact congrArg some (lockView_ext (lockView_setTx view htxs).symm rfl)

end Map

end RowLocks

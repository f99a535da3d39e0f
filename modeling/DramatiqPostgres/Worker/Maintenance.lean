import DramatiqPostgres.Queue.Queries
import DramatiqPostgres.Results.Store
import Mathlib.Tactic.Linarith

/-!
# Queue upkeep

`maybe_maintenance` runs four statements in one transaction, for the one process
of a deployment that gets the advisory lock: REAP, CLEAN_WORKERS, PURGE_RESULTS
and, unless it is switched off, PURGE.  `upkeep` is that transaction at one
`NOW()`.

The statements meet in the worker table: REAP asks it who is alive, with one
threshold, and CLEAN_WORKERS shortens it, with a threshold five times as far
back.  What becomes of a row is said once, by `repair` (`find?_upkeep`);
`Repairs` is the law of a whole run.

### A law without hypotheses

Maintenance is what mends the tables after others have failed, so nothing may be
asked of them: rows may be consumed by nobody, by a worker without a row or by
one with an old heartbeat, times may lie in the future, and the settings may be
any with a TTL that is not negative.  `Repairs` says what a run does to all of
these, that it does nothing else, and that a second run right after it does
nothing at all.

### The two thresholds

CLEAN_WORKERS must not take away the row of a worker that REAP takes for alive:
at the next run REAP would take its messages for orphaned.  That holds because
its threshold lies further back, for a TTL that is not negative, and it is the
one place where the order of the two matters.  What REAP leaves consumed has an
owner that the table knows after the run as well.
-/

namespace DramatiqPostgres

namespace Maintenance

open Pg

/-- The three tables of a deployment. -/
structure Tables where
  queue : Queue
  workers : WorkerTable
  results : ResultTable

/-- The settings of the transaction. -/
structure Settings where
  heartbeatTtl : Time
  /-- `purge_maxage`; without one, PURGE does not run. -/
  purgeMaxage : Option Time
  ttl_nonneg : 0 ≤ heartbeatTtl

/-- The statements of the transaction that got the lock, in their order, at the
one `NOW()` of the transaction. -/
def upkeep (settings : Settings) (now : Time) (s : Tables) : Tables :=
  let s := { s with queue := Queries.reap s.workers now settings.heartbeatTtl s.queue }
  let s := { s with workers := Queries.cleanWorkers now (settings.heartbeatTtl * 5) s.workers }
  let s := { s with results := ResultQueries.purgeResults now s.results }
  match settings.purgeMaxage with
  | none => s
  | some maxAge => { s with queue := Queries.purge now maxAge s.queue }

/-- `maybe_maintenance`, on `_maintenance_at` and the tables: `clock` is the
process' own clock and `interval` the time to the next run, drawn anew each
time. -/
def maybeMaintenance (settings : Settings) (clock interval : Time) (locked : Bool) (now : Time)
    (maintenanceAt : Time) (s : Tables) : Time × Tables :=
  if maintenanceAt ≠ 0 ∧ clock < maintenanceAt then (maintenanceAt, s)
  else (clock + interval, if locked then upkeep settings now s else s)

/-! ## The law -/

/-- Nobody alive owns the row: it has no owner, or its owner has no heartbeat
after `now - ttl`. -/
def Orphaned (workers : WorkerTable) (now ttl : Time) (r : Row) : Prop :=
  r.workerId = none ∨
    ∃ w, r.workerId = some w ∧ ¬ ∃ row ∈ workers, row.workerId = w ∧ now - ttl < row.heartbeatAt

/-- A rejected row that has been kept for long enough. -/
def Expired (settings : Settings) (now : Time) (r : Row) : Prop :=
  r.state = .rejected ∧ ∃ maxAge, settings.purgeMaxage = some maxAge ∧ r.mtime ≤ now - maxAge

/-- **A run repairs the tables and does nothing else**; `s` are the tables
before it and `t` those after.  The clauses cover each of the three tables in
both directions: what changes, and what does not. -/
structure Repairs (settings : Settings) (now : Time) (s t : Tables) : Prop where
  /-- A consumed row is put back exactly when it is orphaned. -/
  putBack_iff : ∀ id r, s.queue.find? id = some r → r.state = .consumed →
    (t.queue.find? id =
        some { r with state := .queued, workerId := none, consumedAt := none, mtime := now } ↔
      Orphaned s.workers now settings.heartbeatTtl r)
  unchanged : ∀ id r, s.queue.find? id = some r →
    ¬ (r.state = .consumed ∧ Orphaned s.workers now settings.heartbeatTtl r) →
    ¬ Expired settings now r → t.queue.find? id = some r
  purged : ∀ id r, s.queue.find? id = some r → Expired settings now r → t.queue.find? id = none
  absent : ∀ id, s.queue.find? id = none → t.queue.find? id = none
  /-- A row that is still consumed has an owner in the worker table. -/
  owned : ∀ id r, t.queue.find? id = some r → r.state = .consumed →
    ∃ w row, r.workerId = some w ∧ t.workers.find? w = some row
  workers : ∀ w, t.workers.find? w =
    (s.workers.find? w).filter fun row => now - settings.heartbeatTtl * 5 ≤ row.heartbeatAt
  /-- Every later GET reads what it would have read. -/
  results : ∀ later, now ≤ later → ∀ key,
    ResultQueries.get later key t.results = ResultQueries.get later key s.results
  /-- A second run changes nothing. -/
  again : upkeep settings now t = t

/-! ## What becomes of a row -/

section Rows

variable {settings : Settings} {now : Time} {s : Tables}

theorem reapWhere_iff {workers : WorkerTable} {now ttl : Time} {r : Row} :
    Queries.reapWhere workers now ttl r = true ↔
      r.state = .consumed ∧ Orphaned workers now ttl r := by
  have halive : ∀ w, Queries.isAlive workers now ttl w = true ↔
      ∃ row ∈ workers, row.workerId = w ∧ now - ttl < row.heartbeatAt := by
    intro w
    simp only [Queries.isAlive, Option.any_eq_true, decide_eq_true_eq]
    constructor
    · rintro ⟨row, hrow, hbeat⟩
      exact ⟨row, Table.mem_of_find? hrow, Table.key_of_find? hrow, hbeat⟩
    · rintro ⟨row, hrow, rfl, hbeat⟩
      exact ⟨row, Table.find?_key hrow, hbeat⟩
  cases hw : r.workerId with
  | none => simp [Queries.reapWhere, Orphaned, hw]
  | some w =>
      have hdead := not_congr (halive w)
      rw [Bool.not_eq_true] at hdead
      simp [Queries.reapWhere, Orphaned, hw, hdead]

/-- Whether PURGE deletes the row. -/
def isExpired (settings : Settings) (now : Time) (r : Row) : Bool :=
  settings.purgeMaxage.any fun maxAge => Queries.purgeWhere now maxAge r

theorem isExpired_iff {r : Row} : isExpired settings now r = true ↔ Expired settings now r := by
  unfold isExpired Expired
  cases settings.purgeMaxage with
  | none => simp
  | some maxAge => simp [Queries.purgeWhere]

/-- What a run makes of a row. -/
def repair (settings : Settings) (now : Time) (workers : WorkerTable) (r : Row) : Option Row :=
  if Queries.reapWhere workers now settings.heartbeatTtl r then some (Queries.putBackSet now r)
  else if isExpired settings now r then none
  else some r

/-- **A run acts on each row by `repair`.** -/
theorem find?_upkeep (settings : Settings) (now : Time) (s : Tables) (id : Uuid) :
    (upkeep settings now s).queue.find? id =
      (s.queue.find? id).bind (repair settings now s.workers) := by
  have hreap : (Queries.reap s.workers now settings.heartbeatTtl s.queue).find? id =
      (s.queue.find? id).map fun r =>
        if Queries.reapWhere s.workers now settings.heartbeatTtl r then Queries.putBackSet now r
        else r := Queue.find?_updateWhere _ _ _ _ _
  unfold upkeep repair isExpired
  cases settings.purgeMaxage with
  | none =>
      simp only [hreap, Option.any_none, Bool.false_eq_true, if_false]
      cases s.queue.find? id with
      | none => rfl
      | some r =>
          simp only [Option.map_some, Option.bind_some]
          split_ifs <;> rfl
  | some maxAge =>
      simp only [Queries.purge, Queue.find?_deleteWhere, hreap, Option.any_some]
      cases s.queue.find? id with
      | none => rfl
      | some r =>
          simp only [Option.map_some, Option.bind_some]
          split_ifs with hreaped hpurged <;> simp_all [Queries.purgeWhere, Queries.putBackSet]

theorem workers_upkeep (settings : Settings) (now : Time) (s : Tables) :
    (upkeep settings now s).workers =
      Queries.cleanWorkers now (settings.heartbeatTtl * 5) s.workers := by
  unfold upkeep
  cases settings.purgeMaxage <;> rfl

theorem results_upkeep (settings : Settings) (now : Time) (s : Tables) :
    (upkeep settings now s).results = ResultQueries.purgeResults now s.results := by
  unfold upkeep
  cases settings.purgeMaxage <;> rfl

/-! ## The two thresholds -/

/-- **CLEAN_WORKERS spares whoever REAP finds alive**: its threshold lies
further back. -/
theorem find?_cleanWorkers_of_alive {workers : WorkerTable} {w : Uuid} {row : WorkerRow}
    (hrow : workers.find? w = some row) (hbeat : now - settings.heartbeatTtl < row.heartbeatAt) :
    (Queries.cleanWorkers now (settings.heartbeatTtl * 5) workers).find? w = some row := by
  have httl := settings.ttl_nonneg
  have hkept : ¬ row.heartbeatAt < now - settings.heartbeatTtl * 5 := by linarith
  rw [Queries.cleanWorkers, Table.find?_deleteWhere, hrow, Option.bind_some]
  simp [hkept]

/-- A row that is consumed after a run was so before, and its owner is alive. -/
theorem exists_owner_of_consumed {id : Uuid} {r : Row}
    (hr : (upkeep settings now s).queue.find? id = some r) (hconsumed : r.state = .consumed) :
    ∃ w row, r.workerId = some w ∧ s.workers.find? w = some row ∧
      now - settings.heartbeatTtl < row.heartbeatAt := by
  rw [find?_upkeep, Option.bind_eq_some_iff] at hr
  obtain ⟨r₀, hr₀, hrepair⟩ := hr
  unfold repair at hrepair
  split_ifs at hrepair with hreaped hexpired
  · rw [← Option.some_inj.mp hrepair] at hconsumed
    cases hconsumed
  · rw [Option.some_inj] at hrepair
    subst hrepair
    rw [reapWhere_iff, not_and, Orphaned] at hreaped
    have howned := hreaped hconsumed
    push Not at howned
    obtain ⟨hsome, halive⟩ := howned
    obtain ⟨w, hw⟩ := Option.ne_none_iff_exists'.mp hsome
    obtain ⟨row, hrow, hkey, hbeat⟩ := halive w hw
    exact ⟨w, row, hw, hkey ▸ Table.find?_key hrow, hbeat⟩

/-- Nothing is left to purge after a run. -/
theorem isExpired_eq_false_of_upkeep {id : Uuid} {r : Row}
    (hr : (upkeep settings now s).queue.find? id = some r) : isExpired settings now r = false := by
  rw [find?_upkeep, Option.bind_eq_some_iff] at hr
  obtain ⟨r₀, -, hrepair⟩ := hr
  unfold repair at hrepair
  split_ifs at hrepair with hreaped hexpired
  · -- a row that was put back is queued
    rw [← Option.some_inj.mp hrepair]
    cases hmax : settings.purgeMaxage <;>
      simp [isExpired, hmax, Queries.purgeWhere, Queries.putBackSet]
  · rw [Option.some_inj] at hrepair
    rw [← hrepair, ← Bool.not_eq_true]
    exact hexpired

/-! ## A second run -/

/-- A run leaves tables alone in which each statement finds nothing to do. -/
theorem upkeep_eq_self
    (hreap : ∀ r ∈ s.queue.table, Queries.reapWhere s.workers now settings.heartbeatTtl r = false)
    (hclean : ∀ w ∈ s.workers, now - settings.heartbeatTtl * 5 ≤ w.heartbeatAt)
    (hresults : ∀ r ∈ s.results, r.isLive now = true)
    (hpurge : ∀ r ∈ s.queue.table, isExpired settings now r = false) :
    upkeep settings now s = s := by
  have hreap' : Queries.reap s.workers now settings.heartbeatTtl s.queue = s.queue := by
    rw [Queries.reap, Queue.updateWhere, Table.updateWhere_eq_self hreap]
  have hclean' : Queries.cleanWorkers now (settings.heartbeatTtl * 5) s.workers = s.workers :=
    Table.deleteWhere_eq_self fun w hw => by simpa using hclean w hw
  have hresults' : ResultQueries.purgeResults now s.results = s.results := by
    refine Table.deleteWhere_eq_self fun r hr => ?_
    have hlive := hresults r hr
    cases hexpires : r.expiresAt with
    | none => rfl
    | some t => simpa [ResultRow.isLive, hexpires] using hlive
  unfold upkeep
  simp only [hreap', hclean', hresults']
  cases hmax : settings.purgeMaxage with
  | none => rfl
  | some maxAge =>
      have hpurge' : Queries.purge now maxAge s.queue = s.queue := by
        rw [Queries.purge, Queue.deleteWhere, Table.deleteWhere_eq_self fun r hr => ?_]
        simpa [isExpired, hmax] using hpurge r hr
      simp only [hpurge']

theorem upkeep_upkeep (settings : Settings) (now : Time) (s : Tables) :
    upkeep settings now (upkeep settings now s) = upkeep settings now s := by
  refine upkeep_eq_self (fun r hr => ?_) (fun w hw => ?_) (fun r hr => ?_) fun r hr => ?_
  · -- whoever still owns a row is alive, and still in the worker table
    have hfind := Table.find?_key hr
    rw [← Bool.not_eq_true, reapWhere_iff]
    rintro ⟨hconsumed, horphaned⟩
    obtain ⟨w, row, hw, hrow, hbeat⟩ := exists_owner_of_consumed hfind hconsumed
    rcases horphaned with hnone | ⟨w', hw', hdead⟩
    · rw [hw] at hnone
      cases hnone
    · rw [hw, Option.some_inj] at hw'
      subst hw'
      have hkept := find?_cleanWorkers_of_alive hrow hbeat
      rw [← workers_upkeep settings now s] at hkept
      exact hdead ⟨row, Table.mem_of_find? hkept, Table.key_of_find? hkept, hbeat⟩
  · rw [workers_upkeep, Queries.cleanWorkers, Table.deleteWhere, Table.mem_alter] at hw
    obtain ⟨w₀, -, hw₀⟩ := hw
    split_ifs at hw₀ with hstale
    rw [← Option.some_inj.mp hw₀]
    simpa using hstale
  · have hfind := Table.find?_key hr
    rw [results_upkeep, ResultQueries.find?_purgeResults, Option.filter_eq_some_iff] at hfind
    exact hfind.2
  · exact isExpired_eq_false_of_upkeep (Table.find?_key hr)

end Rows

/-! ## The law of a run -/

/-- **A maintenance run repairs the tables and nothing else**, whatever their
state. -/
theorem upkeep_repairs (settings : Settings) (now : Time) (s : Tables) :
    Repairs settings now s (upkeep settings now s) := by
  refine ⟨fun id r hr hconsumed => ?_, fun id r hr hback hexpired => ?_, fun id r hr hexpired => ?_,
    fun id hnone => ?_, fun id r hr hconsumed => ?_, fun w => ?_, fun later hlater key => ?_,
    upkeep_upkeep settings now s⟩
  · rw [find?_upkeep, hr, Option.bind_some, repair]
    constructor
    · intro hput
      split_ifs at hput with hreaped hexpired
      · exact (reapWhere_iff.mp hreaped).2
      · -- the row as it was is not the row put back
        have hstate := congrArg Row.state (Option.some_inj.mp hput)
        rw [hconsumed] at hstate
        cases hstate
    · intro horphaned
      rw [if_pos (reapWhere_iff.mpr ⟨hconsumed, horphaned⟩)]
      rfl
  · rw [find?_upkeep, hr, Option.bind_some, repair, if_neg (mt reapWhere_iff.mp hback),
      if_neg (mt isExpired_iff.mp hexpired)]
  · have hback : ¬ Queries.reapWhere s.workers now settings.heartbeatTtl r = true := by
      intro hreaped
      have hconsumed := (reapWhere_iff.mp hreaped).1
      rw [hexpired.1] at hconsumed
      cases hconsumed
    rw [find?_upkeep, hr, Option.bind_some, repair, if_neg hback,
      if_pos (isExpired_iff.mpr hexpired)]
  · rw [find?_upkeep, hnone, Option.bind_none]
  · obtain ⟨w, row, hw, hrow, hbeat⟩ := exists_owner_of_consumed hr hconsumed
    refine ⟨w, row, hw, ?_⟩
    rw [workers_upkeep]
    exact find?_cleanWorkers_of_alive hrow hbeat
  · rw [workers_upkeep, Queries.cleanWorkers, Table.find?_deleteWhere]
    cases s.workers.find? w with
    | none => rfl
    | some row =>
        rw [Option.bind_some, Option.filter_some]
        by_cases hstale : row.heartbeatAt < now - settings.heartbeatTtl * 5
        · rw [decide_eq_true hstale, decide_eq_false (not_le.mpr hstale)]
          rfl
        · rw [decide_eq_false hstale, decide_eq_true (not_lt.mp hstale)]
          rfl
  · rw [results_upkeep]
    unfold ResultQueries.get
    cases Uuid.ofText? key with
    | none => rfl
    | some id =>
        simp only [ResultQueries.find?_purgeResults, Option.filter_filter]
        congr 3
        funext r
        -- a result that is live later is live now
        by_cases hlive : r.isLive later = true
        · rw [hlive, ResultRow.isLive_mono hlive hlater]
          rfl
        · rw [Bool.not_eq_true] at hlive
          rw [hlive, Bool.and_false]

/-- A run that is not due, or does not get the lock, changes no table. -/
theorem maybeMaintenance_tables (settings : Settings) (clock interval : Time) (locked : Bool)
    (now maintenanceAt : Time) (s : Tables) :
    (maybeMaintenance settings clock interval locked now maintenanceAt s).2 = s ∨
      (locked = true ∧
        (maybeMaintenance settings clock interval locked now maintenanceAt s).2 =
          upkeep settings now s) := by
  unfold maybeMaintenance
  split_ifs with hdue hlocked
  · exact Or.inl rfl
  · exact Or.inr ⟨hlocked, rfl⟩
  · exact Or.inl rfl

end Maintenance

end DramatiqPostgres

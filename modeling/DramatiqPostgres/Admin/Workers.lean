import DramatiqPostgres.Worker.Maintenance
import Mathlib.Data.Int.ConditionallyCompleteOrder
import Mathlib.Data.Rat.Defs
import Mathlib.Order.Interval.Set.Defs

/-!
# The worker dashboard

`WorkerAdmin` tells live workers from dead ones in three places, and counts the
jobs of the dead ones in a fourth.  The job it reports on is REAP's: what REAP
finds dead loses its messages.

* `status_badge` and the summary compare the heartbeat with a deadline, and
  spare a worker whose heartbeat is exactly the TTL old; REAP does not.
* `heartbeat_age` compares whole seconds, and flags a worker up to a second
  later than REAP.
* The summary looks for the jobs of the dead workers it finds; REAP takes every
  job whose worker it does not find alive, those without a worker or with one
  that has no row included.

`Agrees` is the law that all of them coincide with REAP, `agrees_iff` the states
in which they do.

### What is a parameter

A TTL is a number of seconds, and `interval` what `timedelta(seconds=…)` and
`make_interval(secs => …)` both make of it.  Nothing is asked of that function,
so the equivalence holds for every rounding, and for a TTL with a fraction as
well.  The price is that nothing is known of the order of the TTL and the first
age that `heartbeat_age` flags, and the condition covers both orders
(`notBetween`).

### How the proof goes

Each of the four tests is brought to a comparison of the age of a heartbeat with
a threshold: `statusBadge_eq_dead_iff`, `mem_deadQs_iff`, `pastTtl_iff`, and
`reapsWorker_iff` for REAP.  Two such tests agree on a worker exactly if its age
is not between their thresholds.  For the orphans the numbers are compared, not
the jobs, and they are equal exactly if the jobs are the same, because every job
the page counts is one that REAP takes (`orphans_iff`).
-/

namespace DramatiqPostgres

namespace WorkerAdmin

open Pg

/-- Python's `int` of a number, which truncates towards zero. -/
def int (q : ℚ) : ℤ := q.num.tdiv q.den

/-- `int(t.total_seconds())`. -/
def wholeSeconds (t : Time) : ℤ := t.tdiv 1000000

/-! ## The dashboard -/

inductive Status where
  | dead
  | alive
  deriving DecidableEq, Repr

/-- How long ago a heartbeat was. -/
inductive Ago where
  | seconds (n : ℤ)
  | minutes (n : ℤ)
  deriving DecidableEq, Repr

/-- What `heartbeat_age` shows. -/
structure HeartbeatAge where
  human : Ago
  ttl : ℤ
  /-- In red: past the TTL, this worker's jobs will be requeued. -/
  pastTtl : Bool

/-- The numbers of `_summary_html`. -/
structure Summary where
  alive : ℕ
  dead : ℕ
  orphans : ℕ

section Dashboard

variable (interval : ℚ → Time) (ttl : ℚ) (now : Time)

/-- `timezone.now() - timedelta(seconds=_heartbeat_ttl())`: what is older is
dead to the page. -/
def deadline : Time := now - interval ttl

/-- `status_badge`. -/
def statusBadge (obj : WorkerRow) : Status :=
  if obj.heartbeatAt < deadline interval ttl now then .dead else .alive

/-- `heartbeat_age`.  The colour compares the truncated age with the truncated
TTL. -/
def heartbeatAge (obj : WorkerRow) : HeartbeatAge :=
  let secs := wholeSeconds (now - obj.heartbeatAt)
  { human := if secs < 120 then .seconds secs else .minutes (secs / 60)
    ttl := int ttl
    pastTtl := int ttl < secs }

/-- `dead_qs`. -/
def deadQs (workers : WorkerTable) : List WorkerRow :=
  workers.rows.filter fun w => w.heartbeatAt < deadline interval ttl now

/-- The jobs counted as orphans: consumed rows of the dead workers that have a
row. -/
def isOrphan (workers : WorkerTable) (job : Row) : Bool :=
  job.state = .consumed ∧
    (deadQs interval ttl now workers).any (fun w => job.workerId = some w.workerId) = true

/-- `_summary_html`. -/
def summary (workers : WorkerTable) (queue : Queue) : Summary where
  alive := (workers.rows.filter fun w => deadline interval ttl now ≤ w.heartbeatAt).length
  dead := (deadQs interval ttl now workers).length
  orphans := (queue.table.rows.filter (isOrphan interval ttl now workers)).length

/-! ## The law and its condition -/

/-- REAP does not find the worker alive, and takes its messages. -/
def ReapsWorker (workers : WorkerTable) (w : WorkerRow) : Prop :=
  Queries.isAlive workers now (interval ttl) w.workerId = false

/-- **The dashboard agrees with REAP**: the badge, the summary, the colour of
the age, and the number of orphans. -/
structure Agrees (workers : WorkerTable) (queue : Queue) : Prop where
  badge : ∀ w ∈ workers, statusBadge interval ttl now w = .dead ↔
    ReapsWorker interval ttl now workers w
  counted : ∀ w ∈ workers, w ∈ deadQs interval ttl now workers ↔
    ReapsWorker interval ttl now workers w
  flagged : ∀ w ∈ workers, (heartbeatAge ttl now w).pastTtl = true ↔
    ReapsWorker interval ttl now workers w
  orphans : (summary interval ttl now workers queue).orphans =
    (queue.table.rows.filter (Queries.reapWhere workers now (interval ttl))).length

/-- The first age that `heartbeat_age` flags: the next whole second, of the
truncated TTL. -/
def flaggedFrom : Time :=
  if 0 ≤ int ttl then (int ttl + 1) * 1000000 else int ttl * 1000000 + 1

/-- **The condition**: no heartbeat is exactly the TTL old, none lies between
the TTL and the first age that is flagged, and every consumed row has a worker
with a row.  A condition on the tables and the clock only. -/
structure Unambiguous (workers : WorkerTable) (queue : Queue) : Prop where
  ne_ttl : ∀ w ∈ workers, now - w.heartbeatAt ≠ interval ttl
  notBetween : ∀ w ∈ workers, now - w.heartbeatAt ∉
    Set.Ico (min (interval ttl) (flaggedFrom ttl)) (max (interval ttl) (flaggedFrom ttl))
  owned : ∀ r ∈ queue.table, r.state = .consumed → ∃ w ∈ workers, r.workerId = some w.workerId

/-! ## One worker -/

variable {interval ttl now} {workers : WorkerTable} {queue : Queue} {w : WorkerRow}

theorem reapsWorker_iff (hw : w ∈ workers) :
    ReapsWorker interval ttl now workers w ↔ interval ttl ≤ now - w.heartbeatAt := by
  rw [ReapsWorker, Queries.isAlive, Table.find?_key hw, Option.any_some, decide_eq_false_iff_not,
    not_lt]
  constructor
  · intro h
    linarith
  · intro h
    linarith

theorem statusBadge_eq_dead_iff :
    statusBadge interval ttl now w = .dead ↔ interval ttl < now - w.heartbeatAt := by
  have hage : w.heartbeatAt < deadline interval ttl now ↔ interval ttl < now - w.heartbeatAt := by
    rw [deadline]
    constructor
    · intro h
      linarith
    · intro h
      linarith
  rw [← hage, statusBadge]
  split_ifs with h
  · exact iff_of_true rfl h
  · exact iff_of_false nofun h

theorem mem_deadQs_iff (hw : w ∈ workers) :
    w ∈ deadQs interval ttl now workers ↔ interval ttl < now - w.heartbeatAt := by
  rw [← statusBadge_eq_dead_iff, deadQs, List.mem_filter, decide_eq_true_eq, statusBadge]
  split_ifs with h
  · exact iff_of_true ⟨hw, h⟩ rfl
  · exact iff_of_false (fun hmem => h hmem.2) nofun

/-- Whole seconds exceed a number of seconds from the next whole second on. -/
theorem lt_wholeSeconds_iff (s t : ℤ) :
    s < wholeSeconds t ↔ (if 0 ≤ s then (s + 1) * 1000000 else s * 1000000 + 1) ≤ t := by
  rw [wholeSeconds]
  rcases le_total 0 t with ht | ht
  · rw [Int.tdiv_eq_ediv_of_nonneg ht]
    split_ifs <;> omega
  · obtain ⟨u, rfl⟩ : ∃ u, t = -u := ⟨-t, (neg_neg t).symm⟩
    rw [Int.neg_tdiv, Int.tdiv_eq_ediv_of_nonneg (by omega)]
    split_ifs <;> omega

theorem pastTtl_iff :
    (heartbeatAge ttl now w).pastTtl = true ↔ flaggedFrom ttl ≤ now - w.heartbeatAt := by
  rw [heartbeatAge, decide_eq_true_eq, lt_wholeSeconds_iff, flaggedFrom]

/-- An age is on the same side of two thresholds exactly if it does not lie
between them. -/
theorem notMem_Ico_iff (a b age : Time) :
    age ∉ Set.Ico (min a b) (max a b) ↔ (b ≤ age ↔ a ≤ age) := by
  rw [Set.mem_Ico, min_le_iff, lt_max_iff]
  constructor
  · intro h
    constructor
    · intro hb
      by_contra ha
      exact h ⟨Or.inr hb, Or.inl (not_le.mp ha)⟩
    · intro ha
      by_contra hb
      exact h ⟨Or.inl ha, Or.inr (not_le.mp hb)⟩
  · rintro h ⟨hle, hlt⟩
    rcases hlt with ha | hb
    · have hb : b ≤ age := hle.resolve_left (not_le.mpr ha)
      exact absurd (h.mp hb) (not_le.mpr ha)
    · have ha : a ≤ age := hle.resolve_right (not_le.mpr hb)
      exact absurd (h.mpr ha) (not_le.mpr hb)

/-! ## The jobs -/

/-- A job that is counted is one that REAP requeues. -/
theorem reapWhere_of_isOrphan {job : Row} (h : isOrphan interval ttl now workers job = true) :
    Queries.reapWhere workers now (interval ttl) job = true := by
  rw [isOrphan, decide_eq_true_eq, List.any_eq_true] at h
  obtain ⟨hstate, w, hdead, hwho⟩ := h
  rw [decide_eq_true_eq] at hwho
  have hw : w ∈ workers := (List.mem_filter.mp hdead).1
  have hage := (mem_deadQs_iff hw).mp hdead
  have hreaps : ReapsWorker interval ttl now workers w := (reapsWorker_iff hw).mpr hage.le
  rw [ReapsWorker] at hreaps
  simp [Queries.reapWhere, hstate, hwho, hreaps]

/-- As many rows pass two tests, one of which implies the other, exactly if the
same rows do.  This is how a law about numbers becomes one about jobs. -/
theorem length_filter_eq_iff {p q : Row → Bool} (hpq : ∀ r, p r = true → q r = true)
    (rows : List Row) :
    (rows.filter p).length = (rows.filter q).length ↔ ∀ r ∈ rows, q r = true → p r = true := by
  have hsub : rows.filter p = (rows.filter q).filter p := by
    rw [List.filter_filter]
    refine List.filter_congr fun r _ => ?_
    cases hp : p r with
    | false => rfl
    | true => rw [hpq r hp]; rfl
  rw [hsub, List.length_filter_eq_length_iff]
  constructor
  · intro h r hr hq
    exact h r (List.mem_filter.mpr ⟨hr, hq⟩)
  · intro h r hr
    obtain ⟨hmem, hq⟩ := List.mem_filter.mp hr
    exact h r hmem hq

/-- The orphans shown are those of REAP exactly if every job that REAP requeues
is shown. -/
theorem orphans_iff :
    (summary interval ttl now workers queue).orphans =
        (queue.table.rows.filter (Queries.reapWhere workers now (interval ttl))).length ↔
      ∀ r ∈ queue.table, Queries.reapWhere workers now (interval ttl) r = true →
        isOrphan interval ttl now workers r = true :=
  length_filter_eq_iff (fun _ h => reapWhere_of_isOrphan h) queue.table.rows

/-- A job whose worker has a row is reaped only if that worker is. -/
theorem isOrphan_of_reapWhere {r : Row}
    (hreap : Queries.reapWhere workers now (interval ttl) r = true)
    (hw : w ∈ workers) (hwho : r.workerId = some w.workerId)
    (hne : now - w.heartbeatAt ≠ interval ttl) : isOrphan interval ttl now workers r = true := by
  rw [Queries.reapWhere, decide_eq_true_eq, hwho, Option.all_some, Bool.not_eq_true'] at hreap
  obtain ⟨hstate, hdead⟩ := hreap
  have hage : interval ttl ≤ now - w.heartbeatAt := (reapsWorker_iff hw).mp hdead
  have hmem := (mem_deadQs_iff hw).mpr (lt_of_le_of_ne hage (Ne.symm hne))
  rw [isOrphan, decide_eq_true_eq, List.any_eq_true]
  exact ⟨hstate, w, hmem, decide_eq_true hwho⟩

end Dashboard

/-! ## The theorem -/

/-- **The dashboard agrees with REAP exactly in unambiguous states**, for any
tables, instant, TTL and rounding. -/
theorem agrees_iff (interval : ℚ → Time) (ttl : ℚ) (now : Time) (workers : WorkerTable)
    (queue : Queue) :
    Agrees interval ttl now workers queue ↔ Unambiguous interval ttl now workers queue := by
  constructor
  · intro h
    refine ⟨fun w hw heq => ?_, fun w hw => ?_, fun r hr hconsumed => ?_⟩
    · have hbadge := h.badge w hw
      rw [statusBadge_eq_dead_iff, reapsWorker_iff hw] at hbadge
      exact (hbadge.mpr heq.ge).ne heq.symm
    · have hflagged := h.flagged w hw
      rw [pastTtl_iff, reapsWorker_iff hw] at hflagged
      exact (notMem_Ico_iff _ _ _).mpr hflagged
    · -- a job that no row of the worker table owns is reaped, so it has to be shown
      by_contra hnone
      have hreap : Queries.reapWhere workers now (interval ttl) r = true := by
        rw [Maintenance.reapWhere_iff]
        refine ⟨hconsumed, ?_⟩
        cases hwho : r.workerId with
        | none => exact Or.inl hwho
        | some id =>
            refine Or.inr ⟨id, hwho, ?_⟩
            rintro ⟨w, hw, rfl, -⟩
            exact hnone ⟨w, hw, hwho⟩
      have hshown := orphans_iff.mp h.orphans r hr hreap
      rw [isOrphan, decide_eq_true_eq, List.any_eq_true] at hshown
      obtain ⟨-, w, hdead, hwho⟩ := hshown
      exact hnone ⟨w, (List.mem_filter.mp hdead).1, of_decide_eq_true hwho⟩
  · intro h
    have hstrict : ∀ w ∈ workers, interval ttl < now - w.heartbeatAt ↔
        ReapsWorker interval ttl now workers w := by
      intro w hw
      rw [reapsWorker_iff hw]
      exact ⟨le_of_lt, fun hle => lt_of_le_of_ne hle (Ne.symm (h.ne_ttl w hw))⟩
    refine ⟨fun w hw => ?_, fun w hw => ?_, fun w hw => ?_, orphans_iff.mpr ?_⟩
    · exact statusBadge_eq_dead_iff.trans (hstrict w hw)
    · exact (mem_deadQs_iff hw).trans (hstrict w hw)
    · rw [pastTtl_iff, reapsWorker_iff hw]
      exact (notMem_Ico_iff _ _ _).mp (h.notBetween w hw)
    · intro r hr hreap
      obtain ⟨w, hw, hwho⟩ := h.owned r hr (Maintenance.reapWhere_iff.mp hreap).1
      exact isOrphan_of_reapWhere hreap hw hwho (h.ne_ttl w hw)

/-- Seconds as an interval, rounded down to microseconds. -/
def microseconds (q : ℚ) : Time := q.num * 1000000 / q.den

/-- A worker whose last heartbeat was 60.5 seconds ago. -/
def staleWorkers : WorkerTable := ⟨[⟨Uuid.small 1, 0⟩], List.nodup_singleton _⟩

/-- It is dead to REAP and to its badge, and `heartbeat_age` shows it in
green. -/
theorem not_agrees_staleWorkers :
    ¬ Agrees microseconds 60 60500000 staleWorkers Queue.empty := by
  intro h
  have hflagged := h.flagged ⟨Uuid.small 1, 0⟩ List.mem_cons_self
  rw [pastTtl_iff, reapsWorker_iff List.mem_cons_self] at hflagged
  exact absurd (hflagged.mpr (by decide)) (by decide)

end WorkerAdmin

end DramatiqPostgres

import DramatiqPostgres.Queue.Statements

/-!
# The row invariant of the queue table

Fourteen statements in three modules write the queue table, each a different
subset of its columns.  `RowOk` says what the columns of one row may hold
together, state by state; `QueueOk` adds that positions are unique and below the
sequence, so that the next insertion keeps them so.  That message ids are unique
is the table's own key constraint.

Both are kept by every statement (`queueOk_exec`), and `Kept` records what a
statement may *not* do to a row: only an enqueue of the same id writes its
queue, position or due time, and only NACK besides writes its message.

### State by state

A queued row has no owner and no claim time: whoever puts a row back clears
both, and so does an upsert over a row that was consumed.  A consumed row has
both, and was due when it was claimed.  A rejected row has no owner, but keeps
the time of its claim, which NACK leaves alone; so nothing is said of that
column there.

`fresh` is the clause without which the invariant of positions would not be
inductive.  The sequence only moves forward, and an insertion takes its value.
-/

namespace DramatiqPostgres

open Pg

/-- What the columns of a row hold together, in each state.  The reaper relies
on the second clause: a consumed row has an owner whose heartbeat can be looked
up. -/
structure RowOk (r : Row) : Prop where
  queued : r.state = .queued → r.workerId = none ∧ r.consumedAt = none
  consumed : r.state = .consumed →
    ∃ w t, r.workerId = some w ∧ r.consumedAt = some t ∧ r.availableAt ≤ t
  rejected : r.state = .rejected → r.workerId = none

/-- The invariant of the whole table. -/
structure QueueOk (q : Queue) : Prop where
  rows : ∀ r ∈ q.table, RowOk r
  positions : (q.table.rows.map Row.position).Nodup
  fresh : ∀ r ∈ q.table, r.position < q.nextPosition

/-! ## Rows -/

/-- Every statement that puts a row back, and every enqueue, clears the owner
and the claim. -/
theorem rowOk_of_queued {r : Row} (hstate : r.state = .queued) (hworker : r.workerId = none)
    (hconsumed : r.consumedAt = none) : RowOk r :=
  ⟨fun _ => ⟨hworker, hconsumed⟩, fun h => absurd (hstate.symm.trans h) (by decide),
    fun h => absurd (hstate.symm.trans h) (by decide)⟩

theorem rowOk_claimSet {now : Time} {queueName : String} {workerId : Uuid} {r : Row}
    (h : Queries.claimWhere now queueName r = true) : RowOk (Queries.claimSet now workerId r) := by
  simp only [Queries.claimWhere, decide_eq_true_eq] at h
  refine ⟨fun hs => ?_, fun _ => ⟨workerId, now, rfl, rfl, h.2.2⟩, fun hs => ?_⟩
  · cases hs
  · cases hs

theorem rowOk_nackSet (now : Time) (message : Json) (r : Row) :
    RowOk (Queries.nackSet now message r) := by
  refine ⟨fun hs => ?_, fun hs => ?_, fun _ => rfl⟩
  · cases hs
  · cases hs

/-- **A statement other than an enqueue keeps the invariant of every row it
leaves.** -/
theorem rowOk_onRow {s : Database} {a : Statement} {r r' : Row} (hr : r ∈ s.queue.table)
    (hok : RowOk r) (h : a.onRow s r = some r') : RowOk r' := by
  cases a with
  | enqueue | enqueueQuiet | heartbeat | cleanWorkers => cases h; exact hok
  | claim now queueName limit workerId locked =>
      simp only [Statement.onRow, Option.some_inj] at h
      split_ifs at h with hmem
      · have hnext := Queries.mem_claimNext_of_messageId hr hmem
        rw [← h]
        exact rowOk_claimSet (Queries.mem_claimNext hnext).2.1
      · rwa [← h]
  | ack | purge | flush | deleteByPk | discard =>
      simp only [Statement.onRow] at h
      split_ifs at h
      rwa [← Option.some_inj.mp h]
  | nack =>
      simp only [Statement.onRow, Option.some_inj] at h
      split_ifs at h
      · rw [← h]; exact rowOk_nackSet _ _ _
      · rwa [← h]
  | requeue | reap | recover =>
      simp only [Statement.onRow, Option.some_inj] at h
      split_ifs at h
      · rw [← h]; exact rowOk_of_queued rfl rfl rfl
      · rwa [← h]

/-! ## Columns that are not written -/

/-- Which columns a statement leaves alone in the row it turns into `r'`. -/
structure Kept (a : Statement) (r r' : Row) : Prop where
  messageId : r'.messageId = r.messageId
  queueName : r'.queueName = r.queueName
  position : r'.position = r.position
  availableAt : r'.availableAt = r.availableAt
  message : a.isNack = false → r'.message = r.message

theorem Kept.refl (a : Statement) (r : Row) : Kept a r r := ⟨rfl, rfl, rfl, rfl, fun _ => rfl⟩

/-- **A statement other than an enqueue keeps the queue, the position and the
due time of every row, and all but NACK its message.** -/
theorem kept_onRow {s : Database} {a : Statement} {r r' : Row} (h : a.onRow s r = some r') :
    Kept a r r' := by
  cases a with
  | enqueue | enqueueQuiet | heartbeat | cleanWorkers => cases h; exact Kept.refl _ _
  | ack | purge | flush | deleteByPk | discard =>
      simp only [Statement.onRow] at h
      split_ifs at h
      cases h
      exact Kept.refl _ _
  | claim | requeue | reap | recover =>
      simp only [Statement.onRow, Option.some_inj] at h
      split_ifs at h <;> rw [← h] <;> exact ⟨rfl, rfl, rfl, rfl, fun _ => rfl⟩
  | nack =>
      simp only [Statement.onRow, Option.some_inj] at h
      split_ifs at h
      · rw [← h]; exact ⟨rfl, rfl, rfl, rfl, fun hn => by cases hn⟩
      · rw [← h]; exact Kept.refl _ _

/-! ## The table -/

theorem queueOk_empty : QueueOk Queue.empty :=
  ⟨fun r hr => absurd hr (Table.not_mem_empty r), List.nodup_nil,
    fun r hr => absurd hr (Table.not_mem_empty r)⟩

/-- The invariant under a statement that rewrites rows. -/
theorem QueueOk.alteredBy {s : Database} {a : Statement} {q' : Queue} (hok : QueueOk s.queue)
    (h : Queue.AlteredBy (a.onRow s) s.queue q') : QueueOk q' := by
  refine ⟨?_, ?_, ?_⟩
  · intro r' hr'
    obtain ⟨r, hr, hrow⟩ := h.mem hr'
    exact rowOk_onRow hr (hok.rows r hr) hrow
  · rw [h.rows]
    exact (Table.map_filterMap_sublist (fun r r' hrow => (kept_onRow hrow).position)
      s.queue.table.rows).nodup hok.positions
  · intro r' hr'
    obtain ⟨r, hr, hrow⟩ := h.mem hr'
    rw [h.nextPosition, (kept_onRow hrow).position]
    exact hok.fresh r hr

/-- The rows after an upsert: the one it wrote, which keeps an existing row's
position and takes the next one otherwise, and all rows of other ids. -/
theorem mem_upsert {now : Time} {queueName : String} {id : Uuid} {doc : Json} {delay : ℤ}
    {q : Queue} {r' : Row} (hr' : r' ∈ (Queries.upsert now queueName id doc delay q).table) :
    r' ∈ q.table ∨ r' = Queries.enqueueRow now queueName id doc delay q.nextPosition ∨
      ∃ r ∈ q.table, r.messageId = id ∧ r' = Queries.enqueueSet now queueName doc delay r := by
  simp only [Queries.upsert] at hr'
  cases hfind : q.table.find?
      (Queries.enqueueRow now queueName id doc delay q.nextPosition).messageId with
  | none =>
      rcases (Table.mem_upsert_of_find?_none hfind).mp hr' with hmem | rfl
      · exact Or.inl hmem
      · exact Or.inr (Or.inl rfl)
  | some s =>
      rw [Table.upsert_of_find?_some hfind] at hr'
      obtain ⟨r, hr, hset⟩ := Table.mem_updateWhere.mp hr'
      simp only [decide_eq_true_eq] at hset
      split_ifs at hset with hid
      · exact Or.inr (Or.inr ⟨r, hr, hid, hset.symm⟩)
      · exact Or.inl (hset ▸ hr)

/-- Positions stay unique under an upsert. -/
theorem nodup_positions_upsert {q : Queue} (hok : QueueOk q) (now : Time) (queueName : String)
    (id : Uuid) (doc : Json) (delay : ℤ) :
    ((Queries.upsert now queueName id doc delay q).table.rows.map Row.position).Nodup := by
  simp only [Queries.upsert]
  cases hfind : q.table.find?
      (Queries.enqueueRow now queueName id doc delay q.nextPosition).messageId with
  | some s =>
      rw [Table.upsert_of_find?_some hfind]
      refine (Table.map_filterMap_sublist (fun r r' hrow => ?_) q.table.rows).nodup hok.positions
      simp only [Option.some_inj] at hrow
      split_ifs at hrow <;> simp [← hrow, Queries.enqueueSet]
  | none =>
      rw [Table.rows_upsert_of_find?_none hfind, List.map_append, List.map_singleton,
        List.nodup_append]
      refine ⟨hok.positions, List.nodup_singleton _, ?_⟩
      intro n hn n' hn'
      obtain ⟨r, hr, rfl⟩ := List.mem_map.mp hn
      rw [List.mem_singleton] at hn'
      have hlt : r.position < q.nextPosition := hok.fresh r hr
      have hnext : n' = q.nextPosition := hn'
      omega

/-- The invariant under an enqueue. -/
theorem QueueOk.upsert {q : Queue} (hok : QueueOk q) (now : Time) (queueName : String) (id : Uuid)
    (doc : Json) (delay : ℤ) : QueueOk (Queries.upsert now queueName id doc delay q) := by
  refine ⟨?_, nodup_positions_upsert hok now queueName id doc delay, ?_⟩
  · intro r' hr'
    rcases mem_upsert hr' with hmem | rfl | ⟨r, -, -, rfl⟩
    · exact hok.rows r' hmem
    · exact rowOk_of_queued rfl rfl rfl
    · exact rowOk_of_queued rfl rfl rfl
  · intro r' hr'
    show r'.position < q.nextPosition + 1
    rcases mem_upsert hr' with hmem | rfl | ⟨r, hr, -, rfl⟩
    · exact (hok.fresh r' hmem).trans (Nat.lt_succ_self _)
    · exact Nat.lt_succ_self _
    · exact (hok.fresh r hr).trans (Nat.lt_succ_self _)

/-- **Every statement keeps the invariant.** -/
theorem queueOk_exec {s t : Database} {a : Statement} (hok : QueueOk s.queue)
    (h : s.exec a = some t) : QueueOk t.queue := by
  rcases exec_cases h with ⟨-, halter⟩ | ⟨now, queueName, id, doc, delay, -, hq⟩
  · exact hok.alteredBy halter
  · rw [hq]; exact hok.upsert now queueName id doc delay

/-- **Frame.**  A row that a statement does not enqueue keeps its columns. -/
theorem kept_exec {s t : Database} {a : Statement} (h : s.exec a = some t) {r r' : Row}
    (hr : r ∈ s.queue.table) (hr' : r' ∈ t.queue.table) (hid : r'.messageId = r.messageId)
    (ha : a.enqueued ≠ some r.messageId) : Kept a r r' := by
  rcases exec_cases h with ⟨-, halter⟩ | ⟨now, queueName, id, doc, delay, hid', hq⟩
  · obtain ⟨r₀, hr₀, hrow⟩ := halter.mem hr'
    have hsame : r₀ = r := Table.eq_of_key_eq hr₀ hr ((kept_onRow hrow).messageId.symm.trans hid)
    exact hsame ▸ kept_onRow hrow
  · have hne : id ≠ r.messageId := fun heq => ha (by rw [hid', heq])
    rw [hq] at hr'
    rcases mem_upsert hr' with hmem | rfl | ⟨r₀, -, hr₀, rfl⟩
    · rw [Table.eq_of_key_eq hmem hr hid]
      exact Kept.refl _ _
    · exact absurd hid hne
    · exact absurd (hr₀.symm.trans hid) hne

/-! ## Every reachable state -/

/-- The row invariant, and what the next statement may change. -/
structure RowLaw (s : Database) : Prop where
  messageIds : (s.queue.table.rows.map Row.messageId).Nodup
  positions : (s.queue.table.rows.map Row.position).Nodup
  rows : ∀ r ∈ s.queue.table, RowOk r
  frame : ∀ (a : Statement) (t : Database), s.exec a = some t →
    ∀ r ∈ s.queue.table, ∀ r' ∈ t.queue.table, r'.messageId = r.messageId →
      a.enqueued ≠ some r.messageId → Kept a r r'

/-- **The row invariant holds in every state reachable from an empty table by
any sequence of statements**, and every statement keeps the columns of a row
that are not its business. -/
theorem rowLaw_of_reachable {s : Database} (h : statementSystem.Reachable s) : RowLaw s := by
  have hok : QueueOk s.queue :=
    h.inv (I := fun s => QueueOk s.queue) queueOk_empty fun s a t hs hstep =>
      queueOk_exec hs hstep
  exact
    { messageIds := s.queue.table.nodup
      positions := hok.positions
      rows := hok.rows
      frame := fun a t hstep r hr r' hr' hid ha => kept_exec hstep hr hr' hid ha }

/-- A table with a consumed and a rejected row. -/
theorem rowLaw_of_two_rows :
    ∃ s, statementSystem.Reachable s ∧
      s.queue.table.rows.map Row.state = [.consumed, .rejected] ∧ RowLaw s := by
  have hrun : ∃ s ∈ statementSystem.visited
      [.enqueue 0 "q" (Uuid.small 1) .null 0, .enqueueQuiet 0 "q" (Uuid.small 2) .null 5,
        .claim 10 "q" 8 (Uuid.small 9) [],
        .nack 20 .null (Uuid.small 2) "q" "dramatiq.q.ack" (Uuid.small 2).toText],
      s.queue.table.rows.map Row.state = [.consumed, .rejected] := by decide
  obtain ⟨s, hs, hstates⟩ := hrun
  exact ⟨s, ⟨_, hs⟩, hstates, rowLaw_of_reachable ⟨_, hs⟩⟩

end DramatiqPostgres

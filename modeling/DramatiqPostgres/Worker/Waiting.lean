import DramatiqPostgres.Queue.RowInvariant
import DramatiqPostgres.Worker.Batch

/-!
# How long a message waits

A claim takes the rows in front, so the wait of a queued message is bounded by
the number of rows in front of it, its `rank`.  Two things can lengthen the
wait: a message may be enqueued to be due no later, and REQUEUE, REAP and
RECOVER put rows back at the places they had.  Both are counted by `jumped`;
every other statement leaves the rank alone or lowers it, and a CLAIM on the
queue that skips neither the message nor its due time lowers it by its whole
limit unless it takes the message.

`waits_le` adds this up over a run: while the message stays, the claims of its
queue have asked for no more rows than were in front of it or have come there.
No message starves.

### Why claims are counted by their limits

A claim that leaves a due row although nobody locks it has taken its whole limit
from the rows in front of it: there was no other reason to stop.  So what a
claim *asked for* comes out of the rank, and `exists_takes` can say how many
rows the claims have to ask for until one of them takes the message.  Claims of
other queues, and those whose `NOW()` is before the message is due, are not
counted, nor are those that find it locked.

### What the bound does not need

Neither that the claims be of one consumer, nor that the clock run forward, nor
that the message was enqueued in the order of its position.  The order is the
one of CLAIM, due time first, and a message that is put in front is counted when
it is put there.
-/

namespace DramatiqPostgres

namespace Waiting

open Pg

/-! ## The rows in front -/

/-- Whether a row waits in front of `r`: on its queue, queued, and before it in
the order of CLAIM. -/
def isAhead (r x : Row) : Bool :=
  x.queueName = r.queueName ∧ x.state = .queued ∧ x.messageId ≠ r.messageId ∧
    Queries.claimOrder x r

/-- How many rows wait in front of `r`, due or not.  A row that is due later
than `r` is not in front of it. -/
def rank (r : Row) (s : Database) : ℕ := s.queue.table.rows.countP (isAhead r)

/-- The rows a statement asks for that may serve `r`: the limit of a CLAIM on
its queue that does not skip it, and nothing for any other statement. -/
def served (r : Row) : Statement → ℕ
  | .claim now queueName limit _ locked =>
      if queueName = r.queueName ∧ r.availableAt ≤ now ∧ r.messageId ∉ locked then limit else 0
  | _ => 0

/-- A row of the queue whose place is in front of `r`. -/
def isBefore (r x : Row) : Bool := x.queueName = r.queueName ∧ Queries.claimOrder x r

/-- The enqueued message is due no later than `r`. -/
def dueBefore (r : Row) (now : Time) (queueName : String) (delay : ℤ) : Bool :=
  queueName = r.queueName ∧ Queries.availableAt now delay ≤ r.availableAt

/-- How many rows a statement may bring in front of `r`: its own message, for an
enqueue that is due no later, and all it may put back, for the three that put
rows back. -/
def jumped (r : Row) (s : Database) : Statement → ℕ
  | .enqueue now queueName _ _ delay => (dueBefore r now queueName delay).toNat
  | .enqueueQuiet now queueName _ _ delay => (dueBefore r now queueName delay).toNat
  | .requeue _ ids =>
      s.queue.table.rows.countP fun x => Queries.requeueWhere ids x && isBefore r x
  | .reap now ttl =>
      s.queue.table.rows.countP fun x => Queries.reapWhere s.workers now ttl x && isBefore r x
  | .recover now minage =>
      s.queue.table.rows.countP fun x => Queries.recoverWhere now minage x && isBefore r x
  | _ => 0

theorem isAhead_iff {r x : Row} : isAhead r x = true ↔
    x.queueName = r.queueName ∧ x.state = .queued ∧ x.messageId ≠ r.messageId ∧
      Queries.claimOrder x r := by
  rw [isAhead, decide_eq_true_eq]

theorem isBefore_iff {r x : Row} :
    isBefore r x = true ↔ x.queueName = r.queueName ∧ Queries.claimOrder x r := by
  rw [isBefore, decide_eq_true_eq]

/-- Rows that satisfy one of two conditions. -/
theorem countP_le_add {α : Type*} {p q w : α → Bool} {l : List α}
    (h : ∀ x ∈ l, p x = true → q x = true ∨ w x = true) :
    l.countP p ≤ l.countP q + l.countP w := by
  induction l with
  | nil => simp
  | cons x xs ih =>
      have hrest := ih fun y hy => h y (List.mem_cons_of_mem _ hy)
      have hfirst := h x List.mem_cons_self
      simp only [List.countP_cons]
      cases hp : p x <;> cases hq : q x <;> cases hw : w x <;> simp_all <;> omega

/-! ## One statement -/

section Step

variable {s t : Database} {a : Statement} {r : Row}

/-- The rank after a rewriting of the rows. -/
theorem rank_of_alteredBy {g : Row → Option Row} (h : Queue.AlteredBy g s.queue t.queue) :
    rank r t = s.queue.table.rows.countP fun x => ((g x).map (isAhead r)).getD false := by
  rw [rank, h.rows, List.countP_filterMap]

/-- Statements other than an enqueue keep a row's place in the order. -/
theorem claimOrder_of_kept {x x' : Row} (h : Kept a x x') :
    Queries.claimOrder x' r ↔ Queries.claimOrder x r := by
  rw [Queries.claimOrder, Queries.claimOrder, h.availableAt, h.position]

/-- A row in front that was queued before a statement was in front. -/
theorem isAhead_of_onRow {x x' : Row} (hrow : a.onRow s x = some x') (hqueued : x.state = .queued)
    (h : isAhead r x' = true) : isAhead r x = true := by
  have hkept := kept_onRow hrow
  obtain ⟨hqueue, -, hid, horder⟩ := isAhead_iff.mp h
  rw [hkept.queueName] at hqueue
  rw [hkept.messageId] at hid
  exact isAhead_iff.mpr ⟨hqueue, hqueued, hid, (claimOrder_of_kept hkept).mp horder⟩

/-- A statement that puts no row back keeps the rows in front, or takes some
away. -/
theorem rank_le_of_alteredBy (h : Queue.AlteredBy (a.onRow s) s.queue t.queue)
    (hqueued : ∀ x ∈ s.queue.table, ∀ x', a.onRow s x = some x' → x'.state = .queued →
      x.state = .queued) : rank r t ≤ rank r s := by
  rw [rank_of_alteredBy h]
  refine List.countP_mono_left fun x hx hahead => ?_
  cases hrow : a.onRow s x with
  | none => rw [hrow] at hahead; cases hahead
  | some x' =>
      rw [hrow] at hahead
      exact isAhead_of_onRow hrow (hqueued x hx x' hrow (isAhead_iff.mp hahead).2.1) hahead

/-- A statement that puts rows back brings at most those in front. -/
theorem rank_le_of_putBack {p : Row → Bool} {set : Row → Row}
    (h : Queue.AlteredBy (a.onRow s) s.queue t.queue)
    (hrow : ∀ x, a.onRow s x = some (if p x then set x else x)) :
    rank r t ≤ rank r s + s.queue.table.rows.countP fun x => p x && isBefore r x := by
  rw [rank_of_alteredBy h]
  refine countP_le_add fun x _ hahead => ?_
  have hx := hrow x
  rw [hx] at hahead
  have hkept := kept_onRow hx
  by_cases hp : p x = true
  · obtain ⟨hqueue, -, -, horder⟩ := isAhead_iff.mp hahead
    rw [hkept.queueName] at hqueue
    rw [hp, Bool.true_and]
    exact Or.inr (isBefore_iff.mpr ⟨hqueue, (claimOrder_of_kept hkept).mp horder⟩)
  · rw [if_neg hp] at hahead
    exact Or.inl hahead

/-- A key occurs in at most one row. -/
theorem countP_messageId_le_one (q : Queue) (id : Uuid) :
    (q.table.rows.countP fun x => x.messageId = id) ≤ 1 := by
  have hcount := List.nodup_iff_count_le_one.mp q.table.nodup id
  rw [List.count_eq_countP, List.countP_map] at hcount
  refine le_trans (List.countP_mono_left fun x _ hx => ?_) hcount
  simpa using hx

/-- An enqueue brings at most its own message in front, and only if it is due no
later. -/
theorem rank_le_of_upsert {now : Time} {queueName : String} {id : Uuid} {doc : Json} {delay : ℤ}
    (h : t.queue = Queries.upsert now queueName id doc delay s.queue) :
    rank r t ≤ rank r s + (dueBefore r now queueName delay).toNat := by
  have hdue : ∀ x : Row, x.queueName = queueName →
      x.availableAt = Queries.availableAt now delay → isAhead r x = true →
        dueBefore r now queueName delay = true := by
    intro x hqueue havailable hahead
    obtain ⟨hsame, -, -, horder⟩ := isAhead_iff.mp hahead
    rw [dueBefore, decide_eq_true_eq, ← hqueue, ← havailable]
    refine ⟨hsame, ?_⟩
    rcases horder with hlt | ⟨heq, -⟩
    · exact hlt.le
    · exact heq.le
  unfold rank
  rw [h]
  simp only [Queries.upsert]
  cases hfind : s.queue.table.find?
      (Queries.enqueueRow now queueName id doc delay s.queue.nextPosition).messageId with
  | none =>
      rw [Table.rows_upsert_of_find?_none hfind, List.countP_append, List.countP_singleton]
      split_ifs with hahead
      · rw [hdue _ rfl rfl hahead, Bool.toNat_true]
      · omega
  | some x₀ =>
      rw [Table.upsert_of_find?_some hfind]
      show List.countP (isAhead r) (s.queue.table.rows.filterMap _) ≤ _
      rw [List.countP_filterMap]
      refine (countP_le_add (q := isAhead r)
        (w := fun x => dueBefore r now queueName delay && x.messageId = id) ?_).trans ?_
      · intro x _ hahead
        simp only [decide_eq_true_eq, Option.map_some, Option.getD_some] at hahead
        split_ifs at hahead with hid
        · right
          rw [hdue _ rfl rfl hahead, Bool.true_and]
          exact decide_eq_true hid
        · exact Or.inl hahead
      · cases hbefore : dueBefore r now queueName delay with
        | false => simp
        | true =>
            have hone := countP_messageId_le_one s.queue id
            simp only [Bool.true_and, Bool.toNat_true]
            omega

/-- A due row that a claim leaves, although nobody locks it, comes after all
that it takes. -/
theorem claimNext_of_not_mem {now : Time} {queueName : String} {limit : ℕ} {locked : List Uuid}
    {q : Queue} (hr : r ∈ q.table) (hwhere : Queries.claimWhere now queueName r = true)
    (hlocked : r.messageId ∉ locked)
    (hnot : r ∉ Queries.claimNext now queueName limit locked q) :
    (Queries.claimNext now queueName limit locked q).length = limit ∧
      ∀ x ∈ Queries.claimNext now queueName limit locked q, Queries.claimOrder x r := by
  unfold Queries.claimNext at *
  generalize hfilter : (q.table.rows.filter fun x =>
    Queries.claimWhere now queueName x ∧ x.messageId ∉ locked) = due at *
  have hmem : r ∈ due := by
    rw [← hfilter, List.mem_filter, decide_eq_true_eq]
    exact ⟨hr, hwhere, hlocked⟩
  have hsorted := List.pairwise_insertionSort Queries.claimOrder due
  have hin := (List.mem_insertionSort Queries.claimOrder).mpr hmem
  rw [← List.take_append_drop limit (due.insertionSort Queries.claimOrder)] at hsorted hin
  have hdrop := (List.mem_append.mp hin).resolve_left hnot
  refine ⟨?_, fun x hx => (List.pairwise_append.mp hsorted).2.2 x hx r hdrop⟩
  have hpos := List.length_pos_of_mem hdrop
  rw [List.length_drop] at hpos
  rw [List.length_take]
  omega

/-- **A claim that leaves `r` takes its whole limit from the rows in front.**
It could have taken `r`, so it stopped at its limit, and all it took comes
before `r`. -/
theorem rank_of_claim {now : Time} {queueName : String} {limit : ℕ} {workerId : Uuid}
    {locked : List Uuid} (hqueue : queueName = r.queueName) (hdue : r.availableAt ≤ now)
    (hlocked : r.messageId ∉ locked) (hr : r ∈ s.queue.table) (hqueued : r.state = .queued)
    (h : s.exec (.claim now queueName limit workerId locked) = some t)
    (hr' : r ∈ t.queue.table) : rank r t + limit ≤ rank r s := by
  have halter : Queue.AlteredBy ((Statement.claim now queueName limit workerId locked).onRow s)
      s.queue t.queue := by
    rcases exec_cases h with ⟨-, halter⟩ | ⟨_, _, _, _, _, hsome, _⟩
    · exact halter
    · cases hsome
  set next := Queries.claimNext now queueName limit locked s.queue with hnext
  have hnot : r.messageId ∉ next.map Row.messageId := by
    intro hmem
    obtain ⟨x, hx, hrow⟩ := halter.mem hr'
    obtain rfl : x = r := Table.eq_of_key_eq hx hr (kept_onRow hrow).messageId.symm
    simp only [Statement.onRow, ← hnext, if_pos hmem, Option.some_inj] at hrow
    rw [← hrow] at hqueued
    cases hqueued
  have hwhere : Queries.claimWhere now queueName r = true := by
    rw [Queries.claimWhere, decide_eq_true_eq]
    exact ⟨hqueue.symm, hqueued, hdue⟩
  obtain ⟨hlength, horder⟩ := claimNext_of_not_mem hr hwhere hlocked fun hmem =>
    hnot (List.mem_map_of_mem hmem)
  rw [← hnext] at hlength
  let isTaken : Row → Bool := fun x => x.messageId ∈ next.map Row.messageId
  have hafter : rank r t ≤ s.queue.table.rows.countP fun x => isAhead r x && !isTaken x := by
    rw [rank_of_alteredBy halter]
    refine List.countP_mono_left fun x _ hahead => ?_
    simp only [Statement.onRow, ← hnext, Option.map_some, Option.getD_some] at hahead
    split_ifs at hahead with hmem
    · -- a row that was taken is consumed
      cases (isAhead_iff.mp hahead).2.1
    · rw [hahead, Bool.true_and, Bool.not_eq_true', decide_eq_false_iff_not]
      exact hmem
  have htaken : next.length ≤ s.queue.table.rows.countP fun x => isAhead r x && isTaken x := by
    have hnodup : next.Nodup := (nodup_claimedIds now queueName limit locked s.queue).of_map
    rw [List.countP_eq_length_filter]
    refine (hnodup.subperm fun x hx => ?_).length_le
    obtain ⟨hx', hxwhere, -⟩ := Queries.mem_claimNext hx
    rw [Queries.claimWhere, decide_eq_true_eq] at hxwhere
    have hid : x.messageId ∈ next.map Row.messageId := List.mem_map_of_mem hx
    rw [List.mem_filter, Bool.and_eq_true, isAhead_iff, decide_eq_true_eq]
    refine ⟨hx', ⟨hxwhere.1.trans hqueue, hxwhere.2.1, fun heq => ?_, horder x hx⟩, hid⟩
    exact hnot (heq ▸ hid)
  have hsplit := List.countP_eq_countP_filter_add s.queue.table.rows (isAhead r) isTaken
  rw [List.countP_filter, List.countP_filter] at hsplit
  unfold rank at *
  omega

/-- **Step lemma.**  While `r` stays, what a statement asks for comes out of the
rows in front and those it brings there.  One case for each kind of statement:
those that only take rows away, those that put rows back, the enqueue, and the
claim. -/
theorem rank_step (hr : r ∈ s.queue.table) (hqueued : r.state = .queued) (h : s.exec a = some t)
    (hr' : r ∈ t.queue.table) : rank r t + served r a ≤ rank r s + jumped r s a := by
  have halter : a.enqueued = none → Queue.AlteredBy (a.onRow s) s.queue t.queue := by
    intro hnone
    rcases exec_cases h with ⟨-, halter⟩ | ⟨_, _, _, _, _, hsome, _⟩
    · exact halter
    · rw [hnone] at hsome
      cases hsome
  cases a with
  | enqueue now queueName id message delay =>
      obtain ⟨p, hp, rfl⟩ := Database.eq_of_ofResult h
      obtain ⟨doc, -, hq⟩ := Queries.exists_of_enqueue_ok hp
      exact rank_le_of_upsert (t := { s with queue := p.1 }) hq
  | enqueueQuiet now queueName id message delay =>
      obtain ⟨p, hp, rfl⟩ := Database.eq_of_ofResult h
      cases hquiet : Queries.enqueueQuiet now queueName id message delay s.queue with
      | error e => rw [hquiet] at hp; cases hp
      | ok q =>
          rw [hquiet] at hp
          cases hp
          obtain ⟨doc, -, hq⟩ := Queries.exists_of_enqueueQuiet_ok hquiet
          exact rank_le_of_upsert (t := { s with queue := q }) hq
  | claim now queueName limit workerId locked =>
      simp only [served, jumped]
      split_ifs with hserves
      · exact rank_of_claim hserves.1 hserves.2.1 hserves.2.2 hr hqueued h hr'
      · refine rank_le_of_alteredBy (halter rfl) fun x _ x' hrow hstate => ?_
        simp only [Statement.onRow, Option.some_inj] at hrow
        split_ifs at hrow with hmem
        · rw [← hrow] at hstate
          cases hstate
        · exact hrow ▸ hstate
  | nack =>
      refine rank_le_of_alteredBy (halter rfl) fun x _ x' hrow hstate => ?_
      simp only [Statement.onRow, Option.some_inj] at hrow
      split_ifs at hrow with hwhere
      · rw [← hrow] at hstate
        cases hstate
      · exact hrow ▸ hstate
  | ack | purge | flush | deleteByPk | discard =>
      refine rank_le_of_alteredBy (halter rfl) fun x _ x' hrow hstate => ?_
      simp only [Statement.onRow] at hrow
      split_ifs at hrow
      exact Option.some_inj.mp hrow ▸ hstate
  | heartbeat | cleanWorkers =>
      refine rank_le_of_alteredBy (halter rfl) fun x _ x' hrow hstate => ?_
      exact Option.some_inj.mp hrow ▸ hstate
  | requeue | reap | recover => exact rank_le_of_putBack (halter rfl) fun _ => rfl

end Step

/-! ## A run -/

/-- What the claims of a run ask for that may serve `r`. -/
def totalServed (r : Row) (s : Database) (as : List Statement) : ℕ :=
  ((statementSystem.takenFrom s as).map fun p => served r p.2).sum

/-- How many rows a run may bring in front of `r`. -/
def totalJumped (r : Row) (s : Database) (as : List Statement) : ℕ :=
  ((statementSystem.takenFrom s as).map fun p => jumped r p.1 p.2).sum

section Run

variable {s t : Database} {as : List Statement} {r : Row}

/-- **Bounded waiting.**  As long as a queued row stays, the claims that may
serve it have asked for no more rows than were in front of it and have come
there since.  By induction on the run, with the step lemma. -/
theorem waits_le (hqueued : r.state = .queued)
    (hstays : ∀ u ∈ statementSystem.visitedFrom s as, r ∈ u.queue.table) :
    rank r (statementSystem.lastFrom s as) + totalServed r s as
      ≤ rank r s + totalJumped r s as := by
  rw [totalServed, totalJumped, StepSystem.takenFrom_eq_map, List.map_map, List.map_map]
  refine StepSystem.add_sum_le_of_transitionsFrom (f := rank r) fun m hm => ?_
  obtain ⟨hstep, hpre, hpost⟩ := StepSystem.step_of_mem_transitionsFrom hm
  exact rank_step (hstays _ hpre) hqueued hstep (hstays _ hpost)

/-- The statement is not about the message of `r`: it does not enqueue it again,
reject or delete it. -/
def Spares (r : Row) : Statement → Prop
  | .enqueue _ _ id _ _ => id ≠ r.messageId
  | .enqueueQuiet _ _ id _ _ => id ≠ r.messageId
  | .nack _ _ id _ _ _ => id ≠ r.messageId
  | .flush => False
  | .deleteByPk pk => pk ≠ r.messageId
  | .discard selected => r.messageId ∉ selected
  | _ => True

instance (r : Row) (a : Statement) : Decidable (Spares r a) := by
  unfold Spares
  split <;> infer_instance

/-- The statement is a CLAIM that takes `r`. -/
def Takes (r : Row) (s : Database) (a : Statement) : Prop :=
  ∃ now queueName limit workerId locked, a = .claim now queueName limit workerId locked ∧
    r ∈ s.queue.table ∧ r.messageId ∈ claimedIds now queueName limit locked s.queue

/-- A queued row stays until a CLAIM takes it. -/
theorem mem_of_spares {a : Statement} (hr : r ∈ s.queue.table) (hqueued : r.state = .queued)
    (hspares : Spares r a) (htakes : ¬ Takes r s a) (h : s.exec a = some t) :
    r ∈ t.queue.table := by
  rcases exec_cases h with ⟨hnone, halter⟩ | ⟨now, queueName, id, doc, delay, hsome, hq⟩
  · have hrow : a.onRow s r = some r := by
      cases a with
      | enqueue | enqueueQuiet | heartbeat | cleanWorkers => rfl
      | claim now queueName limit workerId locked =>
          refine congrArg some (if_neg fun hmem => htakes ?_)
          exact ⟨now, queueName, limit, workerId, locked, rfl, hr, hmem⟩
      | ack | requeue | reap | recover | purge =>
          simp [Statement.onRow, Queries.ackWhere, Queries.requeueWhere, Queries.reapWhere,
            Queries.recoverWhere, Queries.purgeWhere, hqueued]
      | nack now message id queueName channel idText =>
          have hne : r.messageId ≠ id := fun heq => hspares heq.symm
          simp [Statement.onRow, Queries.nackWhere, hne]
      | flush => exact absurd hspares id
      | deleteByPk pk => exact if_neg fun heq => hspares heq.symm
      | discard selected =>
          have hnot : r.messageId ∉ selected := hspares
          simp [Statement.onRow, Queries.discardWhere, hnot]
    rw [Table.mem_def, halter.rows, List.mem_filterMap]
    exact ⟨r, hr, hrow⟩
  · have hne : r.messageId ≠ id := by
      cases a <;> simp only [Statement.enqueued, reduceCtorEq, Option.some_inj] at hsome
      all_goals
        rw [← hsome]
        exact fun heq => hspares heq.symm
    rw [hq]
    refine Table.mem_of_find? (k := r.messageId) ?_
    have hfind : (Queries.upsert now queueName id doc delay s.queue).find? r.messageId =
        s.queue.find? r.messageId := Queries.find?_upsert_of_ne hne
    exact hfind.trans (Table.find?_key hr)

/-- **No message starves.**  A queued row that nobody rejects, deletes or
enqueues anew is taken in every run whose claims ask for more rows than are in
front of it or come there. -/
theorem exists_takes (hr : r ∈ s.queue.table) (hqueued : r.state = .queued)
    (hspares : ∀ p ∈ statementSystem.takenFrom s as, Spares r p.2)
    (hserved : rank r s + totalJumped r s as < totalServed r s as) :
    ∃ p ∈ statementSystem.takenFrom s as, Takes r p.1 p.2 := by
  by_contra hnone
  push Not at hnone
  have hstays : ∀ u ∈ statementSystem.visitedFrom s as, r ∈ u.queue.table :=
    StepSystem.inv_of_mem_visitedFrom (C := fun u a => Spares r a ∧ ¬ Takes r u a)
      (fun u a v hu hC hstep => mem_of_spares hu hqueued hC.1 hC.2 hstep) hr
      fun p hp => ⟨hspares p hp, hnone p hp⟩
  have hwaits := waits_le hqueued hstays
  omega

end Run

/-- A claim for one row, a fourth message, the first message back, and a claim
for three rows. -/
def twoClaimsRun : List Statement :=
  [.claim 10 "q" 1 (Uuid.small 9) [], .enqueueQuiet 11 "q" (Uuid.small 4) .null 0,
    .requeue 12 [Uuid.small 1], .claim 13 "q" 3 (Uuid.small 9) []]

/-- The last of three messages is taken in it. -/
theorem exists_takes_twoClaimsRun :
    ∃ s r, statementSystem.Reachable s ∧ rank r s = 2 ∧
      ∃ p ∈ statementSystem.takenFrom s twoClaimsRun, Takes r p.1 p.2 := by
  have hrun : ∃ s ∈ statementSystem.visited
      [.enqueue 0 "q" (Uuid.small 1) .null 0, .enqueue 0 "q" (Uuid.small 2) .null 0,
        .enqueue 0 "q" (Uuid.small 3) .null 0],
      ∃ r ∈ s.queue.table.rows, r.state = .queued ∧ rank r s = 2 ∧
        (∀ p ∈ statementSystem.takenFrom s twoClaimsRun, Spares r p.2) ∧
        rank r s + totalJumped r s twoClaimsRun < totalServed r s twoClaimsRun := by
    decide +kernel
  obtain ⟨s, hs, r, hr, hqueued, hrank, hspares, hserved⟩ := hrun
  exact ⟨s, r, ⟨_, hs⟩, hrank, exists_takes hr hqueued hspares hserved⟩

end Waiting

end DramatiqPostgres

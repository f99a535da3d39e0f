import DramatiqPostgres.Delivery.Workers

/-!
# Stale nacks and requeues

A delivery is stale once its claim is no longer its row's: the row was put back
or enqueued again, and perhaps claimed by another worker.  Neither NACK nor
REQUEUE carries a claim token.  NACK looks at the queue name and at
`state <> 'rejected'`, so a stale nack rejects a queued message, or one another
worker runs; REQUEUE looks at `state = 'consumed'`, so a stale requeue takes a
row away from the worker that claimed it since.

`SettleLaw` is the law for one step, `NotStale` the state a settling call must
not find; they are the same thing (`settleLaw_iff`), and so `staleHarmless_iff`
holds of runs.  The content is in the direction from right to left, where the
invariant `HeldOk` does the work: it is what makes a current delivery's row
`consumed` by its own worker, on its own queue.

### What the law says of rows

Four things, of which the last two speak of no delivery: a row becomes rejected
only by the nack of its current claim, and no worker's requeue puts back a row
that another worker has claimed.  They are what an observer of the table sees.
The first two say that a stale call is as if it were not made.

### What the condition says of states

A stale nack is harmless exactly if it finds the row gone, on another queue, or
rejected already; a stale requeue, if it finds the row in another state than
`consumed`.  `NotStale` says this in the terms of the two statements' `WHERE`,
on the state before the call.
-/

namespace DramatiqPostgres

open Pg

namespace Deployment

/-- The deliveries a `requeue` call settles, if all of them are held and
running. -/
def batch? (s : Deployment) (tokens : List Token) : Option (List Delivery) :=
  tokens.mapM fun token => s.held? token .running

/-- **What settling may do**, for one step from `s` to `t`. -/
structure SettleLaw (s : Deployment) (a : WorkerAction) (t : Deployment) : Prop where
  /-- A stale nack leaves the row unchanged. -/
  nack : ∀ token now options d, a = .nack token now options → s.held? token .failed = some d →
    ¬ s.ledger.Current d → t.ledger.row? d.messageId = s.ledger.row? d.messageId
  /-- A stale requeue leaves the row unchanged. -/
  requeue : ∀ worker tokens now ds, a = .requeue worker tokens now → s.batch? tokens = some ds →
    ∀ d ∈ ds, (∀ d' ∈ ds, d'.messageId = d.messageId → ¬ s.ledger.Current d') →
      t.ledger.row? d.messageId = s.ledger.row? d.messageId
  /-- A row becomes `rejected` only from `consumed`, by the nack of its current
  claim. -/
  rejected : ∀ id r', t.ledger.row? id = some r' → r'.state = .rejected →
    (∃ r, s.ledger.row? id = some r ∧ r.state = .rejected) ∨
      ∃ token now options d, a = .nack token now options ∧ s.held? token .failed = some d ∧
        d.messageId = id ∧ s.ledger.Current d
  /-- No worker's requeue puts back a row that another worker has claimed. -/
  foreign : ∀ worker tokens now id r w, a = .requeue worker tokens now →
    s.ledger.row? id = some r → r.state = .consumed → r.workerId = some w → w ≠ worker →
      t.ledger.row? id = some r

/-- The step is no nack or requeue of a stale delivery that meets a row its
statement matches: a stale nack finds the row gone, on another queue or already
rejected, and a stale requeue finds it in another state than `consumed`. -/
structure NotStale (s : Deployment) (a : WorkerAction) : Prop where
  nack : ∀ token now options d, a = .nack token now options → s.held? token .failed = some d →
    ¬ s.ledger.Current d → ∀ r, s.ledger.row? d.messageId = some r →
      r.queueName = d.message.queueName → r.state = .rejected
  requeue : ∀ worker tokens now ds, a = .requeue worker tokens now → s.batch? tokens = some ds →
    ∀ d ∈ ds, (∀ d' ∈ ds, d'.messageId = d.messageId → ¬ s.ledger.Current d') →
      ∀ r, s.ledger.row? d.messageId = some r → r.state ≠ .consumed

end Deployment

/-- Settling a stale delivery is harmless, at every step of a run: a law about
runs, whose steps are looked at one by one. -/
def StaleHarmless (dqName qName : String → String) (as : List WorkerAction) : Prop :=
  ∀ p ∈ (deploymentSystem dqName qName).taken as, ∀ t,
    (deploymentSystem dqName qName).step p.1 p.2 = some t → p.1.SettleLaw p.2 t

/-! ## Steps that settle nothing -/

namespace Deployment

variable {dqName qName : String → String} {s t : Deployment}

/-- A step other than NACK makes no row rejected, so the third clause of the law
is about nacks only. -/
theorem stateFrame_step {a : WorkerAction} (hstep : s.step dqName qName a = some t)
    (ha : ∀ token now options, a ≠ .nack token now options) :
    StateFrame .rejected s.ledger.db.queue t.ledger.db.queue := by
  cases a with
  | nack token now options => exact absurd rfl (ha token now options)
  | enqueue notify now millis m delay =>
      obtain ⟨l, hl, rfl⟩ := Option.map_eq_some_iff.mp hstep
      obtain ⟨_, _, -, -, rfl⟩ := Ledger.exists_upsert_of_enqueue hl
      exact Queries.stateFrame_upsert (by decide) _ _ _ _ _ _
  | retry | hop =>
      obtain ⟨d, -, hstep⟩ := Option.bind_eq_some_iff.mp hstep
      obtain ⟨l, hl, rfl⟩ := Option.map_eq_some_iff.mp hstep
      obtain ⟨_, _, -, -, rfl⟩ := Ledger.exists_upsert_of_enqueue hl
      exact Queries.stateFrame_upsert (by decide) _ _ _ _ _ _
  | claim worker now queueName limit locked =>
      obtain ⟨⟨ds, l⟩, hl, rfl⟩ := Option.map_eq_some_iff.mp hstep
      obtain ⟨-, rfl⟩ := Ledger.of_claim hl
      exact stateFrame_updateWhere (fun _ => JobState.noConfusion) _
  | ack token =>
      obtain ⟨d, -, hstep⟩ := Option.bind_eq_some_iff.mp hstep
      obtain ⟨l, hl, rfl⟩ := Option.map_eq_some_iff.mp hstep
      obtain ⟨id, -, rfl⟩ := Ledger.of_ack hl
      exact stateFrame_deleteWhere _ _
  | requeue worker tokens now =>
      obtain ⟨ds, -, hstep⟩ := Option.bind_eq_some_iff.mp hstep
      split_ifs at hstep
      obtain ⟨l, hl, rfl⟩ := Option.map_eq_some_iff.mp hstep
      obtain ⟨ids, -, rfl⟩ := Ledger.of_requeue hl
      exact stateFrame_updateWhere (fun _ => JobState.noConfusion) _
  | reap | recover =>
      cases hstep
      exact stateFrame_updateWhere (fun _ => JobState.noConfusion) _
  | purge | flush | discard =>
      cases hstep
      exact stateFrame_deleteWhere _ _
  | succeed token | fail token =>
      obtain ⟨d, -, rfl⟩ := Option.map_eq_some_iff.mp hstep
      exact StateFrame.refl _
  | heartbeat | cleanWorkers | crash =>
      cases hstep
      exact StateFrame.refl _

/-! ## Steps that settle -/

/-- The parts of a NACK step. -/
theorem of_nack {token : Token} {now : Time} {options : List (String × Json)}
    (hok : s.Ok) (hstep : s.step dqName qName (.nack token now options) = some t) :
    ∃ d doc, s.held? token .failed = some d ∧ ∀ k, t.ledger.row? k = (s.ledger.row? k).map fun r =>
      if Queries.nackWhere d.messageId d.message.queueName r then Queries.nackSet now doc r
      else r := by
  obtain ⟨d, hd, hstep⟩ := Option.bind_eq_some_iff.mp hstep
  obtain ⟨l, hl, rfl⟩ := Option.map_eq_some_iff.mp hstep
  have hkey : ({ d.message with options := options } : Message).key? = some d.messageId :=
    (hok.heldOk hd).key
  obtain ⟨doc, hrow⟩ := Ledger.row?_of_nack hl hkey
  exact ⟨d, doc, hd, hrow⟩

theorem heldOk_of_batch {tokens : List Token} {ds : List Delivery} (hok : s.Ok)
    (h : s.batch? tokens = some ds) {d : Delivery} (hd : d ∈ ds) : HeldOk s.ledger d := by
  obtain ⟨token, -, htoken⟩ := List.exists_of_mem_mapM h hd
  exact hok.heldOk htoken

/-- The parts of a REQUEUE step: its statement addresses the ids of the
batch. -/
theorem of_requeue {worker : Uuid} {tokens : List Token} {now : Time} (hok : s.Ok)
    (hstep : s.step dqName qName (.requeue worker tokens now) = some t) :
    ∃ ds, s.batch? tokens = some ds ∧ (∀ d ∈ ds, d.worker = worker) ∧
      ∀ k, t.ledger.row? k = (s.ledger.row? k).map fun r =>
        if Queries.requeueWhere (ds.map Delivery.messageId) r then Queries.putBackSet now r
        else r := by
  obtain ⟨ds, hds, hstep⟩ := Option.bind_eq_some_iff.mp hstep
  split_ifs at hstep with hworker
  obtain ⟨l, hl, rfl⟩ := Option.map_eq_some_iff.mp hstep
  obtain ⟨ids, hids, hrow⟩ := Ledger.row?_of_requeue hl
  refine ⟨ds, hds, hworker, ?_⟩
  -- The keys of the messages are the ids of the rows they were claimed from.
  have hkeys : (ds.map Delivery.message).mapM Message.key? = some (ds.map Delivery.messageId) := by
    rw [List.mapM_eq_some_iff, List.forall₂_map_left_iff, List.forall₂_map_right_iff,
      List.forall₂_same]
    exact fun d hd => (heldOk_of_batch hok hds hd).key
  rw [hkeys, Option.some_inj] at hids
  subst hids
  exact hrow

/-- A step that settles nothing obeys the law. -/
theorem settleLaw_of_stateFrame {a : WorkerAction}
    (hframe : StateFrame .rejected s.ledger.db.queue t.ledger.db.queue)
    (hnack : ∀ token now options, a ≠ .nack token now options)
    (hrequeue : ∀ worker tokens now, a ≠ .requeue worker tokens now) : s.SettleLaw a t := by
  refine ⟨?_, ?_, ?_, ?_⟩
  · rintro token now options d rfl
    exact absurd rfl (hnack token now options)
  · rintro worker tokens now ds rfl
    exact absurd rfl (hrequeue worker tokens now)
  · intro id r' hr' hrejected
    exact Or.inl ⟨r', hframe id r' hr' hrejected, hrejected⟩
  · rintro worker tokens now id r w rfl
    exact absurd rfl (hrequeue worker tokens now)

/-- A nack that is not stale obeys the law. -/
theorem settleLaw_nack {token : Token} {now : Time} {options : List (String × Json)} (hok : s.Ok)
    (hstale : s.NotStale (.nack token now options))
    (hstep : s.step dqName qName (.nack token now options) = some t) :
    s.SettleLaw (.nack token now options) t := by
  obtain ⟨d, doc, hd, hrow⟩ := of_nack hok hstep
  -- A stale nack matches no row.
  have hmiss : ¬ s.ledger.Current d → ∀ r, s.ledger.row? d.messageId = some r →
      Queries.nackWhere d.messageId d.message.queueName r = false := by
    intro hnot r hr
    rw [Queries.nackWhere, decide_eq_false_iff_not]
    rintro ⟨-, hqueue, hstate⟩
    exact hstate (hstale.nack token now options d rfl hd hnot r hr hqueue)
  refine ⟨?_, fun _ _ _ _ h => (by cases h), ?_, fun _ _ _ _ _ _ h => (by cases h)⟩
  · intro token' now' options' d' ha hd' hnot
    cases ha
    rw [hd, Option.some_inj] at hd'
    subst hd'
    rw [hrow]
    cases hr : s.ledger.row? d.messageId with
    | none => rfl
    | some r => simp [hmiss hnot r hr]
  · intro id r' hr' hrejected
    rw [hrow, Option.map_eq_some_iff] at hr'
    obtain ⟨r, hr, hr'⟩ := hr'
    split_ifs at hr' with hwhere
    · right
      simp only [Queries.nackWhere, decide_eq_true_eq] at hwhere
      have hid : d.messageId = id := by rw [← hwhere.1, Queue.messageId_of_find? hr]
      refine ⟨token, now, options, d, rfl, hd, hid, ?_⟩
      by_contra hnot
      have hwhere' := hmiss hnot r (hid ▸ hr)
      simp only [Queries.nackWhere, decide_eq_false_iff_not] at hwhere'
      exact hwhere' hwhere
    · exact Or.inl ⟨r, hr, by rw [hr', hrejected]⟩

/-- A requeue that is not stale obeys the law. -/
theorem settleLaw_requeue {worker : Uuid} {tokens : List Token} {now : Time} (hok : s.Ok)
    (hstale : s.NotStale (.requeue worker tokens now))
    (hstep : s.step dqName qName (.requeue worker tokens now) = some t) :
    s.SettleLaw (.requeue worker tokens now) t := by
  obtain ⟨ds, hds, hworker, hrow⟩ := of_requeue hok hstep
  -- A matched row is the row of a delivery of the batch, and current for one of it.
  have hcurrent : ∀ id r, s.ledger.row? id = some r →
      Queries.requeueWhere (ds.map Delivery.messageId) r = true →
        ∃ d ∈ ds, d.messageId = id ∧ s.ledger.Current d := by
    intro id r hr hwhere
    simp only [Queries.requeueWhere, decide_eq_true_eq] at hwhere
    obtain ⟨d, hd, hid⟩ := List.mem_map.mp hwhere.1
    rw [Queue.messageId_of_find? hr] at hid
    by_contra hnone
    have hnot : ∀ d' ∈ ds, d'.messageId = d.messageId → ¬ s.ledger.Current d' :=
      fun d' hd' hsame hcur => hnone ⟨d', hd', hsame.trans hid, hcur⟩
    exact hstale.requeue worker tokens now ds rfl hds d hd hnot r (hid ▸ hr) hwhere.2
  refine ⟨fun _ _ _ _ h => (by cases h), ?_, ?_, ?_⟩
  · intro worker' tokens' now' ds' ha hds' d hd hnot
    cases ha
    rw [hds, Option.some_inj] at hds'
    subst hds'
    rw [hrow]
    cases hr : s.ledger.row? d.messageId with
    | none => rfl
    | some r =>
        have hmiss : Queries.requeueWhere (ds.map Delivery.messageId) r = false := by
          rw [Bool.eq_false_iff]
          intro hwhere
          obtain ⟨d', hd', hsame, hcur⟩ := hcurrent _ r hr hwhere
          exact hnot d' hd' hsame hcur
        simp [hmiss]
  · intro id r' hr' hrejected
    rw [hrow, Option.map_eq_some_iff] at hr'
    obtain ⟨r, hr, hr'⟩ := hr'
    split_ifs at hr'
    · rw [← hr'] at hrejected
      cases hrejected
    · exact Or.inl ⟨r, hr, by rw [hr', hrejected]⟩
  · intro worker' tokens' now' id r w ha hr hconsumed howner hne
    cases ha
    have hmiss : Queries.requeueWhere (ds.map Delivery.messageId) r = false := by
      rw [Bool.eq_false_iff]
      intro hwhere
      obtain ⟨d, hd, rfl, hcur⟩ := hcurrent id r hr hwhere
      -- The row of a current delivery is owned by the worker that holds it.
      obtain ⟨r', hr', -, -, howner', -⟩ := (heldOk_of_batch hok hds hd).current hcur
      rw [hr, Option.some_inj] at hr'
      subst hr'
      rw [howner, Option.some_inj] at howner'
      exact hne (howner'.trans (hworker d hd))
    simp [hrow, hr, hmiss]

/-- A nack that obeys the law is not stale: where it matches a row, it rejects
it. -/
theorem notStale_nack {token : Token} {now : Time} {options : List (String × Json)} (hok : s.Ok)
    (hstep : s.step dqName qName (.nack token now options) = some t)
    (hlaw : s.SettleLaw (.nack token now options) t) : s.NotStale (.nack token now options) := by
  obtain ⟨d, doc, hd, hrow⟩ := of_nack hok hstep
  refine ⟨?_, fun _ _ _ _ h => (by cases h)⟩
  intro token' now' options' d' ha hd' hnot r hr hqueue
  cases ha
  rw [hd, Option.some_inj] at hd'
  subst hd'
  by_contra hstate
  have hwhere : Queries.nackWhere d.messageId d.message.queueName r = true := by
    simp only [Queries.nackWhere, decide_eq_true_eq]
    exact ⟨Queue.messageId_of_find? hr, hqueue, hstate⟩
  have hsame := hlaw.nack token now options d rfl hd hnot
  rw [hrow, hr, Option.map_some, if_pos hwhere, Option.some_inj] at hsame
  rw [← hsame] at hstate
  exact hstate rfl

/-- A requeue that obeys the law is not stale: where it matches a row, it puts
it back. -/
theorem notStale_requeue {worker : Uuid} {tokens : List Token} {now : Time} (hok : s.Ok)
    (hstep : s.step dqName qName (.requeue worker tokens now) = some t)
    (hlaw : s.SettleLaw (.requeue worker tokens now) t) :
    s.NotStale (.requeue worker tokens now) := by
  obtain ⟨ds, hds, -, hrow⟩ := of_requeue hok hstep
  refine ⟨fun _ _ _ _ h => (by cases h), ?_⟩
  intro worker' tokens' now' ds' ha hds' d hd hnot r hr hconsumed
  cases ha
  rw [hds, Option.some_inj] at hds'
  subst hds'
  have hwhere : Queries.requeueWhere (ds.map Delivery.messageId) r = true := by
    simp only [Queries.requeueWhere, decide_eq_true_eq]
    refine ⟨?_, hconsumed⟩
    rw [Queue.messageId_of_find? hr]
    exact List.mem_map_of_mem hd
  have hsame := hlaw.requeue worker tokens now ds rfl hds d hd hnot
  rw [hrow, hr, Option.map_some, if_pos hwhere, Option.some_inj] at hsame
  rw [← hsame] at hconsumed
  cases hconsumed

/-- **One step obeys the law exactly when it settles no stale delivery against a
matching row.** -/
theorem settleLaw_iff {a : WorkerAction} (hok : s.Ok) (hstep : s.step dqName qName a = some t) :
    s.SettleLaw a t ↔ s.NotStale a := by
  by_cases hnack : ∃ token now options, a = .nack token now options
  · obtain ⟨token, now, options, rfl⟩ := hnack
    exact ⟨notStale_nack hok hstep, fun hstale => settleLaw_nack hok hstale hstep⟩
  · by_cases hrequeue : ∃ worker tokens now, a = .requeue worker tokens now
    · obtain ⟨worker, tokens, now, rfl⟩ := hrequeue
      exact ⟨notStale_requeue hok hstep, fun hstale => settleLaw_requeue hok hstale hstep⟩
    · push Not at hnack hrequeue
      refine ⟨fun _ => ⟨?_, ?_⟩, fun _ => ?_⟩
      · intro token now options _ ha
        exact absurd ha (hnack token now options)
      · intro worker tokens now _ ha
        exact absurd ha (hrequeue worker tokens now)
      · exact settleLaw_of_stateFrame (stateFrame_step hstep hnack) hnack hrequeue

end Deployment

/-! ## The law of every run -/

/-- **Settling stale deliveries is harmless in exactly the runs whose nacks and
requeues of stale deliveries match no row.**  A requeue settles a batch, and the
condition is on each delivery of it. -/
theorem staleHarmless_iff (dqName qName : String → String) (as : List WorkerAction) :
    StaleHarmless dqName qName as ↔
      ∀ p ∈ (deploymentSystem dqName qName).taken as, p.1.NotStale p.2 := by
  constructor
  · intro hlaw p hp
    obtain ⟨-, t, hstep, -⟩ := StepSystem.exists_step_of_mem_takenFrom hp
    exact (Deployment.settleLaw_iff (Deployment.ok_of_mem_taken hp) hstep).mp (hlaw p hp t hstep)
  · intro hstale p hp t hstep
    exact (Deployment.settleLaw_iff (Deployment.ok_of_mem_taken hp) hstep).mpr (hstale p hp)

/-- The reaper puts the message of a paused worker back, and the worker then
nacks it. -/
def staleNackRun : List WorkerAction :=
  [.enqueue true 0 0 (Message.plain "q" (Uuid.small 1)) none,
    .claim (Uuid.small 7) 10 "q" 1 [],
    .reap 20 5,
    .fail ⟨1, Uuid.small 1⟩,
    .nack ⟨1, Uuid.small 1⟩ 30 []]

/-- **The stale nack rejects a queued message.** -/
theorem not_staleHarmless_staleNackRun : ¬ StaleHarmless (· ++ ".DQ") id staleNackRun := by
  intro hlaw
  have hstale : ((deploymentSystem (· ++ ".DQ") id).taken staleNackRun).any (fun p =>
      match p.2 with
      | .nack token _ _ => (p.1.held? token .failed).any fun d =>
          !decide (p.1.ledger.Current d) && (p.1.ledger.row? d.messageId).any fun r =>
            r.queueName = d.message.queueName && r.state = .queued
      | _ => false) = true := by decide +kernel
  obtain ⟨⟨s, a⟩, hp, htest⟩ := List.any_eq_true.mp hstale
  cases a with
  | nack token now options =>
      simp only [Option.any_eq_true, Bool.and_eq_true, Bool.not_eq_true',
        decide_eq_false_iff_not, decide_eq_true_eq] at htest
      obtain ⟨d, hd, hnot, r, hr, hqueue, hqueued⟩ := htest
      obtain ⟨-, t, hstep, -⟩ := StepSystem.exists_step_of_mem_takenFrom hp
      have hnack : s.step (· ++ ".DQ") id (.nack token now options) = some t := hstep
      have hstale := (Deployment.settleLaw_iff (Deployment.ok_of_mem_taken hp) hnack).mp
        (hlaw _ hp t hstep)
      have hrejected := hstale.nack token now options d rfl hd hnot r hr hqueue
      rw [hqueued] at hrejected
      cases hrejected
  | _ => cases htest

end DramatiqPostgres

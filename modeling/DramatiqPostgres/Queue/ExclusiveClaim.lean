import DramatiqPostgres.Lib.RowLocks
import DramatiqPostgres.Queue.Queries

/-!
# Exclusive delivery

The queue's statements at the granularity of row locks: `QueueTx.plan` gives
each its rows, its order and its writes, and `lockSystem` is every interleaving
of any number of them.  CLAIM is the one that orders its candidates, stops at a
limit and skips locked rows; the others wait.

That rows are locked until the commit makes every committed statement atomic, in
commit order (`RowLocks.explained_of_mem_visited`), and what is left is a law
about sequences of atomic statements: a claimed row is not queued, only four
statements queue a row again, and a claim takes queued rows.
`exclusiveDelivery` puts the two together.

`effect_claim` and `admissible_claimNext` tie the plans to the atomic
`Queries.claim`: it is the commit of a claim that met the locks it skipped.

### What exclusive means

Not that a message is delivered once: it is delivered again whenever its row was
put back, by an enqueue of the same id, a REQUEUE, a REAP or a RECOVER, and
these are what the law names.  It means that between two deliveries there is one
of them, in the order of the commits.  Two claims that overlap in time, with
snapshots in which the same rows are queued, do not both get a row: the one that
comes second finds it locked, and skips it, or finds it consumed when it
evaluates its condition again.
-/

namespace DramatiqPostgres

open Pg RowLocks

/-- The statements on the queue.  The worker table REAP reads, and the position
ENQUEUE draws from its sequence, are parameters. -/
inductive QueueTx where
  | claim (now : Time) (queueName : String) (limit : ℕ) (workerId : Uuid)
  | enqueue (now : Time) (queueName : String) (messageId : Uuid) (message : Json) (delay : ℤ)
      (position : ℕ)
  | ack (messageId : Uuid) (queueName : String)
  | nack (now : Time) (message : Json) (messageId : Uuid) (queueName : String)
  | requeue (now : Time) (ids : List Uuid)
  | reap (workers : WorkerTable) (now ttl : Time)
  | recover (now minage : Time)
  | purge (now maxAge : Time)
  | flush
  | deleteByPk (pk : Uuid)
  | discard (selected : List Uuid)

namespace QueueTx

/-- `UPDATE … SET set WHERE cond`, in any order. -/
def updates (cond : Row → Bool) (set : Row → Row) (hset : ∀ r, (set r).messageId = r.messageId) :
    Plan Row.messageId :=
  .scan cond (fun _ _ => true) none false (fun r => some (set r)) fun r r' h => by
    rw [← Option.some_inj.mp h, hset]

/-- `DELETE … WHERE cond`, in any order. -/
def deletes (cond : Row → Bool) : Plan Row.messageId :=
  .scan cond (fun _ _ => true) none false (fun _ => none) fun _ _ h => by cases h

/-- The plan of a statement. -/
def plan : QueueTx → Plan Row.messageId
  | claim now queueName limit workerId =>
      .scan (Queries.claimWhere now queueName) (fun r r' => Queries.claimOrder r r') (some limit)
        true (fun r => some (Queries.claimSet now workerId r)) fun r r' h => by
          rw [← Option.some_inj.mp h, Queries.messageId_claimSet]
  | enqueue now queueName messageId message delay position =>
      .upsert (Queries.enqueueRow now queueName messageId message delay position)
        (Queries.enqueueSet now queueName message delay)
        (Queries.messageId_enqueueSet now queueName message delay)
  | ack messageId queueName => deletes (Queries.ackWhere messageId queueName)
  | nack now message messageId queueName =>
      updates (Queries.nackWhere messageId queueName) (Queries.nackSet now message)
        (Queries.messageId_nackSet now message)
  | requeue now ids =>
      updates (Queries.requeueWhere ids) (Queries.putBackSet now) (Queries.messageId_putBackSet now)
  | reap workers now ttl =>
      updates (Queries.reapWhere workers now ttl) (Queries.putBackSet now)
        (Queries.messageId_putBackSet now)
  | recover now minage =>
      updates (Queries.recoverWhere now minage) Queries.recoverSet Queries.messageId_recoverSet
  | purge now maxAge => deletes (Queries.purgeWhere now maxAge)
  | flush => deletes Queries.flushWhere
  | deleteByPk pk => deletes fun r => r.messageId = pk
  | discard selected => deletes (Queries.discardWhere selected)

end QueueTx

/-- Every interleaving of the queue's statements; a deleted and re-inserted row
has another position.

Each statement is a transaction of its own.  So it is in the program, but for
maintenance, which runs REAP and PURGE in one transaction.  The commit of both
comes after the locks of both, so where the program makes it, this system can
make the two commits one right after the other; that it can also make something
happen between them gives it more runs, and a law about all runs loses nothing.
A law about who waits for whom would lose the locks that REAP keeps: see
`RowWaits`. -/
def lockSystem (table : Table Row Row.messageId) :
    StepSystem (State QueueTx Row.messageId) (Action QueueTx Uuid) :=
  RowLocks.system Row.position QueueTx.plan table

/-! ## The law -/

/-- The event is a claim that returned the message. -/
def Claims (id : Uuid) (e : Event QueueTx Row) : Prop :=
  (∃ now queueName limit workerId, e.stmt = .claim now queueName limit workerId) ∧
    id ∈ e.taken.map Row.messageId

/-- The event set the row of the message back to queued. -/
def PutsBack (id : Uuid) (e : Event QueueTx Row) : Prop :=
  match e.stmt with
  | .enqueue _ _ messageId _ _ _ => messageId = id
  | .requeue _ _ => id ∈ e.taken.map Row.messageId
  | .reap _ _ _ => id ∈ e.taken.map Row.messageId
  | .recover _ _ => id ∈ e.taken.map Row.messageId
  | _ => False

/-- **Exclusive delivery**, for the statements committed so far.  The rows of an
event are in the version that was locked. -/
structure ExclusiveDelivery (log : List (Event QueueTx Row)) : Prop where
  /-- A claim returns at most `limit` different rows, queued and due and of its
  queue. -/
  claims : ∀ e ∈ log, ∀ now queueName limit workerId, e.stmt = .claim now queueName limit workerId →
    e.taken.length ≤ limit ∧ (e.taken.map Row.messageId).Nodup ∧
      ∀ r ∈ e.taken, r.queueName = queueName ∧ r.state = .queued ∧ r.availableAt ≤ now
  /-- Between two claims of a message, its row is set back to queued. -/
  putBack : ∀ id before e₁ between e₂ after, log = before ++ e₁ :: (between ++ e₂ :: after) →
    Claims id e₁ → Claims id e₂ → ∃ e ∈ between, PutsBack id e

/-! ## Sequences of atomic statements -/

section Effect

variable {table : Table Row Row.messageId} {taken : List Row}

/-- The row of an id is gone, or in another state than `queued`. -/
def NotQueued (id : Uuid) (table : Table Row Row.messageId) : Prop :=
  ∀ r, table.find? id = some r → r.state ≠ .queued

/-- A scan whose writes are not queued, or that does not take the row, leaves it
not queued. -/
theorem notQueued_scan {id : Uuid} {cond : Row → Bool} {before : Row → Row → Bool}
    {limit : Option ℕ} {skipLocked : Bool} {write : Row → Option Row}
    {hwrite : ∀ r r', write r = some r' → r'.messageId = r.messageId}
    (hadmissible : Admissible (.scan cond before limit skipLocked write hwrite) taken table)
    (hkeep : id ∉ taken.map Row.messageId → NotQueued id table)
    (hset : id ∈ taken.map Row.messageId → ∀ r r', write r = some r' → r'.state ≠ .queued) :
    NotQueued id (effect (.scan cond before limit skipLocked write hwrite) taken table) := by
  intro r' hr'
  rw [find?_effect_scan hadmissible, Option.bind_eq_some_iff] at hr'
  obtain ⟨r, hr, hr'⟩ := hr'
  split_ifs at hr' with hmem
  · exact hset hmem r r' hr'
  · rw [← Option.some_inj.mp hr']
    exact hkeep hmem r hr

/-- A claimed row is not queued. -/
theorem notQueued_of_claims {id : Uuid} {e : Event QueueTx Row} (h : Claims id e)
    (hadmissible : Admissible e.stmt.plan e.taken table) :
    NotQueued id (effect e.stmt.plan e.taken table) := by
  obtain ⟨⟨now, queueName, limit, workerId, hstmt⟩, hmem⟩ := h
  rw [hstmt] at hadmissible ⊢
  refine notQueued_scan hadmissible (fun hnot => absurd hmem hnot) fun _ r r' hr' => ?_
  rw [← Option.some_inj.mp hr']
  exact JobState.noConfusion

/-- A claim takes queued rows. -/
theorem not_notQueued_of_claims {id : Uuid} {e : Event QueueTx Row} (h : Claims id e)
    (hadmissible : Admissible e.stmt.plan e.taken table) : ¬ NotQueued id table := by
  obtain ⟨⟨now, queueName, limit, workerId, hstmt⟩, hmem⟩ := h
  rw [hstmt] at hadmissible
  obtain ⟨r, hr, rfl⟩ := List.mem_map.mp hmem
  obtain ⟨hfind, hwhere⟩ := hadmissible.1 r hr
  simp only [Queries.claimWhere, decide_eq_true_eq] at hwhere
  intro hnot
  exact hnot r hfind hwhere.2.1

/-- **Only an enqueue, a requeue, the reaper and the recovery queue a row.** -/
theorem notQueued_effect {id : Uuid} {e : Event QueueTx Row} (h : NotQueued id table)
    (hback : ¬ PutsBack id e) (hadmissible : Admissible e.stmt.plan e.taken table) :
    NotQueued id (effect e.stmt.plan e.taken table) := by
  unfold PutsBack at hback
  cases hstmt : e.stmt with
  | claim now queueName limit workerId =>
      rw [hstmt] at hadmissible
      refine notQueued_scan hadmissible (fun _ => h) fun _ r r' hr' => ?_
      rw [← Option.some_inj.mp hr']
      exact JobState.noConfusion
  | enqueue now queueName messageId message delay position =>
      rw [hstmt] at hback
      intro r hr
      simp only [QueueTx.plan, effect] at hr
      have hne : id ≠ messageId := fun heq => hback heq.symm
      rw [Table.find?_upsert] at hr
      exact h r ((if_neg hne).symm.trans hr)
  | ack | purge | flush | deleteByPk | discard =>
      rw [hstmt] at hadmissible
      exact notQueued_scan hadmissible (fun _ => h) fun _ r r' hr' => by cases hr'
  | nack now message messageId queueName =>
      rw [hstmt] at hadmissible
      refine notQueued_scan hadmissible (fun _ => h) fun _ r r' hr' => ?_
      rw [← Option.some_inj.mp hr']
      exact JobState.noConfusion
  | requeue | reap | recover =>
      rw [hstmt] at hadmissible hback
      exact notQueued_scan hadmissible (fun _ => h) fun hmem => absurd hmem hback

/-- **A committed claim is an atomic claim**: its effect is CLAIM's update of
the rows it took. -/
theorem effect_claim {now : Time} {queueName : String} {limit : ℕ} {workerId : Uuid} {q : Queue}
    (hadmissible : Admissible (QueueTx.claim now queueName limit workerId).plan taken q.table)
    (id : Uuid) :
    (effect (QueueTx.claim now queueName limit workerId).plan taken q.table).find? id
      = (Queries.claimUpdate now workerId (taken.map Row.messageId) q).find? id := by
  rw [QueueTx.plan, find?_effect_scan hadmissible, Queries.claimUpdate, Queue.find?_updateWhere]
  show (q.find? id).bind _ = _
  cases hr : q.find? id with
  | none => rfl
  | some r =>
      have hid := Queue.messageId_of_find? hr
      by_cases hmem : id ∈ taken.map Row.messageId
      · simp only [Option.bind_some, Option.map_some, hid, hmem, if_true, decide_true]
      · simp only [Option.bind_some, Option.map_some, hid, hmem, if_false, decide_false,
          Bool.false_eq_true]

/-- **CLAIM's own choice of rows is one a claim under row locks can make**,
whatever it skips. -/
theorem admissible_claimNext (now : Time) (queueName : String) (limit : ℕ) (workerId : Uuid)
    (locked : List Uuid) (q : Queue) :
    Admissible (QueueTx.claim now queueName limit workerId).plan
      (Queries.claimNext now queueName limit locked q) q.table := by
  refine ⟨fun r hr => ?_, ?_, ?_⟩
  · obtain ⟨hmem, hwhere, -⟩ := Queries.mem_claimNext hr
    exact ⟨Table.find?_key hmem, hwhere⟩
  · unfold Queries.claimNext
    refine ((List.take_sublist _ _).map Row.messageId).nodup ?_
    refine (((List.perm_insertionSort Queries.claimOrder _).map Row.messageId).nodup_iff).mpr ?_
    exact (List.filter_sublist.map Row.messageId).nodup q.table.nodup
  · intro n hn
    rw [← Option.some_inj.mp hn]
    exact List.length_take_le _ _

end Effect

/-! ## Every interleaving -/

/-- **Exclusive delivery**, in every interleaving of any number of transactions:
in every state, of the statements committed up to it.  There is no hypothesis on
the run. -/
theorem exclusiveDelivery (table : Table Row Row.messageId) (as : List (Action QueueTx Uuid)) :
    ∀ s ∈ (lockSystem table).visited as, ExclusiveDelivery s.log := by
  intro s hs
  have hexplained : Explained QueueTx.plan table s.log s.committed := explained_of_mem_visited hs
  refine ⟨?_, ?_⟩
  · intro e he now queueName limit workerId hstmt
    obtain ⟨before, after, hlog⟩ := List.append_of_mem he
    rw [hlog, List.append_cons] at hexplained
    obtain ⟨table', hprefix⟩ := hexplained.of_append
    obtain ⟨table₀, -, hadmissible, -⟩ := hprefix.of_concat
    rw [hstmt] at hadmissible
    obtain ⟨htaken, hnodup, hlimit⟩ := hadmissible
    refine ⟨hlimit limit rfl, hnodup, fun r hr => ?_⟩
    simpa only [Queries.claimWhere, decide_eq_true_eq] using (htaken r hr).2
  · intro id before e₁ between e₂ after hlog h₁ h₂
    rw [hlog] at hexplained
    exact hexplained.exists_between (NotQueued id) (Claims id) (Claims id) (PutsBack id)
      (fun _ _ h hadmissible => notQueued_of_claims h hadmissible)
      (fun _ _ h hback hadmissible => notQueued_effect h hback hadmissible)
      (fun _ _ h hadmissible => not_notQueued_of_claims h hadmissible) h₁ h₂

/-- Two claims race for one message; it is requeued, and a third claim takes it
again. -/
def racingClaims : List (Action QueueTx Uuid) :=
  [.start 0 (.enqueue 0 "q" (Uuid.small 1) .null 0 1) [], .lock 0, .commit 0,
    .start 1 (.claim 10 "q" 1 (Uuid.small 7)) [Uuid.small 1],
    .start 2 (.claim 10 "q" 1 (Uuid.small 8)) [Uuid.small 1],
    .lock 1, .lock 2, .commit 2, .commit 1,
    .start 0 (.requeue 20 [Uuid.small 1]) [Uuid.small 1], .lock 0, .commit 0,
    .start 2 (.claim 30 "q" 1 (Uuid.small 8)) [Uuid.small 1], .lock 2, .commit 2]

theorem exclusiveDelivery_racingClaims :
    ∃ s ∈ (lockSystem Table.empty).visited racingClaims,
      s.log.map (fun e => e.taken.length) = [0, 0, 1, 1, 1] ∧ ExclusiveDelivery s.log := by
  have hrun : ∃ s ∈ (lockSystem Table.empty).visited racingClaims,
      s.log.map (fun e => e.taken.length) = [0, 0, 1, 1, 1] := by decide +kernel
  obtain ⟨s, hs, hlog⟩ := hrun
  exact ⟨s, hs, hlog, exclusiveDelivery _ _ s hs⟩

end DramatiqPostgres

import DramatiqPostgres.Lib.LockSteps
import DramatiqPostgres.Queue.ExclusiveClaim

/-!
# Who waits for whom

Every transaction the program opens, as far as its row locks go: `Program` says
what it is opened for, `Program.sql` which statements it runs, and
`transactions` is every interleaving of any number of them.  Queue, worker and
result rows are locked alike, and all locks are kept until the commit.

## Two transactions of several statements

`maybe_maintenance` runs REAP, CLEAN_WORKERS, PURGE_RESULTS and, where there is
a maximal age, PURGE in one transaction, and `purge_command` runs PURGE and
PURGE_RESULTS in one.  What REAP has locked stays locked while the others wait,
and the two lock results and messages in opposite orders.  No account of the
statements by themselves shows that; the test after the witness is this
deadlock.

## Who can be in a deadlock

CLAIM skips the rows that others have locked.  ENQUEUE, ACK, NACK, HEARTBEAT,
STORE and the DELETE of an administrator's retry are after the row of one
primary key, and are alone in their transaction, so they lock nothing before
they wait.  None of these is ever part of a deadlock, and `StartsApart` asks
nothing of them (`single_of_locksMany`).

What is left is REQUEUE, the maintenance, the commands of the command line and
an administrator's discard.  They lock their rows one after the other, in
whatever order they come across them, and wait for each.  The condition is on
the moment a statement of theirs begins: it must not come across rows that
another such transaction has or is after.  A reaper and consumers that requeue
what they hold meet it: it takes the rows of dead workers, they those of live
ones.

## The statements and their rows

Which rows a statement comes across is left open here, within the table it is on
(`Sql.table`), so that a run stands for every state of the tables.  That a
statement locks as its SQL does is `locks_ofQueueTx`, read off the plans of
`QueueTx.plan`; `maps_lockWaits_queue` carries every run of `lockSystem`, where
rows have versions and conditions, to a run of the locks alone, and the law
holds there as well (`noDeadlock_lockSystem`).

Locks on tables, the advisory lock of the maintenance, which is only tried, and
the lock under which notifications are queued at a commit, whose holder waits
for nobody, are left out.
-/

namespace DramatiqPostgres

namespace RowWaits

open Pg LockWaits

/-- A row, by its primary key. -/
inductive RowKey where
  | queue (messageId : Uuid)
  | worker (workerId : Uuid)
  | result (messageId : Uuid)
  deriving DecidableEq

/-- The statements that lock rows, with the values that say which. -/
inductive Sql where
  | claim
  | enqueue (messageId : Uuid)
  | ack (messageId : Uuid)
  | nack (messageId : Uuid)
  | requeue (ids : List Uuid)
  | reap
  | recover
  | purge
  | flush
  | deleteByPk (pk : Uuid)
  | discard (selected : List Uuid)
  | heartbeat (workerId : Uuid)
  | cleanWorkers
  | store (messageId : Uuid)
  | purgeResults

namespace Sql

/-- Only CLAIM says `SKIP LOCKED`. -/
def scope : Sql → Scope
  | claim => .skips
  | enqueue _ | ack _ | nack _ | deleteByPk _ | heartbeat _ | store _ => .one
  | requeue _ | reap | recover | purge | flush | discard _ | cleanWorkers | purgeResults => .many

/-- The rows it can come across. -/
def table : Sql → RowKey → Bool
  | enqueue messageId, k | ack messageId, k | nack messageId, k | deleteByPk messageId, k =>
      k = .queue messageId
  | requeue ids, .queue messageId | discard ids, .queue messageId => messageId ∈ ids
  | claim, .queue _ | reap, .queue _ | recover, .queue _ | purge, .queue _ | flush, .queue _ => true
  | heartbeat workerId, k => k = .worker workerId
  | cleanWorkers, .worker _ => true
  | store messageId, k => k = .result messageId
  | purgeResults, .result _ => true
  | _, _ => false

/-- The statement without its rows. -/
def statement (stmt : Sql) : Statement RowKey := ⟨stmt.scope, stmt.table⟩

end Sql

/-- What the program opens a transaction for: the function, with the arguments
that say which rows its statements are after. -/
inductive Program where
  | next
  | enqueue (messageId : Uuid)
  | ack (messageId : Uuid)
  | nack (messageId : Uuid)
  | requeue (messageIds : List Uuid)
  | maybeHeartbeat (workerId : Uuid)
  /-- The worker that got the advisory lock. -/
  | maybeMaintenance (hasPurgeMaxage : Bool)
  | store (key : Uuid)
  | flushCommand
  | purgeCommand
  | recoverCommand
  /-- The DELETE of one job; the enqueue is on another connection. -/
  | actionRetry (pk : Uuid)
  | actionDiscard (selected : List Uuid)

namespace Program

/-- The statements of the transaction, in order. -/
def sql : Program → List Sql
  | next => [.claim]
  | enqueue messageId => [.enqueue messageId]
  | ack messageId => [.ack messageId]
  | nack messageId => [.nack messageId]
  | requeue messageIds => [.requeue messageIds]
  | maybeHeartbeat workerId => [.heartbeat workerId]
  | maybeMaintenance hasPurgeMaxage =>
      [.reap, .cleanWorkers, .purgeResults] ++ if hasPurgeMaxage then [.purge] else []
  | store key => [.store key]
  | flushCommand => [.flush]
  | purgeCommand => [.purge, .purgeResults]
  | recoverCommand => [.recover]
  | actionRetry pk => [.deleteByPk pk]
  | actionDiscard selected => [.discard selected]

def statements (program : Program) : List (Statement RowKey) := program.sql.map Sql.statement

/-- It can wait for a row while it has locked another. -/
def locksMany : Program → Bool
  | requeue _ | maybeMaintenance _ | flushCommand | purgeCommand | recoverCommand
  | actionDiscard _ => true
  | next | enqueue _ | ack _ | nack _ | maybeHeartbeat _ | store _ | actionRetry _ => false

end Program

/-- Every interleaving of the program's transactions. -/
def transactions : StepSystem (State Program RowKey) (Action Program RowKey) :=
  LockWaits.system Program.statements

/-- A statement of a transaction that locks many rows begins on rows that no
other such transaction has or is after, and what it keeps from its statements
before, none is after. -/
def StartsApart (s : State Program RowKey) : Action Program RowKey → Prop
  | .begin t program keys => program.locksMany = true →
      LockWaits.StartsApart Program.statements s (.begin t program keys)
  | a => LockWaits.StartsApart Program.statements s a

/-- The other transactions have one statement, which skips locked rows or is
after one row. -/
theorem single_of_locksMany {program : Program} (h : program.locksMany = false) :
    ∃ stmt, program.statements = [stmt] ∧ stmt.scope ≠ .many := by
  cases program with
  | requeue | maybeMaintenance | flushCommand | purgeCommand | recoverCommand | actionDiscard =>
      cases h
  | next | enqueue | ack | nack | maybeHeartbeat | store | actionRetry =>
      exact ⟨_, rfl, fun hmany => by cases hmany⟩

/-- **No deadlock.**  In a run whose statements of many rows start apart, no set
of transactions waits for itself, and whoever does not wait can go on. -/
theorem noDeadlock (as : List (Action Program RowKey))
    (hstarts : ∀ p ∈ transactions.taken as, StartsApart p.1 p.2) :
    ∀ s ∈ transactions.visited as, NoDeadlock Program.statements s := by
  refine noDeadlock_of_startsApart Program.statements as fun p hp => ?_
  have hstart := hstarts p hp
  obtain ⟨-, s', hstep, -⟩ := StepSystem.exists_step_of_mem_takenFrom hp
  obtain ⟨s, a⟩ := p
  cases a with
  | begin t program keys =>
      cases hmany : program.locksMany with
      | true => exact hstart hmany
      | false =>
          obtain ⟨stmt, hsingle, hscope⟩ := single_of_locksMany hmany
          exact startsApart_of_one hsingle hscope hstep
  | next t keys => exact hstart
  | visit | pass | commit | abort => trivial

/-! ## A maintenance, a requeue and an acknowledgement -/

/-- The maintenance reaps two messages, drops a worker and purges a message,
while another consumer requeues what it holds, and an acknowledgement comes too
late and waits for the reaper. -/
def maintenanceAndRequeue : List (Action Program RowKey) :=
  [.begin 0 (.maybeMaintenance true) [.queue (Uuid.small 1), .queue (Uuid.small 2)],
    .visit 0, .visit 0,
    .begin 1 (.requeue [Uuid.small 3, Uuid.small 4]) [.queue (Uuid.small 3), .queue (Uuid.small 4)],
    .visit 1, .next 0 [.worker (Uuid.small 7)], .visit 0, .next 0 [],
    .begin 2 (.ack (Uuid.small 2)) [.queue (Uuid.small 2)], .next 0 [.queue (Uuid.small 5)],
    .visit 0, .commit 0, .pass 2, .visit 1, .commit 2, .commit 1]

theorem noDeadlock_maintenanceAndRequeue :
    (∃ s ∈ transactions.visited maintenanceAndRequeue, s.WaitsFor 2 0 ∧
        (s.txs 0).map Tx.pending = some [.queue (Uuid.small 5)] ∧
          s.locks (.queue (Uuid.small 1)) = some 0 ∧ s.locks (.queue (Uuid.small 3)) = some 1) ∧
      (transactions.visited maintenanceAndRequeue).length = maintenanceAndRequeue.length + 1 ∧
        ∀ s ∈ transactions.visited maintenanceAndRequeue, NoDeadlock Program.statements s := by
  refine ⟨by decide +kernel, by decide +kernel, noDeadlock maintenanceAndRequeue fun p hp => ?_⟩
  have hapart : LockWaits.StartsApart Program.statements p.1 p.2 :=
    startsApart_of_below (n := 3) (by decide) (by decide +kernel) p hp
  obtain ⟨s, a⟩ := p
  cases a with
  | begin t program keys => exact fun _ => hapart
  | next | visit | pass | commit | abort => exact hapart

-- The maintenance has deleted a result and waits for a message that the purge command has deleted,
-- and the purge command waits for the result.
example :
    ∃ s ∈ transactions.visited
        [.begin 0 (.maybeMaintenance true) [], .next 0 [], .next 0 [.result (Uuid.small 9)],
          .visit 0, .begin 1 .purgeCommand [.queue (Uuid.small 8)], .visit 1,
          .next 1 [.result (Uuid.small 9)], .next 0 [.queue (Uuid.small 8)]],
      s.WaitsFor 0 1 ∧ s.WaitsFor 1 0 := by
  decide +kernel

/-! ## The statements and their rows -/

/-- The statement on the queue without its rows. -/
def ofQueueTx : QueueTx → Sql
  | .claim .. => .claim
  | .enqueue _ _ messageId _ _ _ => .enqueue messageId
  | .ack messageId _ => .ack messageId
  | .nack _ _ messageId _ => .nack messageId
  | .requeue _ ids => .requeue ids
  | .reap .. => .reap
  | .recover .. => .recover
  | .purge .. => .purge
  | .flush => .flush
  | .deleteByPk pk => .deleteByPk pk
  | .discard selected => .discard selected

/-- It is on the queue. -/
def onQueue (stmt : QueueTx) : Statement Uuid :=
  ⟨(ofQueueTx stmt).scope, fun messageId => (ofQueueTx stmt).table (.queue messageId)⟩

/-- An UPDATE or DELETE waits for its rows. -/
theorem locks_of_waits {cond : Row → Bool} {write : Row → Option Row}
    {hwrite : ∀ r r', write r = some r' → r'.messageId = r.messageId} {stmt : Statement Uuid}
    (hscope : stmt.scope ≠ .skips)
    (hone : stmt.scope = .one → ∀ r r', cond r = true → cond r' = true → r.messageId = r'.messageId)
    (htable : ∀ r, cond r = true → stmt.table r.messageId = true) :
    RowLocks.Locks
      (.scan cond (fun _ _ => true) none false write hwrite : RowLocks.Plan Row.messageId) stmt :=
  ⟨⟨fun h => (nomatch h), fun h => absurd h hscope⟩, fun h => (nomatch h), hone, htable⟩

/-- An UPDATE or DELETE by primary key is after one row. -/
theorem locks_of_pk {cond : Row → Bool} {write : Row → Option Row}
    {hwrite : ∀ r r', write r = some r' → r'.messageId = r.messageId} {pk : Uuid}
    (hpk : ∀ r, cond r = true → r.messageId = pk) :
    RowLocks.Locks
      (.scan cond (fun _ _ => true) none false write hwrite : RowLocks.Plan Row.messageId)
      (⟨.one, fun messageId => decide (RowKey.queue messageId = .queue pk)⟩ : Statement Uuid) :=
  locks_of_waits (fun h => (nomatch h)) (fun _ r r' hr hr' => (hpk r hr).trans (hpk r' hr').symm)
    fun r hr => by rw [hpk r hr]; exact decide_eq_true rfl

/-- **A statement locks its rows as its SQL says.** -/
theorem locks_ofQueueTx (stmt : QueueTx) : RowLocks.Locks stmt.plan (onQueue stmt) := by
  cases stmt with
  | claim =>
      exact ⟨⟨fun _ => rfl, fun _ => rfl⟩, fun _ => rfl, fun h => (nomatch h), fun _ _ => rfl⟩
  | enqueue => exact ⟨rfl, decide_eq_true rfl⟩
  | ack | nack => exact locks_of_pk fun r hr => (of_decide_eq_true hr).1
  | deleteByPk => exact locks_of_pk fun r hr => of_decide_eq_true hr
  | requeue _ ids =>
      refine locks_of_waits (fun h => (nomatch h)) (fun h => (nomatch h)) fun r hr => ?_
      exact decide_eq_true (of_decide_eq_true hr).1
  | discard selected =>
      refine locks_of_waits (fun h => (nomatch h)) (fun h => (nomatch h)) fun r hr => ?_
      exact decide_eq_true (of_decide_eq_true hr).1
  | reap | recover | purge | flush =>
      exact locks_of_waits (fun h => (nomatch h)) (fun h => (nomatch h)) fun _ _ => rfl

/-- Every interleaving of the queue's statements is one of their locks alone. -/
theorem maps_lockWaits_queue (table : Table Row Row.messageId) :
    (lockSystem table).Maps (LockWaits.system fun stmt => [onQueue stmt])
      (RowLocks.State.lockView QueueTx.plan onQueue)
      (RowLocks.lockLabel Row.position QueueTx.plan) :=
  RowLocks.maps_lockWaits locks_ofQueueTx Row.position table

/-- **No deadlock among the rows of the queue**, in the versions and under the
conditions that the statements have: a run of `lockSystem` whose statements
start apart ends in no deadlock. -/
theorem noDeadlock_lockSystem (table : Table Row Row.messageId)
    (as : List (RowLocks.Action QueueTx Uuid))
    (hstarts : ∀ p ∈ (lockSystem table).taken as,
      ∀ a ∈ RowLocks.lockLabel Row.position QueueTx.plan p.1 p.2,
        LockWaits.StartsApart (fun stmt => [onQueue stmt])
          (p.1.lockView QueueTx.plan onQueue) a) :
    NoDeadlock (fun stmt => [onQueue stmt])
      (((lockSystem table).last as).lockView QueueTx.plan onQueue) := by
  obtain ⟨htaken, hlast⟩ := (maps_lockWaits_queue table).run as
  rw [← hlast]
  refine noDeadlock_of_startsApart _ _ (fun p hp => ?_) _ (StepSystem.lastFrom_mem_visitedFrom _ _)
  rw [htaken] at hp
  obtain ⟨q, hq, hlabel⟩ := List.mem_filterMap.mp hp
  obtain ⟨a, ha, rfl⟩ := Option.map_eq_some_iff.mp hlabel
  exact hstarts q hq a ha

end RowWaits

end DramatiqPostgres

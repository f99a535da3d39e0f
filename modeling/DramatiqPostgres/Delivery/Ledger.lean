import DramatiqPostgres.Queue.Broker
import DramatiqPostgres.Queue.Statements

/-!
# The ledger: a queue with its history of enqueues and claims

A row does not say which enqueue of its message id it comes from, nor which
claim made it `consumed`; the statements do not look at either.  A `Ledger` is
the database together with these two facts, kept as history variables:

* `generation id` counts the committed enqueues of `id`; the row of `id`, when
  there is one, is that of the latest;
* `lastClaim id` is the number of the last CLAIM transaction that took the row
  of `id`.

A `Delivery` is a message a worker holds, stamped with both at the time of its
claim.

The operations below are the methods of `broker.py` on a ledger, undefined where
the method raises; each has one inversion lemma, which says what it does to the
queue and to the history.

### Why history

What goes wrong between a claim and its ack, nack or requeue goes wrong because
the statement matches a row that is no longer the one the worker was given.  In
the tables the two rows cannot be told apart: the id is the same, the queue is,
and the state may be.  The two numbers are what tells them apart, and a law
about losing or disturbing a message has to be stated with them.  No operation
reads them, so what the model does is what the statements do.
-/

namespace DramatiqPostgres

open Pg

/-- The database and its history of enqueues and claims.  Claims are numbered in
the order of their commits, from one on, so that zero means that there was
none. -/
structure Ledger where
  db : Database
  /-- Committed enqueues of each message id. -/
  generation : Uuid → ℕ
  /-- The CLAIM transaction that last took each message id, zero before any
  did. -/
  lastClaim : Uuid → ℕ
  /-- The number of the next CLAIM transaction. -/
  nextClaim : ℕ

/-- A message held by a worker process, with the claim it comes from and the
generation its row had then.  The worker knows the message only. -/
structure Delivery where
  message : Message
  /-- The key of the row it was claimed from. -/
  messageId : Uuid
  worker : Uuid
  /-- The CLAIM transaction it comes from. -/
  claim : ℕ
  /-- The generation of its row at that claim. -/
  generation : ℕ

namespace Ledger

/-- The ledger of a fresh installation. -/
def empty : Ledger := ⟨Database.empty, fun _ => 0, fun _ => 0, 1⟩

/-- The row of a message id. -/
def row? (l : Ledger) (id : Uuid) : Option Row := l.db.queue.find? id

/-- Replace the queue. -/
def withQueue (q : Queue) (l : Ledger) : Ledger := { l with db := { l.db with queue := q } }

@[simp] theorem row?_withQueue (q : Queue) (l : Ledger) (id : Uuid) :
    (l.withQueue q).row? id = q.find? id := rfl

/-! ## Operations -/

/-- `PostgresBroker.enqueue`: a new generation of the message id. -/
def enqueue (dqName : String → String) (notify : Bool) (now : Time) (millis : ℤ) (m : Message)
    (delay : Option ℤ) (l : Ledger) : Option Ledger :=
  match m.key?, PostgresBroker.enqueue dqName notify now millis m delay l.db.queue with
  | some id, .ok (_, q, _) =>
      some { l.withQueue q with
        generation := Function.update l.generation id (l.generation id + 1) }
  | _, _ => none

/-- The delivery of a claimed row. -/
def deliver (worker : Uuid) (l : Ledger) (r : Row) : Option Delivery :=
  (Message.ofJson? r.message).map fun m =>
    ⟨m, r.messageId, worker, l.nextClaim, l.generation r.messageId⟩

/-- `PostgresConsumer.claim`: the deliveries of the claimed rows.  Undefined
where a payload does not decode. -/
def claim (worker : Uuid) (now : Time) (queueName : String) (limit : ℕ) (locked : List Uuid)
    (l : Ledger) : Option (List Delivery × Ledger) :=
  let claimed := Queries.claim now queueName limit worker locked l.db.queue
  (claimed.1.mapM (l.deliver worker)).map fun deliveries =>
    (deliveries,
      { l.withQueue claimed.2 with
        lastClaim := fun id => if id ∈ claimed.1.map Row.messageId then l.nextClaim
          else l.lastClaim id
        nextClaim := l.nextClaim + 1 })

/-- `PostgresConsumer.ack`. -/
def ack (m : Message) (l : Ledger) : Option Ledger :=
  match PostgresConsumer.ack m l.db.queue with
  | .ok p => some (l.withQueue p.1)
  | .error _ => none

/-- `PostgresConsumer.nack`. -/
def nack (now : Time) (m : Message) (l : Ledger) : Option Ledger :=
  match PostgresConsumer.nack now m l.db.queue with
  | .ok p => some (l.withQueue p.1)
  | .error _ => none

/-- `PostgresConsumer.requeue`. -/
def requeue (now : Time) (messages : List Message) (l : Ledger) : Option Ledger :=
  match PostgresConsumer.requeue now messages l.db.queue with
  | .ok q => some (l.withQueue q)
  | .error _ => none

/-! ## What each operation does -/

theorem exists_upsert_of_enqueue {dqName : String → String} {notify : Bool} {now : Time}
    {millis : ℤ} {m : Message} {delay : Option ℤ} {l l' : Ledger}
    (h : l.enqueue dqName notify now millis m delay = some l') :
    ∃ id doc, m.key? = some id ∧
      (PostgresBroker.delayed dqName millis delay m).toJson.jsonb = some doc ∧
      l' = { l.withQueue (Queries.upsert now
          (PostgresBroker.delayed dqName millis delay m).queueName id doc (delay.getD 0)
          l.db.queue) with
        generation := Function.update l.generation id (l.generation id + 1) } := by
  unfold enqueue at h
  split at h
  · next id message q notifications hid hresult =>
      obtain ⟨id', doc, hid', hdoc, hq⟩ := PostgresBroker.of_enqueue_ok hresult
      rw [hid, Option.some_inj] at hid'
      subst hid'
      exact ⟨id, doc, hid, hdoc, by rw [← Option.some_inj.mp h, ← hq]⟩
  · cases h

theorem of_ack {m : Message} {l l' : Ledger} (h : l.ack m = some l') :
    ∃ id, m.key? = some id ∧
      l' = l.withQueue (Queries.ackDelete id m.queueName l.db.queue) := by
  unfold ack PostgresConsumer.ack at h
  cases hid : m.key? with
  | none => simp [hid] at h
  | some id =>
      simp only [hid] at h
      split at h
      · next p hp =>
          rw [Option.some_inj] at h
          exact ⟨id, rfl, by rw [← h, Queries.of_ack_ok hp]⟩
      · cases h

theorem of_nack {now : Time} {m : Message} {l l' : Ledger} (h : l.nack now m = some l') :
    ∃ id doc, m.key? = some id ∧ m.toJson.jsonb = some doc ∧
      l' = l.withQueue (Queries.nackUpdate now doc id m.queueName l.db.queue) := by
  unfold nack PostgresConsumer.nack at h
  cases hid : m.key? with
  | none => simp [hid] at h
  | some id =>
      simp only [hid] at h
      split at h
      · next p hp =>
          rw [Option.some_inj] at h
          obtain ⟨doc, hdoc, hq⟩ := Queries.exists_of_nack_ok hp
          exact ⟨id, doc, rfl, hdoc, by rw [← h, hq]⟩
      · cases h

theorem of_requeue {now : Time} {messages : List Message} {l l' : Ledger}
    (h : l.requeue now messages = some l') :
    ∃ ids, messages.mapM Message.key? = some ids ∧
      l' = l.withQueue (Queries.requeue now ids l.db.queue) := by
  unfold requeue PostgresConsumer.requeue at h
  cases messages with
  | nil =>
      refine ⟨[], rfl, ?_⟩
      simp only [List.isEmpty_nil, if_true, Option.some_inj] at h
      rw [← h]
      have hnone : Queries.requeue now [] l.db.queue = l.db.queue := by
        simp [Queries.requeue, Queries.requeueWhere, Queue.updateWhere, Table.updateWhere,
          Table.alter]
      rw [hnone]
  | cons m ms =>
      simp only [List.isEmpty_cons, Bool.false_eq_true, if_false] at h
      cases hids : (m :: ms).mapM Message.key? with
      | none => simp [hids] at h
      | some ids =>
          simp only [hids, Option.some_inj] at h
          exact ⟨ids, rfl, h.symm⟩

/-! ## What settling does to the row of an id -/

theorem row?_of_ack {m : Message} {l l' : Ledger} (h : l.ack m = some l') {id : Uuid}
    (hid : m.key? = some id) (k : Uuid) :
    l'.row? k = (l.row? k).bind fun r =>
      if Queries.ackWhere id m.queueName r then none else some r := by
  obtain ⟨id', hid', rfl⟩ := of_ack h
  rw [hid, Option.some_inj] at hid'
  subst hid'
  exact Queue.find?_deleteWhere _ _ _

theorem row?_of_nack {now : Time} {m : Message} {l l' : Ledger} (h : l.nack now m = some l')
    {id : Uuid} (hid : m.key? = some id) :
    ∃ doc, ∀ k, l'.row? k = (l.row? k).map fun r =>
      if Queries.nackWhere id m.queueName r then Queries.nackSet now doc r else r := by
  obtain ⟨id', doc, hid', -, rfl⟩ := of_nack h
  rw [hid, Option.some_inj] at hid'
  subst hid'
  exact ⟨doc, fun k => Queue.find?_updateWhere _ _ _ _ _⟩

theorem row?_of_requeue {now : Time} {messages : List Message} {l l' : Ledger}
    (h : l.requeue now messages = some l') :
    ∃ ids, messages.mapM Message.key? = some ids ∧ ∀ k, l'.row? k = (l.row? k).map fun r =>
      if Queries.requeueWhere ids r then Queries.putBackSet now r else r := by
  obtain ⟨ids, hids, rfl⟩ := of_requeue h
  exact ⟨ids, hids, fun k => Queue.find?_updateWhere _ _ _ _ _⟩

end Ledger

end DramatiqPostgres

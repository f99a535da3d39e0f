import DramatiqPostgres.Delivery.Workers

/-!
# Delayed messages

`enqueue(message, delay=d)` stores the message on the delay queue of its queue,
with `available_at = NOW() + d` and an `eta` option.  A consumer of the delay
queue claims it when it is due, enqueues it on the base queue without the `eta`,
and acks the copy it holds under the name of the delay queue.  Both rows are one
row: the message id is the primary key.

`clockedSystem` adds the server's clock to `deploymentSystem`: every step
commits at some time, at or after the `NOW()` of its transaction, and commit
times do not go back.

`DelayLaw` is what a delayed message is promised along a run, and `delayKept`
proves it for the `NOW()` of the enqueue, and for the message as `jsonb` stores
it.  A run has two stages, and the proof has one invariant for each:

* `Waiting` — until the hop the row, while there is one, stands on the delay
  queue, not due before its time, and a delivery of it that was made since the
  enqueue is made when it is due;
* `Hopped` — from the hop on the clock is past that time, and the row, while
  there is one, stands on the base queue with the message the hop wrote.

A hop can be made twice, by the deliveries of two claims, one of them put back
in between; the second writes the same message again.

### Deliveries of earlier enqueues

An id can be enqueued again while a worker still holds a delivery of its row
from before.  If that delivery is running, its hop is another enqueue of the id,
and writes the *earlier* message on the base queue, due at once: `Undisturbed`
rules it out with the other enqueues of the id.  Deliveries are told apart by
their claim, `since` being the number of the first claim after the enqueue.

If it has hopped already, only its ack is to come, and nothing can rule that
out.  Once another consumer has claimed the row that waits, this ack deletes it,
so `Untouched` — the row is there, and no delivery of it has ended — needs that
no such delivery was held.  No other part of the law does: a row that is gone is
delivered to nobody, and an ack that names the delay queue never takes a row of
the base queue.

### Which hypothesis carries what

That commit times do not go back, and that a transaction commits after its
`NOW()`, is what makes a delivery of the base queue come after the time it was
due at on the delay queue: the two statements have their own clocks, and the hop
commits between them.  The two equations on the names of queues say that the
base queue of a delay queue is the one it delays for.  `Undisturbed` leaves the
message to dramatiq: nobody else enqueues its id or removes its row.
-/

namespace DramatiqPostgres

open Pg

/-! ## Clocks -/

/-- `NOW()` of the transaction of a step. -/
def WorkerAction.now? : WorkerAction → Option Time
  | .enqueue _ now _ _ _ => some now
  | .claim _ now _ _ _ => some now
  | .retry _ _ now _ _ _ => some now
  | .hop _ _ now _ => some now
  | .nack _ now _ => some now
  | .requeue _ _ now => some now
  | .reap now _ => some now
  | .recover now _ => some now
  | .purge now _ => some now
  | .heartbeat now _ => some now
  | .cleanWorkers now _ => some now
  | _ => none

/-- A step and the time it commits at, which is what orders the steps; the
`NOW()` of its transaction is inside of the step. -/
structure Commit where
  action : WorkerAction
  time : Time

/-- A deployment and the clock of its server: the time of the last commit. -/
structure Clocked where
  world : Deployment
  clock : Time

namespace Clocked

/-- A step commits after the steps before it, and after its transaction
began. -/
def step (dqName qName : String → String) (s : Clocked) (c : Commit) : Option Clocked :=
  if s.clock ≤ c.time ∧ c.action.now?.all (fun now => now ≤ c.time) = true then
    (s.world.step dqName qName c.action).map fun world => ⟨world, c.time⟩
  else none

/-- The deliveries a step makes from a queue; only claims make any. -/
def deliveries (s : Clocked) (c : Commit) (queueName : String) : List Delivery :=
  match c.action with
  | .claim worker now claimed limit locked =>
      if claimed = queueName then
        ((s.world.ledger.claim worker now queueName limit locked).map Prod.fst).getD []
      else []
  | _ => []

end Clocked

/-- Every run on a fresh installation, with the server's clock.  Nothing bounds
how far a `NOW()` is behind its commit. -/
def clockedSystem (dqName qName : String → String) (start : Time) : StepSystem Clocked Commit :=
  ⟨⟨Deployment.empty, start⟩, Clocked.step dqName qName⟩

/-! ## The law -/

/-- The message without its `eta`. -/
def Message.withoutEta (m : Message) : Message :=
  { m with options := m.options.filter fun o => o.1 ≠ "eta" }

/-- The message read back from the column it was stored in. -/
def Message.stored? (m : Message) : Option Message := m.toJson.jsonb.bind ofJson?

/-- A call of `enqueue` with a delay, and the time its transaction commits at.
The delay is counted from `now`, not from there. -/
structure DelayedEnqueue where
  notify : Bool
  now : Time
  millis : ℤ
  message : Message
  delay : ℤ
  time : Time

/-- The step of the call. -/
def DelayedEnqueue.commit (e : DelayedEnqueue) : Commit :=
  ⟨.enqueue e.notify e.now e.millis e.message (some e.delay), e.time⟩

/-- A step that enqueues a message of the id again on its base queue: the second
half of dramatiq's delay. -/
def WorkerAction.Hops (id : Uuid) : WorkerAction → Prop
  | .hop token _ _ _ => token.messageId = id
  | _ => False

instance (id : Uuid) (a : WorkerAction) : Decidable (a.Hops id) := by
  cases a <;> unfold WorkerAction.Hops <;> infer_instance

/-- A step that leaves a delayed message to dramatiq: nobody else enqueues its
id or removes its row, and a delivery from the delay queue ends with its hop.

The hops of the message itself are those of deliveries from `dq` by a claim from
`since` on.  A hop of a delivery that was made before enqueues the id for an
earlier message. -/
def Undisturbed (dq : String) (since : ℕ) (id : Uuid) (s : Deployment) : WorkerAction → Prop
  | .enqueue _ _ _ m _ => m.key? ≠ some id
  | .retry token _ _ _ _ _ => token.messageId ≠ id
  | .hop token _ _ _ => token.messageId = id → since ≤ token.claim ∧
      ∀ d ∈ s.held? token .running, d.message.queueName = dq
  | .succeed token | .fail token => token.messageId = id → ∀ x ∈ s.held,
      x.delivery.token = token → x.delivery.message.queueName ≠ dq
  | .flush => False
  | .discard selected => id ∉ selected
  | _ => True

instance (dq : String) (since : ℕ) (id : Uuid) (s : Deployment) (a : WorkerAction) :
    Decidable (Undisturbed dq since id s a) := by
  cases a <;> unfold Undisturbed <;> infer_instance

/-- **What a delayed message is promised** along a run: `due` is the time of its
delivery on `q`, `Same` what is delivered there, and `Alone` what the third part
is promised under. -/
structure DelayLaw (M : StepSystem Clocked Commit) (q dq : String) (id : Uuid) (due : Time)
    (Same : Message → Prop) (Alone : Prop) (s : Clocked) (as : List Commit) : Prop where
  notEarly : ∀ p ∈ M.takenFrom s as, ∀ d ∈ p.1.deliveries p.2 q, d.messageId = id → due ≤ p.2.time
  same : ∀ p ∈ M.takenFrom s as, ∀ d ∈ p.1.deliveries p.2 q, d.messageId = id → Same d.message
  /-- As long as no hop has committed, the row is on the delay queue. -/
  stays : Alone → (∀ p ∈ M.takenFrom s as, ¬ p.2.action.Hops id) → ∀ u ∈ M.visitedFrom s as,
    ∃ r, u.world.ledger.row? id = some r ∧ r.queueName = dq
  /-- The ack of a delivery from the delay queue deletes no row of the base
  queue. -/
  ackHarmless : ∀ p ∈ M.takenFrom s as, ∀ token d t, p.2.action = .ack token →
    p.1.world.held? token .done = some d → d.messageId = id → d.message.queueName = dq →
      M.step p.1 p.2 = some t → ∀ k r, p.1.world.ledger.row? k = some r → r.queueName = q →
        t.world.ledger.row? k = some r

/-- A delayed enqueue from `s` to `t`, in a run of the system.  The two
equations are what dramatiq says of the names of a base queue and its delay
queue.  `s` is any state a run reaches, with rows and deliveries of the id or
without. -/
structure DelayedEnqueue.Commits (e : DelayedEnqueue) (dqName qName : String → String)
    (start : Time) (id : Uuid) (s t : Clocked) : Prop where
  reachable : (clockedSystem dqName qName start).Reachable s
  key : e.message.key? = some id
  delay_pos : 0 < e.delay
  dqName_ne : dqName e.message.queueName ≠ e.message.queueName
  qName_dqName : qName (dqName e.message.queueName) = e.message.queueName
  step : s.step dqName qName e.commit = some t

/-- No delivery of the id is held from its delay queue, running or still to be
acked.  A condition on the state at the enqueue, and on nothing that comes
later. -/
def Clocked.NoneHeld (s : Clocked) (dq : String) (id : Uuid) : Prop :=
  ∀ x ∈ s.world.held, x.delivery.messageId = id → x.delivery.message.queueName ≠ dq

instance (s : Clocked) (dq : String) (id : Uuid) : Decidable (s.NoneHeld dq id) := by
  unfold Clocked.NoneHeld; infer_instance

/-! ## Messages in the column -/

namespace Message

theorem filter_setOption (key : String) (value : Json) (options : List (String × Json)) :
    ((setOption key value options).filter fun o => o.1 ≠ key)
      = options.filter fun o => o.1 ≠ key := by
  induction options with
  | nil => simp [setOption]
  | cons o os ih =>
      rw [setOption]
      split_ifs with ho
      · simp [ho]
      · simp only [List.filter_cons, ih]

/-- The document of a message that jsonb keeps as it is, without its `eta`. -/
theorem jsonb_withoutEta {m m' : Message} (h : m.toJson.jsonb = some m'.toJson) :
    m.withoutEta.toJson.jsonb = some m'.withoutEta.toJson := by
  obtain ⟨args, kwargs, options, hargs, hkwargs, hoptions, hq, ha, hid, hdoc⟩ :=
    jsonb_toJson_eq_some_iff.mp h
  have hm : m' = { m with args := args, kwargs := kwargs, options := options } := by
    rw [← Option.some_inj, ← ofJson?_toJson, hdoc, ofJson?_toJson]
  refine jsonb_toJson_eq_some_iff.mpr
    ⟨args, kwargs, _, hargs, hkwargs, Json.jsonbFields_filter (fun k => k ≠ "eta") hoptions,
      hq, ha, hid, ?_⟩
  rw [hm]
  rfl

/-- A document in the column is kept as it is. -/
theorem jsonb_of_jsonb {m m' : Message} (h : m.toJson.jsonb = some m'.toJson) :
    m'.toJson.jsonb = some m'.toJson := Json.jsonb_jsonb h

/-- The document a column keeps of a message is that of a message. -/
theorem exists_toJson_of_jsonb {m : Message} {doc : Json} (h : m.toJson.jsonb = some doc) :
    ∃ m' : Message, doc = m'.toJson ∧ m'.queueName = m.queueName ∧
      m'.messageId = m.messageId := by
  obtain ⟨args, kwargs, options, -, -, -, -, -, -, rfl⟩ := jsonb_toJson_eq_some_iff.mp h
  exact ⟨_, rfl, rfl, rfl⟩

/-- The documents of two messages that differ in the queue: the hop changes the
queue name, and the column keeps the rest of the document as it was. -/
theorem jsonb_withQueueName {m m' : Message} (h : m.toJson.jsonb = some m'.toJson)
    {queueName : String} (hq : Json.storable queueName = true) :
    ({ m with queueName := queueName } : Message).toJson.jsonb
      = some ({ m' with queueName := queueName } : Message).toJson := by
  obtain ⟨args, kwargs, options, hargs, hkwargs, hoptions, -, ha, hid, hdoc⟩ :=
    jsonb_toJson_eq_some_iff.mp h
  have hm : m' = { m with args := args, kwargs := kwargs, options := options } := by
    rw [← Option.some_inj, ← ofJson?_toJson, hdoc, ofJson?_toJson]
  refine jsonb_toJson_eq_some_iff.mpr
    ⟨args, kwargs, options, hargs, hkwargs, hoptions, hq, ha, hid, ?_⟩
  rw [hm]

theorem stored?_of_jsonb {m m' : Message} (h : m.toJson.jsonb = some m'.toJson) :
    m.stored? = some m' := by
  rw [stored?, h, Option.bind_some, ofJson?_toJson]

theorem jsonb_of_stored? {m m' : Message} (h : m.stored? = some m') :
    m.toJson.jsonb = some m'.toJson := by
  obtain ⟨doc, hdoc, hm'⟩ := Option.bind_eq_some_iff.mp h
  obtain ⟨m'', rfl, -, -⟩ := exists_toJson_of_jsonb hdoc
  rw [ofJson?_toJson, Option.some_inj] at hm'
  rw [hdoc, hm']

end Message

/-! ## What an undisturbed step does to the message -/

/-- The rows are of one enqueue: the same message in the same place, rejected or
not.  What a claim, a reap or a recovery does to a row keeps this. -/
structure Row.SameJob (r r' : Row) : Prop where
  queueName : r'.queueName = r.queueName
  message : r'.message = r.message
  availableAt : r'.availableAt = r.availableAt
  rejected : r'.state = .rejected ↔ r.state = .rejected

theorem Row.SameJob.refl (r : Row) : r.SameJob r := ⟨rfl, rfl, rfl, Iff.rfl⟩

namespace Deployment

variable {dqName qName : String → String} {dq : String} {since : ℕ} {id : Uuid}
  {s t : Deployment}

/-- What becomes of the row of an id in an undisturbed step.  There is one case
for each thing that can happen to it, and both stages are proved by these
cases. -/
inductive RowStep (qName : String → String) (dq : String) (since : ℕ) (id : Uuid)
    (s : Deployment) (a : WorkerAction) (t : Deployment) : Prop where
  | absent (before : s.ledger.row? id = none) (after : t.ledger.row? id = none)
  | kept {r r' : Row} (hops : ¬ a.Hops id) (before : s.ledger.row? id = some r)
      (after : t.ledger.row? id = some r') (same : r.SameJob r')
  /-- An ack or a nack, of a delivery from the row's queue. -/
  | settled {x : Held} {r : Row} (before : s.ledger.row? id = some r) (held : x ∈ s.held)
      (key : x.delivery.messageId = id) (queue : r.queueName = x.delivery.message.queueName)
      (phase : x.phase ≠ .running)
      (after : ∀ r', t.ledger.row? id = some r' →
        r'.queueName = r.queueName ∧ r'.state = .rejected)
  | purged {r : Row} (before : s.ledger.row? id = some r) (rejected : r.state = .rejected)
      (after : t.ledger.row? id = none)
  | hopped {x : Held} {r' : Row} (hops : a.Hops id) (held : x ∈ s.held)
      (key : x.delivery.messageId = id) (queue : x.delivery.message.queueName = dq)
      (since_le : since ≤ x.delivery.claim) (after : t.ledger.row? id = some r')
      (name : r'.queueName = qName x.delivery.message.queueName)
      (message : (hopped qName x.delivery.message).toJson.jsonb = some r'.message)

namespace RowStep

variable {a : WorkerAction}

theorem of_eq (hops : ¬ a.Hops id) (h : t.ledger.row? id = s.ledger.row? id) :
    RowStep qName dq since id s a t := by
  cases hr : s.ledger.row? id with
  | none => exact .absent hr (h.trans hr)
  | some r => exact .kept hops hr (h.trans hr) (.refl r)

theorem of_updateWhere {p : Row → Bool} {set : Row → Row} (hops : ¬ a.Hops id)
    (h : t.ledger.row? id = (s.ledger.row? id).map fun r => if p r then set r else r)
    (hset : ∀ r, p r = true → r.SameJob (set r)) : RowStep qName dq since id s a t := by
  cases hr : s.ledger.row? id with
  | none => exact .absent hr (by rw [h, hr]; rfl)
  | some r =>
      rw [hr, Option.map_some] at h
      split_ifs at h with hp
      · exact .kept hops hr h (hset r hp)
      · exact .kept hops hr h (.refl r)

end RowStep

theorem sameJob_putBackSet (now : Time) {r : Row} (h : r.state = .consumed) :
    r.SameJob (Queries.putBackSet now r) :=
  ⟨rfl, rfl, rfl, by rw [h]; exact iff_of_false JobState.noConfusion JobState.noConfusion⟩

theorem sameJob_recoverSet {r : Row} (h : r.state = .consumed) :
    r.SameJob (Queries.recoverSet r) :=
  ⟨rfl, rfl, rfl, by rw [h]; exact iff_of_false JobState.noConfusion JobState.noConfusion⟩

/-- An enqueue of another id. -/
theorem row?_of_enqueue {notify : Bool} {now : Time} {millis : ℤ} {m : Message}
    {delay : Option ℤ} {l l' : Ledger} (h : l.enqueue dqName notify now millis m delay = some l')
    (hid : m.key? ≠ some id) : l'.row? id = l.row? id := by
  obtain ⟨k, doc, hk, -, rfl⟩ := Ledger.exists_upsert_of_enqueue h
  have hne : id ≠ k := by
    rintro rfl
    exact hid hk
  exact Queries.find?_upsert_of_ne hne

theorem exists_held_of_held? {token : Token} {phase : Phase} {d : Delivery}
    (h : s.held? token phase = some d) :
    ∃ x ∈ s.held, x.delivery = d ∧ x.phase = phase ∧ d.token = token := by
  obtain ⟨x, hx, rfl⟩ := Option.map_eq_some_iff.mp h
  have hp := List.find?_some hx
  simp only [decide_eq_true_eq] at hp
  exact ⟨x, List.mem_of_find?_eq_some hx, rfl, hp.2, hp.1⟩

/-- **The row of an id in an undisturbed step.**  The only place where the
statements are looked at one by one; the two stages are proved from its
cases. -/
theorem rowStep_of_step {a : WorkerAction} (hok : s.Ok) (hund : Undisturbed dq since id s a)
    (hstep : s.step dqName qName a = some t) : RowStep qName dq since id s a t := by
  cases a with
  | enqueue notify now millis m delay =>
      obtain ⟨l, hl, rfl⟩ := Option.map_eq_some_iff.mp hstep
      exact .of_eq not_false (row?_of_enqueue hl hund)
  | claim worker now queueName limit locked =>
      obtain ⟨⟨ds, l⟩, hl, rfl⟩ := Option.map_eq_some_iff.mp hstep
      obtain ⟨-, rfl⟩ := Ledger.of_claim hl
      rcases find?_claimUpdate worker now queueName limit locked s.ledger.db.queue id with
        ⟨-, r, hr, hqueued, hset⟩ | ⟨-, hsame⟩
      · exact .kept not_false hr hset ⟨rfl, rfl, rfl, by
          rw [hqueued]
          exact iff_of_false JobState.noConfusion JobState.noConfusion⟩
      · exact .of_eq not_false hsame
  | retry token notify now millis options delay =>
      obtain ⟨d, hd, hstep⟩ := Option.bind_eq_some_iff.mp hstep
      obtain ⟨l, hl, rfl⟩ := Option.map_eq_some_iff.mp hstep
      obtain ⟨-, htoken⟩ := mem_of_held? hd
      have hkey := (hok.heldOk hd).key
      refine .of_eq not_false (row?_of_enqueue hl ?_)
      intro hid
      have hsame : some d.messageId = some id := hkey.symm.trans hid
      exact hund (by rw [← htoken]; exact Option.some_inj.mp hsame)
  | hop token notify now millis =>
      obtain ⟨d, hd, hstep⟩ := Option.bind_eq_some_iff.mp hstep
      obtain ⟨l, hl, rfl⟩ := Option.map_eq_some_iff.mp hstep
      obtain ⟨x, hx, rfl, -, htoken⟩ := exists_held_of_held? hd
      have hkey := (hok.heldOk hd).key
      by_cases hid : token.messageId = id
      · have hmid : x.delivery.messageId = id := by rw [← hid, ← htoken]; rfl
        obtain ⟨k, doc, hk, hdoc, rfl⟩ := Ledger.exists_upsert_of_enqueue hl
        obtain ⟨r', hr', -, hmessage, hname⟩ := Queries.exists_find?_upsert now
          (qName x.delivery.message.queueName) k doc 0 s.ledger.db.queue
        have hsame : some k = some id := by
          rw [← hmid, ← hkey]
          exact hk.symm
        rw [Option.some_inj] at hsame
        subst hsame
        obtain ⟨hsince, hqueue⟩ := hund hid
        have hclaim : since ≤ x.delivery.claim := by
          rw [← htoken] at hsince
          exact hsince
        exact .hopped hid hx hmid (hqueue _ hd) hclaim hr' hname (by rw [hmessage]; exact hdoc)
      · refine .of_eq hid (row?_of_enqueue hl ?_)
        intro hk
        have hsame : some x.delivery.messageId = some id := hkey.symm.trans hk
        exact hid (by rw [← htoken]; exact Option.some_inj.mp hsame)
  | ack token =>
      obtain ⟨d, hd, hstep⟩ := Option.bind_eq_some_iff.mp hstep
      obtain ⟨l, hl, rfl⟩ := Option.map_eq_some_iff.mp hstep
      obtain ⟨x, hx, rfl, hphase, -⟩ := exists_held_of_held? hd
      have hrow := Ledger.row?_of_ack hl (hok.heldOk hd).key id
      cases hr : s.ledger.row? id with
      | none => exact .absent hr (by rw [hr] at hrow; exact hrow)
      | some r =>
          rw [hr, Option.bind_some] at hrow
          split_ifs at hrow with hwhere
          · simp only [Queries.ackWhere, decide_eq_true_eq] at hwhere
            refine .settled hr hx (hwhere.1.symm.trans (Queue.messageId_of_find? hr)) hwhere.2.1
              (by rw [hphase]; decide) fun r' hr' => ?_
            have hnone : (none : Option Row) = some r' := hrow.symm.trans hr'
            cases hnone
          · exact .kept not_false hr hrow (.refl r)
  | nack token now options =>
      obtain ⟨d, hd, hstep⟩ := Option.bind_eq_some_iff.mp hstep
      obtain ⟨l, hl, rfl⟩ := Option.map_eq_some_iff.mp hstep
      obtain ⟨x, hx, rfl, hphase, -⟩ := exists_held_of_held? hd
      obtain ⟨doc, hrows⟩ := Ledger.row?_of_nack hl (hok.heldOk hd).key
      have hrow := hrows id
      cases hr : s.ledger.row? id with
      | none => exact .absent hr (by rw [hr] at hrow; exact hrow)
      | some r =>
          rw [hr, Option.map_some] at hrow
          split_ifs at hrow with hwhere
          · simp only [Queries.nackWhere, decide_eq_true_eq] at hwhere
            refine .settled hr hx (hwhere.1.symm.trans (Queue.messageId_of_find? hr)) hwhere.2.1
              (by rw [hphase]; decide) fun r' hr' => ?_
            have hsame : some (Queries.nackSet now doc r) = some r' := hrow.symm.trans hr'
            rw [← Option.some_inj.mp hsame]
            exact ⟨rfl, rfl⟩
          · exact .kept not_false hr hrow (.refl r)
  | requeue worker tokens now =>
      obtain ⟨ds, -, hstep⟩ := Option.bind_eq_some_iff.mp hstep
      split_ifs at hstep
      obtain ⟨l, hl, rfl⟩ := Option.map_eq_some_iff.mp hstep
      obtain ⟨ids, -, hrows⟩ := Ledger.row?_of_requeue hl
      refine .of_updateWhere not_false (hrows id) fun r hp => ?_
      simp only [Queries.requeueWhere, decide_eq_true_eq] at hp
      exact sameJob_putBackSet now hp.2
  | reap now ttl =>
      cases hstep
      refine .of_updateWhere not_false (Queue.find?_updateWhere _ _ _ _ id) fun r hp => ?_
      simp only [Queries.reapWhere, decide_eq_true_eq] at hp
      exact sameJob_putBackSet now hp.1
  | recover now minage =>
      cases hstep
      refine .of_updateWhere not_false (Queue.find?_updateWhere _ _ _ _ id) fun r hp => ?_
      simp only [Queries.recoverWhere, decide_eq_true_eq] at hp
      exact sameJob_recoverSet hp.1
  | purge now maxAge =>
      cases hstep
      have hrow := Queue.find?_deleteWhere (Queries.purgeWhere now maxAge) s.ledger.db.queue id
      cases hr : s.ledger.row? id with
      | none =>
          rw [show s.ledger.db.queue.find? id = none from hr] at hrow
          exact .absent hr hrow
      | some r =>
          rw [show s.ledger.db.queue.find? id = some r from hr, Option.bind_some] at hrow
          split_ifs at hrow with hp
          · simp only [Queries.purgeWhere, decide_eq_true_eq] at hp
            exact .purged hr hp.1 hrow
          · exact .kept not_false hr hrow (.refl r)
  | discard selected =>
      cases hstep
      have hrow := Queue.find?_deleteWhere (Queries.discardWhere selected) s.ledger.db.queue id
      refine .of_eq not_false (hrow.trans ?_)
      show (s.ledger.row? id).bind _ = s.ledger.row? id
      cases hr : s.ledger.row? id with
      | none => rfl
      | some r =>
          have hnot : Queries.discardWhere selected r = false := by
            simp only [Queries.discardWhere, Queue.messageId_of_find? hr, decide_eq_false_iff_not]
            exact fun h => hund h.1
          rw [Option.bind_some, hnot]
          rfl
  | flush => exact False.elim hund
  | succeed token | fail token =>
      obtain ⟨d, -, rfl⟩ := Option.map_eq_some_iff.mp hstep
      exact .of_eq not_false rfl
  | heartbeat | cleanWorkers | crash =>
      cases hstep
      exact .of_eq not_false rfl

/-- Where a delivery of an id from the delay queue, held after an undisturbed
step, comes from: it was held before, or the step has claimed it from a due
row. -/
inductive HeldStep (id : Uuid) (s : Deployment) (a : WorkerAction) (x : Held) : Prop where
  | kept {y : Held} (before : y ∈ s.held) (delivery : y.delivery = x.delivery)
      (phase : a.Hops id ∨ y.phase = x.phase)
  | claimed {now : Time} {r : Row} (now? : a.now? = some now) (row : s.ledger.row? id = some r)
      (due : r.availableAt ≤ now) (queued : r.state = .queued)
      (queue : r.queueName = x.delivery.message.queueName)
      (message : Message.ofJson? r.message = some x.delivery.message) (phase : x.phase = .running)

/-- **A claimed delivery comes from a due row** of its queue, with the row's
message. -/
theorem exists_row_of_mem_claim {l l' : Ledger} {worker : Uuid} {now : Time} {queueName : String}
    {limit : ℕ} {locked : List Uuid} {ds : List Delivery} (hwf : l.Wf)
    (h : l.claim worker now queueName limit locked = some (ds, l')) {d : Delivery} (hd : d ∈ ds) :
    ∃ r, l.row? d.messageId = some r ∧ r.availableAt ≤ now ∧ r.state = .queued ∧
      r.queueName = queueName ∧ Message.ofJson? r.message = some d.message ∧
      d.message.queueName = queueName := by
  obtain ⟨r, hr, hdecode, hid, -⟩ := Ledger.exists_of_mem_claim h hd
  obtain ⟨hmem, hwhere, -⟩ := Queries.mem_claimNext hr
  simp only [Queries.claimWhere, decide_eq_true_eq] at hwhere
  obtain ⟨hqueue, hqueued, hdue⟩ := hwhere
  have hrow : l.row? d.messageId = some r := hid ▸ Table.find?_key hmem
  obtain ⟨m, hm, -, hname⟩ := hwf.decodes _ _ hrow
  rw [hdecode, Option.some_inj] at hm
  subst hm
  exact ⟨r, hrow, hdue, hqueued, hqueue, hdecode, hname.trans hqueue⟩

/-- The end of a run changes the phase of its delivery only. -/
theorem exists_held_of_endRun {token : Token} {phase : Phase} {x : Held}
    (hx : x ∈ (s.endRun token phase).held) :
    ∃ y ∈ s.held, y.delivery = x.delivery ∧ (x.delivery.token = token ∨ y.phase = x.phase) := by
  obtain ⟨y, hy, rfl⟩ := List.mem_map.mp hx
  refine ⟨y, hy, ?_⟩
  split_ifs with htoken
  · exact ⟨rfl, Or.inl htoken⟩
  · exact ⟨rfl, Or.inr rfl⟩

/-- **The deliveries of an id in an undisturbed step.**  The counterpart of
`rowStep_of_step` for what the workers hold. -/
theorem heldStep_of_step {a : WorkerAction} (hok : s.Ok) (hund : Undisturbed dq since id s a)
    (hstep : s.step dqName qName a = some t) {x : Held} (hx : x ∈ t.held)
    (hid : x.delivery.messageId = id) (hdq : x.delivery.message.queueName = dq) :
    HeldStep id s a x := by
  have hmid {token : Token} (h : x.delivery.token = token) : token.messageId = id := by
    rw [← h]
    exact hid
  cases a with
  | claim worker now queueName limit locked =>
      obtain ⟨⟨ds, l⟩, hl, rfl⟩ := Option.map_eq_some_iff.mp hstep
      rcases List.mem_append.mp hx with hx | hx
      · exact .kept hx rfl (Or.inr rfl)
      · obtain ⟨d, hd, rfl⟩ := List.mem_map.mp hx
        obtain ⟨r, hrow, hdue, hqueued, hqueue, hmessage, hname⟩ :=
          exists_row_of_mem_claim hok.wf hl hd
        exact .claimed rfl (hid ▸ hrow) hdue hqueued (hqueue.trans hname.symm) hmessage rfl
  | succeed token | fail token =>
      obtain ⟨d, -, rfl⟩ := Option.map_eq_some_iff.mp hstep
      obtain ⟨y, hy, hyx, htoken | hphase⟩ := exists_held_of_endRun hx
      · exact absurd (hyx ▸ hdq) (hund (hmid htoken) y hy (hyx ▸ htoken))
      · exact .kept hy hyx (Or.inr hphase)
  | retry token notify now millis options delay =>
      obtain ⟨d, -, hstep⟩ := Option.bind_eq_some_iff.mp hstep
      obtain ⟨l, -, rfl⟩ := Option.map_eq_some_iff.mp hstep
      obtain ⟨y, hy, hyx, htoken | hphase⟩ := exists_held_of_endRun (s := s.withLedger l) hx
      · exact absurd (hmid htoken) hund
      · exact .kept hy hyx (Or.inr hphase)
  | hop token notify now millis =>
      obtain ⟨d, -, hstep⟩ := Option.bind_eq_some_iff.mp hstep
      obtain ⟨l, -, rfl⟩ := Option.map_eq_some_iff.mp hstep
      obtain ⟨y, hy, hyx, hor⟩ := exists_held_of_endRun (s := s.withLedger l) hx
      exact .kept hy hyx (hor.imp_left hmid)
  | ack token | nack token now options =>
      obtain ⟨d, -, hstep⟩ := Option.bind_eq_some_iff.mp hstep
      obtain ⟨l, -, rfl⟩ := Option.map_eq_some_iff.mp hstep
      exact .kept (List.mem_filter.mp hx).1 rfl (Or.inr rfl)
  | requeue worker tokens now =>
      obtain ⟨ds, -, hstep⟩ := Option.bind_eq_some_iff.mp hstep
      split_ifs at hstep
      obtain ⟨l, -, rfl⟩ := Option.map_eq_some_iff.mp hstep
      exact .kept (List.mem_filter.mp hx).1 rfl (Or.inr rfl)
  | enqueue notify now millis m delay =>
      obtain ⟨l, -, rfl⟩ := Option.map_eq_some_iff.mp hstep
      exact .kept hx rfl (Or.inr rfl)
  | reap | recover | purge | flush | discard | heartbeat | cleanWorkers =>
      cases hstep
      exact .kept hx rfl (Or.inr rfl)
  | crash worker =>
      cases hstep
      exact .kept (List.mem_filter.mp hx).1 rfl (Or.inr rfl)

end Deployment

/-! ## The two stages -/

namespace Clocked

variable {dqName qName : String → String} {q dq : String} {since : ℕ} {id : Uuid} {due : Time}
  {m : Message} {base : Option Message} {s t : Clocked} {c : Commit}

/-- The parts of a step. -/
theorem of_step (h : s.step dqName qName c = some t) :
    s.clock ≤ c.time ∧ (∀ now, c.action.now? = some now → now ≤ c.time) ∧
      s.world.step dqName qName c.action = some t.world ∧ t.clock = c.time := by
  rw [step] at h
  split_ifs at h with hc
  obtain ⟨world, hworld, rfl⟩ := Option.map_eq_some_iff.mp h
  refine ⟨hc.1, fun now hnow => ?_, hworld, rfl⟩
  simpa [hnow] using hc.2

/-- The ledger of every run is well formed. -/
theorem ok_of_reachable {start : Time} (h : (clockedSystem dqName qName start).Reachable s) :
    s.world.Ok :=
  StepSystem.Reachable.inv (I := fun s => s.world.Ok) Deployment.ok_empty
    (fun _ _ _ hok hstep => hok.step (of_step hstep).2.2.1) h

/-- Before the hop: the row, while there is one, is on the delay queue, and the
deliveries made since the enqueue are those of a message that is due.  It is a
law about deliveries as much as about the row, since the hop is made from a
delivery. -/
structure Waiting (dq : String) (since : ℕ) (id : Uuid) (due : Time) (m : Message) (s : Clocked) :
    Prop where
  row : ∀ r, s.world.ledger.row? id = some r → r.queueName = dq ∧
    (r.state ≠ .rejected → Message.ofJson? r.message = some m ∧ r.availableAt = due)
  held : ∀ x ∈ s.world.held, x.delivery.messageId = id → x.delivery.message.queueName = dq →
    since ≤ x.delivery.claim → x.delivery.message = m ∧ due ≤ s.clock

/-- The row is there, and its deliveries run: none of them has hopped, so no ack
of them is to come. -/
structure Untouched (dq : String) (id : Uuid) (s : Clocked) : Prop where
  row : ∃ r, s.world.ledger.row? id = some r ∧ r.queueName = dq ∧ r.state ≠ .rejected
  running : ∀ x ∈ s.world.held, x.delivery.messageId = id →
    x.delivery.message.queueName = dq → x.phase = .running

/-- After the hop: the time has come, and the row is on the base queue.  A late
ack of the delay queue's delivery names another queue, and does not take it. -/
structure Hopped (q dq : String) (since : ℕ) (id : Uuid) (due : Time) (m : Message)
    (base : Option Message) (s : Clocked) : Prop where
  due_le : due ≤ s.clock
  row : ∀ r, s.world.ledger.row? id = some r → r.queueName = q ∧
    (r.state ≠ .rejected → Message.ofJson? r.message = base)
  held : ∀ x ∈ s.world.held, x.delivery.messageId = id → x.delivery.message.queueName = dq →
    since ≤ x.delivery.claim → x.delivery.message = m

/-- A hop writes the message of the base queue: what `enqueue` makes of the
message it was delivered, without its `eta`. -/
def HopWrites (qName : String → String) (q dq : String) (m : Message) (base : Option Message) :
    Prop :=
  qName dq = q ∧ ∀ doc, (Deployment.hopped qName m).toJson.jsonb = some doc →
    Message.ofJson? doc = base

/-- **Step lemma of the first stage**: only a hop ends it.  A claim delivers a
due row, so the time has come; a row that is put back keeps its place. -/
theorem Waiting.step (hok : s.world.Ok) (hund : Undisturbed dq since id s.world c.action)
    (hwrites : HopWrites qName q dq m base) (h : s.Waiting dq since id due m)
    (hstep : s.step dqName qName c = some t) :
    t.Waiting dq since id due m ∨ t.Hopped q dq since id due m base := by
  obtain ⟨hclock, hnow, hworld, htime⟩ := of_step hstep
  have hheld (x : Held) (hx : x ∈ t.world.held) (hid : x.delivery.messageId = id)
      (hdq : x.delivery.message.queueName = dq) (hsince : since ≤ x.delivery.claim) :
      x.delivery.message = m ∧ due ≤ t.clock := by
    rw [htime]
    cases Deployment.heldStep_of_step hok hund hworld hx hid hdq with
    | kept hy hdelivery =>
        obtain ⟨hm, hle⟩ := h.held _ hy (hdelivery ▸ hid) (hdelivery ▸ hdq) (hdelivery ▸ hsince)
        exact ⟨hdelivery ▸ hm, hle.trans hclock⟩
    | claimed hnow' hrow hle hqueued _ hdecode =>
        -- The row claimed is the row that was waiting, and it was due.
        obtain ⟨hmessage, hdue⟩ := (h.row _ hrow).2 (by rw [hqueued]; decide)
        rw [hmessage, Option.some_inj] at hdecode
        exact ⟨hdecode.symm, hdue ▸ hle.trans (hnow _ hnow')⟩
  cases Deployment.rowStep_of_step hok hund hworld with
  | absent _ hnone =>
      refine Or.inl ⟨fun r' hr' => ?_, hheld⟩
      rw [hnone] at hr'
      cases hr'
  | kept _ hbefore hafter hsame =>
      obtain ⟨hqueue, hmessage⟩ := h.row _ hbefore
      refine Or.inl ⟨fun r' hr' => ?_, hheld⟩
      rw [hafter, Option.some_inj] at hr'
      subst hr'
      refine ⟨hsame.queueName.trans hqueue, fun hrej => ?_⟩
      rw [hsame.message, hsame.availableAt]
      exact hmessage fun hr => hrej (hsame.rejected.mpr hr)
  | settled hbefore _ _ _ _ hafter =>
      refine Or.inl ⟨fun r' hr' => ?_, hheld⟩
      obtain ⟨hqueue, hrejected⟩ := hafter _ hr'
      exact ⟨hqueue.trans (h.row _ hbefore).1, fun hrej => absurd hrejected hrej⟩
  | purged _ _ hnone =>
      refine Or.inl ⟨fun r' hr' => ?_, hheld⟩
      rw [hnone] at hr'
      cases hr'
  | hopped _ hx hid hdq hsince hafter hname hdoc =>
      obtain ⟨hm, hle⟩ := h.held _ hx hid hdq hsince
      refine Or.inr ⟨(hle.trans hclock).trans_eq htime.symm, fun r' hr' => ?_,
        fun x hx hid hdq hsince => (hheld x hx hid hdq hsince).1⟩
      rw [hafter, Option.some_inj] at hr'
      subst hr'
      rw [hm] at hdoc
      exact ⟨hname.trans (by rw [hdq]; exact hwrites.1), fun _ => hwrites.2 _ hdoc⟩

/-- **A row that was alone at the enqueue stays until a hop.** -/
theorem Untouched.step (hok : s.world.Ok) (hund : Undisturbed dq since id s.world c.action)
    (hhop : ¬ c.action.Hops id) (h : s.Untouched dq id)
    (hstep : s.step dqName qName c = some t) : t.Untouched dq id := by
  obtain ⟨-, -, hworld, -⟩ := of_step hstep
  obtain ⟨r, hr, hqueue, hstate⟩ := h.row
  refine ⟨?_, fun x hx hid hdq => ?_⟩
  · cases Deployment.rowStep_of_step hok hund hworld with
    | absent hnone => rw [hr] at hnone; cases hnone
    | kept _ hbefore hafter hsame =>
        rw [hr, Option.some_inj] at hbefore
        subst hbefore
        exact ⟨_, hafter, hsame.queueName.trans hqueue,
          fun hrej => hstate (hsame.rejected.mp hrej)⟩
    | settled hbefore hx hid hname hphase =>
        -- Every delivery from the delay queue is still running.
        rw [hr, Option.some_inj] at hbefore
        subst hbefore
        exact absurd (h.running _ hx hid (hname.symm.trans hqueue)) hphase
    | purged hbefore hrej =>
        rw [hr, Option.some_inj] at hbefore
        subst hbefore
        exact absurd hrej hstate
    | hopped hops => exact absurd hops hhop
  · cases Deployment.heldStep_of_step hok hund hworld hx hid hdq with
    | kept hy hdelivery hphase =>
        rw [← hphase.resolve_left hhop]
        exact h.running _ hy (hdelivery ▸ hid) (hdelivery ▸ hdq)
    | claimed _ _ _ _ _ _ hrunning => exact hrunning

/-- **Step lemma of the second stage.**  A second hop writes the same message
again, and the claims of the base queue come after the time already. -/
theorem Hopped.step (hok : s.world.Ok) (hund : Undisturbed dq since id s.world c.action)
    (hne : dq ≠ q) (hwrites : HopWrites qName q dq m base) (h : s.Hopped q dq since id due m base)
    (hstep : s.step dqName qName c = some t) : t.Hopped q dq since id due m base := by
  obtain ⟨hclock, -, hworld, htime⟩ := of_step hstep
  refine ⟨(h.due_le.trans hclock).trans_eq htime.symm, fun r' hr' => ?_,
    fun x hx hid hdq hsince => ?_⟩
  · cases Deployment.rowStep_of_step hok hund hworld with
    | absent _ hnone => rw [hr'] at hnone; cases hnone
    | kept _ hbefore hafter hsame =>
        rw [hr', Option.some_inj] at hafter
        subst hafter
        obtain ⟨hqueue, hmessage⟩ := h.row _ hbefore
        refine ⟨hsame.queueName.trans hqueue, fun hrej => ?_⟩
        rw [hsame.message]
        exact hmessage fun hr => hrej (hsame.rejected.mpr hr)
    | settled hbefore _ _ _ _ hafter =>
        obtain ⟨hqueue, hrejected⟩ := hafter _ hr'
        exact ⟨hqueue.trans (h.row _ hbefore).1, fun hrej => absurd hrejected hrej⟩
    | purged _ _ hnone => rw [hr'] at hnone; cases hnone
    | hopped _ hx hid hdq hsince hafter hname hdoc =>
        -- A second hop, by the delivery of another claim.
        rw [hr', Option.some_inj] at hafter
        subst hafter
        rw [h.held _ hx hid hdq hsince] at hdoc
        exact ⟨hname.trans (by rw [hdq]; exact hwrites.1), fun _ => hwrites.2 _ hdoc⟩
  · cases Deployment.heldStep_of_step hok hund hworld hx hid hdq with
    | kept hy hdelivery =>
        rw [← hdelivery]
        exact h.held _ hy (hdelivery ▸ hid) (hdelivery ▸ hdq) (hdelivery ▸ hsince)
    | claimed _ hrow _ _ hname =>
        -- The row is on the base queue, so no consumer of the delay queue takes it.
        exact absurd (hdq.symm.trans (hname.symm.trans (h.row _ hrow).1)) hne

theorem availableAt_of_upsert {now : Time} {queueName : String} {doc : Json} {delay : ℤ}
    {queue : Queue} {r : Row}
    (h : (Queries.upsert now queueName id doc delay queue).find? id = some r) :
    r.availableAt = Queries.availableAt now delay := by
  rw [Queries.find?_upsert, if_pos rfl, Option.some_inj] at h
  rw [← h]
  cases queue.find? id <;> rfl

/-- **The enqueue begins the first stage**, whatever the state is in which it is
made. -/
theorem waiting_of_commits {e : DelayedEnqueue} {start : Time}
    (h : e.Commits dqName qName start id s t) :
    ∃ m, HopWrites qName e.message.queueName (dqName e.message.queueName) m
        e.message.withoutEta.stored? ∧
      t.Waiting (dqName e.message.queueName) s.world.ledger.nextClaim id
        (Queries.availableAt e.now e.delay) m ∧
      (s.NoneHeld (dqName e.message.queueName) id →
        t.Untouched (dqName e.message.queueName) id) := by
  obtain ⟨-, -, hworld, -⟩ := of_step h.step
  obtain ⟨l, hl, ht⟩ := Option.map_eq_some_iff.mp hworld
  obtain ⟨k, doc, hk, hdoc, rfl⟩ := Ledger.exists_upsert_of_enqueue hl
  have hsame : some k = some id := hk.symm.trans h.key
  rw [Option.some_inj] at hsame
  subst hsame
  have hdelayed : PostgresBroker.delayed dqName e.millis (some e.delay) e.message =
      { e.message with
        queueName := dqName e.message.queueName
        options := Message.setOption "eta" (.int (e.millis + e.delay)) e.message.options } := by
    rw [PostgresBroker.delayed, if_neg h.delay_pos.ne']
  rw [hdelayed] at hdoc ht
  obtain ⟨m, rfl, hname, -⟩ := Message.exists_toJson_of_jsonb hdoc
  have hbasename : qName m.queueName = e.message.queueName := hname ▸ h.qName_dqName
  obtain ⟨r, hr, hqueued, hmessage, hqueue⟩ := Queries.exists_find?_upsert e.now
    (dqName e.message.queueName) k m.toJson e.delay s.world.ledger.db.queue
  refine ⟨m, ⟨h.qName_dqName, fun doc hhop => ?_⟩, ⟨fun r' hr' => ?_,
    fun x hx hid hdq hsince => ?_⟩, fun hheld => ⟨⟨r, ?_, hqueue, ?_⟩, fun x hx hid hdq => ?_⟩⟩
  · -- What the hop writes, and the message without its `eta`, have the same document.
    have hfixed := Message.jsonb_withoutEta (Message.jsonb_of_jsonb hdoc)
    have hdelayed := Message.jsonb_withoutEta hdoc
    obtain ⟨-, -, -, -, -, -, hq, -⟩ := Message.jsonb_toJson_eq_some_iff.mp hhop
    have hhopped : (Deployment.hopped qName m).toJson.jsonb
        = some (Deployment.hopped qName m).toJson := Message.jsonb_withQueueName hfixed hq
    have hbase : e.message.withoutEta.toJson.jsonb
        = some (Deployment.hopped qName m).toJson := by
      have hwithout := Message.jsonb_withQueueName hdelayed hq
      simp only [Message.withoutEta, Message.filter_setOption, Deployment.hopped,
        hbasename] at hwithout
      simpa only [Message.withoutEta, Deployment.hopped, hbasename] using hwithout
    rw [Message.stored?_of_jsonb hbase]
    rw [hhop, Option.some_inj] at hhopped
    rw [hhopped, Message.ofJson?_toJson]
  · rw [← ht] at hr'
    have hsame : some r = some r' := hr.symm.trans hr'
    rw [Option.some_inj] at hsame
    subst hsame
    refine ⟨hqueue, fun _ => ⟨?_, availableAt_of_upsert hr⟩⟩
    rw [hmessage, Message.ofJson?_toJson]
  · -- What is held after the enqueue was held before it, by an earlier claim.
    rw [← ht] at hx
    exact absurd ((ok_of_reachable h.reachable).held x hx).claim_lt (not_lt.mpr hsince)
  · rw [← ht]
    exact hr
  · rw [hqueued]
    decide
  · rw [← ht] at hx
    exact absurd hdq (hheld x hx hid)

/-- **Every delivery of a step comes from a due row.** -/
theorem exists_row_of_mem_deliveries (hok : s.world.Ok) {queueName : String} {d : Delivery}
    (hd : d ∈ s.deliveries c queueName) :
    ∃ r, s.world.ledger.row? d.messageId = some r ∧ r.state = .queued ∧
      r.queueName = queueName ∧ Message.ofJson? r.message = some d.message := by
  unfold deliveries at hd
  split at hd
  · next worker now claimed limit locked haction =>
      split_ifs at hd with hname
      · cases hclaim : s.world.ledger.claim worker now queueName limit locked with
        | none => rw [hclaim] at hd; exact absurd hd List.not_mem_nil
        | some p =>
            rw [hclaim] at hd
            obtain ⟨r, hrow, -, hqueued, hqueue, hmessage, -⟩ :=
              Deployment.exists_row_of_mem_claim hok.wf hclaim hd
            exact ⟨r, hrow, hqueued, hqueue, hmessage⟩
      · exact absurd hd List.not_mem_nil
  · exact absurd hd List.not_mem_nil

end Clocked

/-! ## The law of every run -/

/-- What is delivered on the base queue: the message without its `eta` as the
column keeps it, and the message itself where the column keeps it unchanged. -/
structure DelayedEnqueue.DeliversAs (e : DelayedEnqueue) (m : Message) : Prop where
  stored : e.message.withoutEta.stored? = some m
  exact : e.message.stored? = some e.message → m = e.message.withoutEta

theorem DelayedEnqueue.deliversAs_of_stored {e : DelayedEnqueue} {m : Message}
    (h : e.message.withoutEta.stored? = some m) : e.DeliversAs m := by
  refine ⟨h, fun hkept => ?_⟩
  have hsame := Message.stored?_of_jsonb
    (Message.jsonb_withoutEta (Message.jsonb_of_stored? hkept))
  exact Option.some_inj.mp (h.symm.trans hsame)

/-- **A delayed message is delivered on its queue no earlier than its delay
after the `NOW()` of its enqueue, and as it was stored**, in every run that
leaves it to dramatiq.  That its row stays until the hop is promised where no
delivery of the id was held at the enqueue. -/
theorem delayKept {e : DelayedEnqueue} {dqName qName : String → String} {start : Time}
    {id : Uuid} {s t : Clocked} (h : e.Commits dqName qName start id s t) (as : List Commit)
    (hund : ∀ p ∈ (clockedSystem dqName qName start).takenFrom t as,
      Undisturbed (dqName e.message.queueName) s.world.ledger.nextClaim id p.1.world
        p.2.action) :
    DelayLaw (clockedSystem dqName qName start) e.message.queueName
      (dqName e.message.queueName) id (Queries.availableAt e.now e.delay) e.DeliversAs
      (s.NoneHeld (dqName e.message.queueName) id) t as := by
  obtain ⟨m, hwrites, hwaiting, huntouched⟩ := Clocked.waiting_of_commits h
  have hok : t.world.Ok :=
    (Clocked.ok_of_reachable h.reachable).step (Clocked.of_step h.step).2.2.1
  -- One of the two stages, in every state of the run.
  have hstage : ∀ u ∈ (clockedSystem dqName qName start).visitedFrom t as, u.world.Ok ∧
      (u.Waiting (dqName e.message.queueName) s.world.ledger.nextClaim id
          (Queries.availableAt e.now e.delay) m ∨
        u.Hopped e.message.queueName (dqName e.message.queueName) s.world.ledger.nextClaim id
          (Queries.availableAt e.now e.delay) m e.message.withoutEta.stored?) := by
    refine StepSystem.inv_of_mem_visitedFrom
      (C := fun u c => Undisturbed (dqName e.message.queueName) s.world.ledger.nextClaim id
        u.world c.action) ?_ ⟨hok, Or.inl hwaiting⟩ hund
    rintro u c v ⟨hu, hwait | hhop⟩ hc hstep
    · exact ⟨hu.step (Clocked.of_step hstep).2.2.1, hwait.step hu hc hwrites hstep⟩
    · exact ⟨hu.step (Clocked.of_step hstep).2.2.1,
        Or.inr (hhop.step hu hc h.dqName_ne hwrites hstep)⟩
  -- A delivery on the base queue is one of the second stage.
  have hdelivery : ∀ p ∈ (clockedSystem dqName qName start).takenFrom t as,
      ∀ d ∈ p.1.deliveries p.2 e.message.queueName, d.messageId = id →
        Queries.availableAt e.now e.delay ≤ p.2.time ∧ e.DeliversAs d.message := by
    rintro ⟨u, c⟩ hp d hd rfl
    obtain ⟨hmem, v, hstep, -⟩ := StepSystem.exists_step_of_mem_takenFrom hp
    obtain ⟨hu, hwait | hhop⟩ := hstage u hmem
    · obtain ⟨r, hr, -, hqueue, -⟩ := Clocked.exists_row_of_mem_deliveries hu hd
      exact absurd ((hwait.row r hr).1.symm.trans hqueue) h.dqName_ne
    · obtain ⟨r, hr, hqueued, -, hmessage⟩ := Clocked.exists_row_of_mem_deliveries hu hd
      refine ⟨hhop.due_le.trans (Clocked.of_step hstep).1,
        DelayedEnqueue.deliversAs_of_stored ?_⟩
      rw [← hmessage]
      exact ((hhop.row r hr).2 (by rw [hqueued]; decide)).symm
  refine ⟨fun p hp d hd hid => (hdelivery p hp d hd hid).1,
    fun p hp d hd hid => (hdelivery p hp d hd hid).2, fun halone hnot u hu => ?_, ?_⟩
  · have hstays := StepSystem.inv_of_mem_visitedFrom (M := clockedSystem dqName qName start)
      (I := fun u => u.world.Ok ∧ u.Untouched (dqName e.message.queueName) id)
      (C := fun u c => Undisturbed (dqName e.message.queueName) s.world.ledger.nextClaim id
        u.world c.action ∧ ¬ c.action.Hops id) ?_ ⟨hok, huntouched halone⟩
      (fun p hp => ⟨hund p hp, hnot p hp⟩) u hu
    · obtain ⟨r, hr, hqueue, -⟩ := hstays.2.row
      exact ⟨r, hr, hqueue⟩
    · rintro u c v ⟨hu, huntouched⟩ ⟨hc, hnohop⟩ hstep
      exact ⟨hu.step (Clocked.of_step hstep).2.2.1, huntouched.step hu hc hnohop hstep⟩
  · rintro ⟨u, ⟨action, time⟩⟩ hp token d v rfl hd - hdq hstep k r hr hqueue
    obtain ⟨hmem, -⟩ := StepSystem.exists_step_of_mem_takenFrom hp
    obtain ⟨-, -, hworld, -⟩ := Clocked.of_step hstep
    obtain ⟨d', hd', hworld⟩ := Option.bind_eq_some_iff.mp hworld
    obtain ⟨l, hl, hv⟩ := Option.map_eq_some_iff.mp hworld
    rw [hd, Option.some_inj] at hd'
    subst hd'
    rw [← hv]
    have hrow := Ledger.row?_of_ack hl ((hstage u hmem).1.heldOk hd).key k
    rw [hr, Option.bind_some, if_neg] at hrow
    · exact hrow
    · -- The ack names the delay queue.
      simp only [Queries.ackWhere, decide_eq_true_eq, hdq, hqueue]
      exact fun hwhere => h.dqName_ne hwhere.2.1.symm

/-! ### A message delayed by a millisecond -/

/-- The name of the base queue of a delay queue. -/
def baseName (dq : String) : String := (dq.dropEnd 3).toString

/-- The message of id 1 on the queue `q`, delayed by a millisecond at `now`, in
a transaction that commits at `time`. -/
def delayedSend (now time : Time) (args : List Json) : DelayedEnqueue where
  notify := true
  now := now
  millis := 0
  message := { Message.plain "q" (Uuid.small 1) with args := args }
  delay := 1
  time := time

/-- A consumer of the delay queue hops the message, and one of the base queue
claims it. -/
def hopRun : List Commit :=
  [⟨.claim (Uuid.small 7) 1000 "q.DQ" 1 [], 1000⟩,
    ⟨.hop ⟨1, Uuid.small 1⟩ true 1010 1, 1010⟩,
    ⟨.claim (Uuid.small 8) 1020 "q" 1 [], 1020⟩,
    ⟨.ack ⟨1, Uuid.small 1⟩, 1030⟩]

/-- The state after a schedule. -/
abbrev afterRun (as : List Commit) : Option Clocked :=
  (clockedSystem (· ++ ".DQ") baseName 0).after ⟨Deployment.empty, 0⟩ as

/-- The enqueue after a schedule. -/
theorem commits_of_afterRun {now time : Time} {args : List Json} (before : List Commit)
    {s t : Clocked} (hs : afterRun before = some s)
    (ht : afterRun (before ++ [(delayedSend now time args).commit]) = some t) :
    (delayedSend now time args).Commits (· ++ ".DQ") baseName 0 (Uuid.small 1) s t where
  reachable := ⟨before, StepSystem.mem_visitedFrom_of_after hs⟩
  key := Uuid.ofText?_toText (Uuid.small 1)
  delay_pos := Int.one_pos
  dqName_ne := by
    show "q" ++ ".DQ" ≠ "q"
    decide +kernel
  qName_dqName := by
    show baseName ("q" ++ ".DQ") = "q"
    decide +kernel
  step := StepSystem.step_of_after_concat hs ht

theorem isSome_afterRun_send : (afterRun [(delayedSend 0 500 []).commit]).isSome = true := by
  decide +kernel

theorem delayKept_hopRun : ∃ t, afterRun [(delayedSend 0 500 []).commit] = some t ∧
    DelayLaw (clockedSystem (· ++ ".DQ") baseName 0) "q" ("q" ++ ".DQ") (Uuid.small 1) 1000
      (delayedSend 0 500 []).DeliversAs
      ((⟨Deployment.empty, 0⟩ : Clocked).NoneHeld ("q" ++ ".DQ") (Uuid.small 1)) t hopRun := by
  have hafter := (Option.some_get isSome_afterRun_send).symm
  refine ⟨(afterRun [(delayedSend 0 500 []).commit]).get isSome_afterRun_send, hafter, ?_⟩
  have hcommits := commits_of_afterRun [] rfl hafter
  exact delayKept hcommits hopRun (by decide +kernel)

/-- Timed from the commit, for the message itself and whatever is held, the law
fails of some enqueue `e` followed by the steps `as`.  The run is undisturbed,
so it is the law that fails and not dramatiq. -/
def FailsFromCommit (e : DelayedEnqueue) (as : List Commit) : Prop :=
  ∃ s t, e.Commits (· ++ ".DQ") baseName 0 (Uuid.small 1) s t ∧
    (∀ p ∈ (clockedSystem (· ++ ".DQ") baseName 0).takenFrom t as,
      Undisturbed ("q" ++ ".DQ") s.world.ledger.nextClaim (Uuid.small 1) p.1.world
        p.2.action) ∧
    ¬ DelayLaw (clockedSystem (· ++ ".DQ") baseName 0) "q" ("q" ++ ".DQ") (Uuid.small 1)
      (Queries.availableAt e.time e.delay) (fun m => m = e.message.withoutEta) True t as

/-- The message has hopped, and its delivery from the delay queue is still to be
acked. -/
def hoppedRun : List Commit :=
  [(delayedSend 0 0 []).commit,
    ⟨.claim (Uuid.small 7) 1000 "q.DQ" 1 [], 1000⟩,
    ⟨.hop ⟨1, Uuid.small 1⟩ true 1010 1, 1010⟩]

/-- Another consumer of the delay queue claims the message, and the ack comes
then. -/
def lateHopAckRun : List Commit :=
  [⟨.claim (Uuid.small 9) 3000 "q.DQ" 1 [], 3000⟩,
    ⟨.ack ⟨1, Uuid.small 1⟩, 3010⟩]

theorem isSome_afterRun_float :
    (afterRun [(delayedSend 0 0 [.float (.finite 1 23)]).commit]).isSome = true := by
  decide +kernel

theorem isSome_afterRun_hopped : (afterRun hoppedRun).isSome = true := by decide +kernel

theorem isSome_afterRun_resend :
    (afterRun (hoppedRun ++ [(delayedSend 2000 2000 []).commit])).isSome = true := by
  decide +kernel

/-- **The law fails when it is timed from the commit, or asks for the message
itself, or for an id with a delivery still to be acked**: the row is due a delay
after `NOW()`; the float `1e23` comes back as an integer; and the late ack
deletes the row that waits. -/
theorem failsFromCommit :
    FailsFromCommit (delayedSend 0 500 []) hopRun ∧
      FailsFromCommit (delayedSend 0 0 [.float (.finite 1 23)]) hopRun ∧
      FailsFromCommit (delayedSend 2000 2000 []) lateHopAckRun := by
  refine ⟨?_, ?_, ?_⟩
  · refine ⟨_, (afterRun [(delayedSend 0 500 []).commit]).get isSome_afterRun_send,
      commits_of_afterRun [] rfl (Option.some_get _).symm, by decide +kernel, fun hlaw => ?_⟩
    have hearly : ∃ p ∈ (clockedSystem (· ++ ".DQ") baseName 0).takenFrom
        ((afterRun [(delayedSend 0 500 []).commit]).get isSome_afterRun_send) hopRun,
        ∃ d ∈ p.1.deliveries p.2 "q", d.messageId = Uuid.small 1 ∧
          p.2.time < Queries.availableAt 500 1 := by decide +kernel
    obtain ⟨p, hp, d, hd, hid, hlt⟩ := hearly
    exact absurd (hlaw.notEarly p hp d hd hid) (not_le.mpr hlt)
  · refine ⟨_, (afterRun [(delayedSend 0 0 [.float (.finite 1 23)]).commit]).get
      isSome_afterRun_float,
      commits_of_afterRun [] rfl (Option.some_get _).symm, by decide +kernel, fun hlaw => ?_⟩
    have haltered : ∃ p ∈ (clockedSystem (· ++ ".DQ") baseName 0).takenFrom
        ((afterRun [(delayedSend 0 0 [.float (.finite 1 23)]).commit]).get
          isSome_afterRun_float) hopRun, ∃ d ∈ p.1.deliveries p.2 "q", d.messageId = Uuid.small 1 ∧
          d.message.args.map Json.text = ["100000000000000000000000"] := by decide +kernel
    obtain ⟨p, hp, d, hd, hid, htext⟩ := haltered
    rw [hlaw.same p hp d hd hid] at htext
    exact absurd htext (by decide +kernel)
  · refine ⟨(afterRun hoppedRun).get isSome_afterRun_hopped,
      (afterRun (hoppedRun ++ [(delayedSend 2000 2000 []).commit])).get isSome_afterRun_resend,
      commits_of_afterRun hoppedRun (Option.some_get _).symm (Option.some_get _).symm,
      by decide +kernel, fun hlaw => ?_⟩
    have hgone : ∃ u ∈ (clockedSystem (· ++ ".DQ") baseName 0).visitedFrom
        ((afterRun (hoppedRun ++ [(delayedSend 2000 2000 []).commit])).get isSome_afterRun_resend)
        lateHopAckRun, (u.world.ledger.row? (Uuid.small 1)).isNone = true := by decide +kernel
    obtain ⟨u, hu, hnone⟩ := hgone
    obtain ⟨r, hr, -⟩ := hlaw.stays trivial (by decide +kernel) u hu
    rw [hr] at hnone
    cases hnone

end DramatiqPostgres

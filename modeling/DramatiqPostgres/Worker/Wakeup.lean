import DramatiqPostgres.Worker.Consumer

/-!
# The wake-ups of a consumer

A `__next__` with nothing to return clears the event `wakeup` and waits for it.
Two kinds of threads set the event: the notifier, when a message is enqueued,
and the workers, which after an ACK or a NACK remove the id from `in_processing`
and then set it.

`wakeupSystem` interleaves the statements of `__next__` with theirs.
`NoLostWakeup` says that the consumer does not sleep beside due messages it was
woken for.  It fails in two ways:

* between the last look at the queue, or at the capacity, and `wakeup.clear()`
  the consumer goes to wait whatever happens (`State.isClearing`), so a set that
  falls there is erased;
* a full consumer may erase a notification, as it has no use for it then.  Until
  the event is set again, an id that is removed leaves it asleep with capacity.

`SetsInTime` excludes these, and nothing else (`exists_lost`).

### What a lost wake-up costs

`wakeup.wait` has a timeout, after which the consumer polls; so a message is
late and not lost.  The law is about the sleep itself: it speaks of a consumer
that is in `wait`, with the event clear, and says what it has not overlooked.
In the model the timeout is a step that the consumer may take at any time.

### Histories

What the consumer was told is not in its memory: a notification says nothing but
that there was one.  `noted`, and the fields that say what was freed since the
capacity was last computed, record it beside the program.  They are written
where the event is set and where the consumer looks, and read by no step.

### The condition is exact step by step

`noLostWakeup_of_setsInTime` is about runs.  `exists_lost` is its converse at a
step: where a step of a reachable state breaks the condition, the consumer, left
to itself, comes to sleep beside a due message.  So a weaker condition on the
steps would not do.
-/

namespace DramatiqPostgres

namespace Wakeup

open Pg

/-! ## The consumer and the setters of its event -/

/-- Where the thread of the consumer is. -/
inductive Point where
  /-- Outside of `__next__`. -/
  | idle
  /-- There is capacity, and up to `limit` messages will be claimed. -/
  | claiming (limit : ℕ)
  /-- Before the test of the buffer. -/
  | testing
  /-- Before `wakeup.clear()`. -/
  | clearing
  /-- Before `wakeup.wait`. -/
  | cleared
  | waiting
  /-- `__next__` has raised. -/
  | closed
  deriving DecidableEq

/-- The statements before the claim and the claim itself can raise. -/
def Point.canRaise : Point → Bool
  | idle | claiming _ => true
  | _ => false

/-- A call of `ack` or `nack` whose statement has committed. -/
structure Settling where
  delivery : Delivery
  /-- The id has been removed from `in_processing`. -/
  discarded : Bool
  /-- History: this has freed capacity since the last time the capacity was
  computed. -/
  freed : Bool

/-- A consumer, the setters of its event, and the world around them. -/
structure State where
  world : Deployment
  clock : Time
  consumer : Consumer
  point : Point
  /-- The event. -/
  wakeup : Bool
  unsettled : List Delivery
  settling : List Settling
  /-- Messages whose enqueue has committed, and whose notification is on its
  way. -/
  pending : List Uuid
  /-- History: the messages whose notification has set the event since the last
  claim. -/
  noted : List Uuid
  /-- History: the last computation of the capacity found none. -/
  full : Bool
  /-- History: an ack or nack has freed capacity and set the event since
  then. -/
  freed : Bool

/-- One statement of one thread. -/
inductive Action where
  /-- The consumer goes on. -/
  | proceed
  | claim (locked : List Uuid) (order : List ℕ)
  | raise
  | timeout
  /-- The notifier sets the event. -/
  | notify (id : Uuid)
  /-- A notification is lost with the notifier's connection. -/
  | miss (id : Uuid)
  /-- The statement of an ack. -/
  | ack (token : Token)
  /-- The statement of a nack. -/
  | nack (token : Token) (now : Time) (options : List (String × Json))
  /-- An ack or nack removes the id. -/
  | discard (token : Token)
  /-- An ack or nack sets the event. -/
  | signal (token : Token)
  | world (a : WorkerAction)
  | tick (now : Time)

/-- The call of `enqueue` that a step of the world makes. -/
def enqueued (qName : String → String) (w : Deployment) :
    WorkerAction → Option (Bool × Time × ℤ × Message × Option ℤ)
  | .enqueue notify now millis m delay => some (notify, now, millis, m, delay)
  | .retry token notify now millis options delay =>
      (w.held? token .running).map fun d =>
        (notify, now, millis, { d.message with options := options }, delay)
  | .hop token notify now millis =>
      (w.held? token .running).map fun d =>
        (notify, now, millis, Deployment.hopped qName d.message, none)
  | _ => none

/-- The message that a step of the world announces on a channel. -/
def announced (dqName qName : String → String) (channel : String) (w : Deployment)
    (a : WorkerAction) : Option Uuid :=
  (enqueued qName w a).bind fun (notify, now, millis, m, delay) =>
    match PostgresBroker.enqueue dqName notify now millis m delay w.ledger.db.queue with
    | .ok (m, _, notifications) =>
        if notifications.any (fun n => n.channel = channel) then m.key? else none
    | .error _ => none

namespace State

/-- A new consumer on a fresh installation. -/
def init (queueName : String) (prefetch : ℕ) : State :=
  ⟨Deployment.empty, 0, Consumer.new queueName prefetch, .idle, false, [], [], [], [], false, false⟩

/-- `self.channel`. -/
def channel (s : State) : String := "dramatiq." ++ s.consumer.queueName ++ ".enqueue"

/-- The capacity has been computed. -/
def computed (s : State) (full : Bool) (point : Point) : State :=
  { s with
    full := full
    freed := false
    settling := s.settling.map fun x => { x with freed := false }
    point := point }

/-- The beginning of `__next__`. -/
def atStart (s : State) : State :=
  if s.consumer.buffer.isEmpty then
    match s.consumer.claimLimit with
    | some limit => s.computed false (.claiming limit)
    | none => s.computed true .testing
  else { s with point := .testing }

/-- `__next__` returns the front of the buffer, or goes to wait. -/
def atTest (s : State) : State :=
  match s.consumer.pop with
  | (some d, c) => { s with consumer := c, unsettled := s.unsettled ++ [d], point := .idle }
  | (none, _) => { s with point := .clearing }

/-- The next statement of the consumer. -/
def proceed (s : State) : Option State :=
  match s.point with
  | .idle => some s.atStart
  | .testing => some s.atTest
  | .clearing => some { s with wakeup := false, point := .cleared }
  | .cleared => some { s with point := .waiting }
  | .waiting => if s.wakeup then some { s with point := .idle } else none
  | .claiming _ | .closed => none

/-- `claim`, which returns. -/
def claim (me : Uuid) (locked : List Uuid) (order : List ℕ) (s : State) : Option State :=
  match s.point with
  | .claiming limit =>
      (s.world.ledger.claim me s.clock s.consumer.queueName limit locked).bind fun p =>
        (Process.inOrder order p.1).map fun ds =>
          { s with
            world := s.world.withLedger p.2
            consumer := { s.consumer with buffer := s.consumer.buffer ++ ds }
            noted := []
            point := .testing }
  | _ => none

/-- The unsettled delivery of a token. -/
def unsettled? (s : State) (token : Token) : Option Delivery :=
  s.unsettled.find? fun d => d.token = token

/-- The ack or nack of a token, before or after the removal of its id. -/
def settling? (s : State) (token : Token) (discarded : Bool) : Option Settling :=
  s.settling.find? fun x => x.delivery.token = token ∧ x.discarded = discarded

/-- The statement of an ack or nack commits. -/
def settle (s : State) (token : Token) (d : Delivery) (l : Ledger) : State :=
  { s with
    world := s.world.withLedger l
    unsettled := s.unsettled.eraseP fun d => d.token = token
    settling := s.settling ++ [⟨d, false, false⟩] }

/-- The removal of an id frees capacity. -/
def frees (s : State) (d : Delivery) : Bool :=
  s.consumer.capacity < (s.consumer.discard d.message.messageId).capacity

/-- The other calls of ack and nack. -/
def others (s : State) (token : Token) : List Settling :=
  s.settling.filter fun x => x.delivery.token ≠ token

/-- `in_processing.discard`. -/
def discard (s : State) (token : Token) (d : Delivery) : State :=
  { s with
    consumer := s.consumer.discard d.message.messageId
    settling := s.others token ++ [⟨d, true, s.frees d⟩] }

/-- `wakeup.set()` in `ack` and `nack`. -/
def signal (s : State) (token : Token) (x : Settling) : State :=
  { s with wakeup := true, settling := s.others token, freed := s.freed || x.freed }

/-- The notification of a message comes to the notifier, which sets the
event. -/
def notify (s : State) (id : Uuid) : State :=
  { s with wakeup := true, pending := s.pending.erase id, noted := id :: s.noted }

/-- The state after a step. -/
def step (dqName qName : String → String) (me : Uuid) (s : State) : Action → Option State
  | .proceed => s.proceed
  | .claim locked order => s.claim me locked order
  | .raise => if s.point.canRaise then some { s with point := .closed } else none
  | .timeout => if s.point = .waiting then some { s with point := .idle } else none
  | .notify id => if id ∈ s.pending then some (s.notify id) else none
  | .miss id => if id ∈ s.pending then some { s with pending := s.pending.erase id } else none
  | .ack token =>
      (s.unsettled? token).bind fun d => (s.world.ledger.ack d.message).map (s.settle token d)
  | .nack token now options =>
      (s.unsettled? token).bind fun d =>
        (s.world.ledger.nack now { d.message with options := options }).map (s.settle token d)
  | .discard token => (s.settling? token false).map fun x => s.discard token x.delivery
  | .signal token => (s.settling? token true).map (s.signal token)
  | .world a =>
      (s.world.step dqName qName a).map fun w =>
        { s with
          world := w
          pending := s.pending ++ (announced dqName qName s.channel s.world a).toList }
  | .tick now => if s.clock ≤ now then some { s with clock := now } else none

end State

/-- Every run of a consumer of the process `me`, the setters of its event, and
the world. -/
def wakeupSystem (dqName qName : String → String) (me : Uuid) (queueName : String)
    (prefetch : ℕ) : StepSystem State Action :=
  ⟨State.init queueName prefetch, State.step dqName qName me⟩

/-! ## The law and its condition -/

namespace State

/-- In `wait`, with the event clear. -/
def Blocked (s : State) : Prop := s.point = .waiting ∧ s.wakeup = false

/-- A row that a claim of the consumer can take. -/
def Due (s : State) (r : Row) : Prop :=
  r ∈ s.world.ledger.db.queue.table ∧
    Queries.claimWhere s.clock s.consumer.queueName r = true

/-- Nothing keeps the consumer from the clear any more. -/
def isClearing (s : State) : Bool :=
  match s.point with
  | .clearing => true
  | .testing => s.consumer.buffer.isEmpty
  | _ => false

/-- Past the clear, and the event has not been set since. -/
def isAsleep (s : State) : Bool :=
  match s.point with
  | .cleared | .waiting => !s.wakeup
  | _ => false

end State

/-- **No lost wake-up**: a blocked consumer with capacity has claimed after each
notification of a due message, and a consumer that found no capacity is not
blocked beside due messages when capacity was freed, and the event set,
since. -/
structure NoLostWakeup (s : State) : Prop where
  enqueued : s.Blocked → 0 < s.consumer.capacity → ∀ r, s.Due r → r.messageId ∉ s.noted
  settled : s.Blocked → s.full = true → s.freed = true → ∀ r, ¬ s.Due r

/-- The step is not a set that will be erased, nor the removal of an id that
gives capacity to a consumer which has erased a notification, or will.  It is a
condition on where the consumer is before the step. -/
def SetsInTime (s : State) : Action → Prop
  | .notify _ => ¬ (s.isClearing = true ∧ 0 < s.consumer.capacity)
  | .signal token =>
      ∀ x ∈ s.settling? token true, ¬ (s.isClearing = true ∧ s.full = true ∧ x.freed = true)
  | .discard token =>
      ∀ x ∈ s.settling? token false,
        ¬ ((s.isClearing = true ∨ s.isAsleep = true) ∧ s.noted ≠ [] ∧ s.frees x.delivery = true)
  | _ => True

instance (s : State) (a : Action) : Decidable (SetsInTime s a) := by
  unfold SetsInTime
  split <;> infer_instance

/-! ## The invariant -/

/-- The invariant of the runs that set the event in time. -/
structure Ok (s : State) : Prop where
  claiming : ∀ limit, s.point = .claiming limit → s.full = false
  dozing : s.isClearing = true ∨ s.isAsleep = true →
    (0 < s.consumer.capacity → s.noted = []) ∧ (s.full = true → s.freed = false)

section Steps

variable {dqName qName : String → String} {me : Uuid} {s t : State}

theorem ok_init (queueName : String) (prefetch : ℕ) : Ok (State.init queueName prefetch) where
  claiming := nofun
  dozing := by
    rintro (h | h) <;> cases h

/-- The invariant implies the law. -/
theorem Ok.noLostWakeup (h : Ok s) : NoLostWakeup s := by
  have hasleep : s.Blocked → s.isAsleep = true := by
    rintro ⟨hpoint, hwakeup⟩
    simp only [State.isAsleep, hpoint, hwakeup, Bool.not_false]
  refine ⟨fun hblocked hcapacity r _ hr => ?_, fun hblocked hfull hfreed => ?_⟩
  · rw [(h.dozing (Or.inr (hasleep hblocked))).1 hcapacity] at hr
    exact absurd hr List.not_mem_nil
  · rw [(h.dozing (Or.inr (hasleep hblocked))).2 hfull] at hfreed
    cases hfreed

/-- A consumer that is neither claiming nor on its way to sleep promises
nothing. -/
theorem ok_of_awake (hclaiming : ∀ limit, t.point ≠ .claiming limit)
    (hclearing : t.isClearing = false) (hasleep : t.isAsleep = false) : Ok t where
  claiming := fun limit hpoint => absurd hpoint (hclaiming limit)
  dozing := by
    rintro (h | h)
    · rw [hclearing] at h
      cases h
    · rw [hasleep] at h
      cases h

/-- A step of another thread which touches none of this. -/
theorem Ok.stay (h : Ok s) (hpoint : t.point = s.point) (hconsumer : t.consumer = s.consumer)
    (hwakeup : t.wakeup = s.wakeup) (hnoted : t.noted = s.noted) (hfull : t.full = s.full)
    (hfreed : t.freed = s.freed) : Ok t where
  claiming := by
    rw [hpoint, hfull]
    exact h.claiming
  dozing := by
    rw [State.isClearing, State.isAsleep, hpoint, hconsumer, hwakeup, hnoted, hfull, hfreed]
    exact h.dozing

theorem ok_atStart (s : State) : Ok s.atStart := by
  rw [State.atStart]
  split_ifs with hempty
  · cases hlimit : s.consumer.claimLimit with
    | some limit =>
        refine ⟨fun _ _ => rfl, ?_⟩
        rintro (h | h) <;> cases h
    | none =>
        -- there is no capacity
        refine ⟨nofun, fun _ => ⟨fun hcapacity => ?_, fun _ => rfl⟩⟩
        rw [Consumer.claimLimit, if_pos ⟨hempty, hcapacity⟩] at hlimit
        cases hlimit
  · rw [Bool.not_eq_true] at hempty
    exact ok_of_awake nofun hempty rfl

theorem Ok.atTest (h : Ok s) (hpoint : s.point = .testing) : Ok s.atTest := by
  rw [State.atTest, Consumer.pop]
  cases hbuffer : s.consumer.buffer with
  | nil =>
      have hclearing : s.isClearing = true := by
        simp only [State.isClearing, hpoint, hbuffer, List.isEmpty_nil]
      exact ⟨nofun, fun _ => h.dozing (Or.inl hclearing)⟩
  | cons d ds => exact ok_of_awake nofun rfl rfl

theorem Ok.proceed (h : Ok s) (hstep : s.proceed = some t) : Ok t := by
  unfold State.proceed at hstep
  cases hpoint : s.point with
  | idle =>
      rw [hpoint] at hstep
      cases hstep
      exact ok_atStart s
  | testing =>
      rw [hpoint] at hstep
      cases hstep
      exact h.atTest hpoint
  | clearing =>
      rw [hpoint] at hstep
      cases hstep
      have hclearing : s.isClearing = true := by simp only [State.isClearing, hpoint]
      exact ⟨nofun, fun _ => h.dozing (Or.inl hclearing)⟩
  | cleared =>
      rw [hpoint] at hstep
      cases hstep
      refine ⟨nofun, ?_⟩
      rintro (hclearing | hasleep)
      · cases hclearing
      · refine h.dozing (Or.inr ?_)
        rw [State.isAsleep, hpoint]
        exact hasleep
  | waiting =>
      rw [hpoint] at hstep
      simp only at hstep
      split_ifs at hstep
      cases hstep
      exact ok_of_awake nofun rfl rfl
  | claiming | closed => rw [hpoint] at hstep; cases hstep

theorem Ok.claim {locked : List Uuid} {order : List ℕ} (h : Ok s)
    (hstep : s.claim me locked order = some t) : Ok t := by
  unfold State.claim at hstep
  split at hstep
  · next limit hpoint =>
      obtain ⟨p, -, hstep⟩ := Option.bind_eq_some_iff.mp hstep
      obtain ⟨ds, -, rfl⟩ := Option.map_eq_some_iff.mp hstep
      refine ⟨nofun, fun _ => ⟨fun _ => rfl, fun hfull => ?_⟩⟩
      have hnot := h.claiming limit hpoint
      exact absurd hfull (by rw [hnot]; exact Bool.false_ne_true)
  · cases hstep

theorem Ok.notify {id : Uuid} (h : Ok s) (hset : SetsInTime s (.notify id)) :
    Ok (s.notify id) where
  claiming := h.claiming
  dozing := by
    have hawake : (s.notify id).isAsleep = false := by
      cases hpoint : s.point <;> simp only [State.isAsleep, State.notify, hpoint, Bool.not_true]
    rintro (hclearing | hasleep)
    · exact ⟨fun hcapacity => absurd ⟨hclearing, hcapacity⟩ hset, (h.dozing (Or.inl hclearing)).2⟩
    · rw [hawake] at hasleep
      cases hasleep

theorem Ok.signal {token : Token} {x : Settling} (h : Ok s) (hx : s.settling? token true = some x)
    (hset : SetsInTime s (.signal token)) : Ok (s.signal token x) where
  claiming := h.claiming
  dozing := by
    have hawake : (s.signal token x).isAsleep = false := by
      cases hpoint : s.point <;> simp only [State.isAsleep, State.signal, hpoint, Bool.not_true]
    rintro (hclearing | hasleep)
    · obtain ⟨hnoted, hfreed⟩ := h.dozing (Or.inl hclearing)
      refine ⟨hnoted, fun hfull => ?_⟩
      show (s.freed || x.freed) = false
      rw [hfreed hfull, Bool.false_or, ← Bool.not_eq_true]
      exact fun hx' => hset x hx ⟨hclearing, hfull, hx'⟩
    · rw [hawake] at hasleep
      cases hasleep

theorem Ok.discard {token : Token} {x : Settling} (h : Ok s)
    (hx : s.settling? token false = some x) (hset : SetsInTime s (.discard token)) :
    Ok (s.discard token x.delivery) where
  claiming := h.claiming
  dozing := by
    intro hdozing
    change s.isClearing = true ∨ s.isAsleep = true at hdozing
    obtain ⟨hnoted, hfreed⟩ := h.dozing hdozing
    refine ⟨fun hcapacity => ?_, hfreed⟩
    by_contra hne
    change 0 < (s.consumer.discard x.delivery.message.messageId).capacity at hcapacity
    refine hset x hx ⟨hdozing, hne, decide_eq_true ?_⟩
    -- with a notification noted, there was no capacity
    have hnone : s.consumer.capacity = 0 := by
      by_contra hpos
      exact hne (hnoted (Nat.pos_of_ne_zero hpos))
    rw [hnone]
    exact hcapacity

/-- **Step lemma.**  A step that sets the event in time keeps the invariant. -/
theorem Ok.step {a : Action} (h : Ok s) (hset : SetsInTime s a)
    (hstep : s.step dqName qName me a = some t) : Ok t := by
  cases a with
  | proceed => exact h.proceed hstep
  | claim locked order => exact h.claim hstep
  | raise =>
      simp only [State.step] at hstep
      split_ifs at hstep
      cases hstep
      exact ok_of_awake nofun rfl rfl
  | timeout =>
      simp only [State.step] at hstep
      split_ifs at hstep
      cases hstep
      exact ok_of_awake nofun rfl rfl
  | notify id =>
      simp only [State.step] at hstep
      split_ifs at hstep
      cases hstep
      exact h.notify hset
  | miss id =>
      simp only [State.step] at hstep
      split_ifs at hstep
      cases hstep
      exact h.stay rfl rfl rfl rfl rfl rfl
  | ack token | nack token now options =>
      obtain ⟨d, -, hstep⟩ := Option.bind_eq_some_iff.mp hstep
      obtain ⟨l, -, rfl⟩ := Option.map_eq_some_iff.mp hstep
      exact h.stay rfl rfl rfl rfl rfl rfl
  | discard token =>
      obtain ⟨x, hx, rfl⟩ := Option.map_eq_some_iff.mp hstep
      exact h.discard hx hset
  | signal token =>
      obtain ⟨x, hx, rfl⟩ := Option.map_eq_some_iff.mp hstep
      exact h.signal hx hset
  | world b =>
      obtain ⟨w, -, rfl⟩ := Option.map_eq_some_iff.mp hstep
      exact h.stay rfl rfl rfl rfl rfl rfl
  | tick now =>
      simp only [State.step] at hstep
      split_ifs at hstep
      cases hstep
      exact h.stay rfl rfl rfl rfl rfl rfl

/-! ## The condition is exact -/

/-- The consumer that waits, with the event clear. -/
def State.asleep (s : State) : State := { s with wakeup := false, point := .waiting }

/-- Left to itself, a consumer before the clear, or past it, comes to sleep. -/
theorem exists_asleep (dqName qName : String → String) (me : Uuid) (queueName : String)
    (prefetch : ℕ) (h : s.isClearing = true ∨ s.isAsleep = true) :
    ∃ as, (wakeupSystem dqName qName me queueName prefetch).after s as = some s.asleep := by
  obtain ⟨world, clock, consumer, point, wakeup, unsettled, settling, pending, noted, full,
    freed⟩ := s
  cases point with
  | testing =>
      have hempty : consumer.buffer.isEmpty = true := h.resolve_right nofun
      obtain ⟨queueName', prefetch', buffer, inProcessing⟩ := consumer
      obtain rfl : buffer = [] := List.isEmpty_iff.mp hempty
      exact ⟨[.proceed, .proceed, .proceed], rfl⟩
  | clearing => exact ⟨[.proceed, .proceed], rfl⟩
  | cleared =>
      have hclear : (!wakeup) = true := h.resolve_left nofun
      obtain rfl : wakeup = false := Bool.not_eq_true' _ ▸ hclear
      exact ⟨[.proceed], rfl⟩
  | waiting =>
      have hclear : (!wakeup) = true := h.resolve_left nofun
      obtain rfl : wakeup = false := Bool.not_eq_true' _ ▸ hclear
      exact ⟨[], rfl⟩
  | idle | claiming limit | closed => rcases h with h | h <;> cases h

/-- **Whoever does not set the event in time lays the consumer to sleep** beside
a due message, the one announced or, where capacity was full, any. -/
theorem exists_lost (queueName : String) (prefetch : ℕ) {a : Action} (hset : ¬ SetsInTime s a)
    (hstep : s.step dqName qName me a = some t) {r : Row} (hdue : t.Due r)
    (hnoted : r.messageId ∈ t.noted ∨ ∃ token, a = .signal token) :
    ∃ as u, (wakeupSystem dqName qName me queueName prefetch).after t as = some u ∧
      ¬ NoLostWakeup u := by
  have hlost : (t.isClearing = true ∨ t.isAsleep = true) → ¬ NoLostWakeup t.asleep →
      ∃ as u, (wakeupSystem dqName qName me queueName prefetch).after t as = some u ∧
        ¬ NoLostWakeup u := by
    intro hdozing hnot
    obtain ⟨as, has⟩ := exists_asleep dqName qName me queueName prefetch hdozing
    exact ⟨as, t.asleep, has, hnot⟩
  cases a with
  | notify id =>
      obtain ⟨hclearing, hcapacity⟩ := not_not.mp hset
      simp only [State.step] at hstep
      split_ifs at hstep
      cases hstep
      have hmem : r.messageId ∈ (s.notify id).noted := hnoted.resolve_right nofun
      exact hlost (Or.inl hclearing) fun hlaw =>
        hlaw.enqueued ⟨rfl, rfl⟩ hcapacity r hdue hmem
  | signal token =>
      obtain ⟨x, hx, rfl⟩ := Option.map_eq_some_iff.mp hstep
      simp only [SetsInTime, Option.mem_def, not_forall, not_not] at hset
      obtain ⟨y, hy, hclearing, hfull, hfreed⟩ := hset
      obtain rfl : x = y := Option.some_inj.mp (hx.symm.trans hy)
      have hfreed' : (s.signal token x).freed = true := by
        rw [State.signal, hfreed, Bool.or_true]
      exact hlost (Or.inl hclearing) fun hlaw =>
        hlaw.settled ⟨rfl, rfl⟩ hfull hfreed' r hdue
  | discard token =>
      obtain ⟨x, hx, rfl⟩ := Option.map_eq_some_iff.mp hstep
      simp only [SetsInTime, Option.mem_def, not_forall, not_not] at hset
      obtain ⟨y, hy, hdozing, -, hfrees⟩ := hset
      obtain rfl : x = y := Option.some_inj.mp (hx.symm.trans hy)
      have hmem : r.messageId ∈ (s.discard token x.delivery).noted := hnoted.resolve_right nofun
      have hcapacity : 0 < (s.discard token x.delivery).consumer.capacity :=
        Nat.zero_lt_of_lt (of_decide_eq_true hfrees)
      exact hlost hdozing fun hlaw => hlaw.enqueued ⟨rfl, rfl⟩ hcapacity r hdue hmem
  | proceed | claim | raise | timeout | miss | ack | nack | world | tick =>
      exact absurd trivial hset

end Steps

/-! ## The theorem -/

/-- **No wake-up is lost in a run that sets the event in time**: in every state
of it, whatever the consumers, workers and administrators around it do. -/
theorem noLostWakeup_of_setsInTime (dqName qName : String → String) (me : Uuid)
    (queueName : String) (prefetch : ℕ) (as : List Action)
    (hset : ∀ p ∈ (wakeupSystem dqName qName me queueName prefetch).taken as,
      SetsInTime p.1 p.2) :
    ∀ s ∈ (wakeupSystem dqName qName me queueName prefetch).visited as, NoLostWakeup s := by
  intro s hs
  have hok : Ok s := StepSystem.inv_of_mem_visitedFrom
    (fun _ _ _ hok hset hstep => hok.step hset hstep) (ok_init queueName prefetch) hset s hs
  exact hok.noLostWakeup

/-- A consumer finds nothing and waits, is woken by an enqueue, and yields the
message, which is acked. -/
def wokenRun : List Action :=
  [.proceed, .claim [] [], .proceed, .proceed, .proceed,
    .world (.enqueue true 0 0 (Message.plain "q" (Uuid.small 1)) none), .notify (Uuid.small 1),
    .proceed, .proceed, .claim [] [0], .proceed, .proceed, .proceed, .proceed, .proceed,
    .ack ⟨2, Uuid.small 1⟩, .discard ⟨2, Uuid.small 1⟩, .signal ⟨2, Uuid.small 1⟩, .proceed]

theorem noLostWakeup_wokenRun :
    (∀ p ∈ (wakeupSystem (· ++ ".DQ") id (Uuid.small 7) "q" 1).taken wokenRun,
      SetsInTime p.1 p.2) ∧
    ∀ s ∈ (wakeupSystem (· ++ ".DQ") id (Uuid.small 7) "q" 1).visited wokenRun,
      NoLostWakeup s := by
  have hset : ∀ p ∈ (wakeupSystem (· ++ ".DQ") id (Uuid.small 7) "q" 1).taken wokenRun,
      SetsInTime p.1 p.2 := by decide +kernel
  exact ⟨hset, noLostWakeup_of_setsInTime _ _ _ _ _ _ hset⟩

/-- The message is enqueued, and its notification comes, after the claim that
found nothing and before the clear. -/
def lostRun : List Action :=
  [.proceed, .claim [] [], .proceed,
    .world (.enqueue true 0 0 (Message.plain "q" (Uuid.small 1)) none), .notify (Uuid.small 1),
    .proceed, .proceed]

/-- **The notification is erased**, and the consumer sleeps beside the
message. -/
theorem not_noLostWakeup_lostRun :
    ¬ ∀ s ∈ (wakeupSystem (· ++ ".DQ") id (Uuid.small 7) "q" 1).visited lostRun,
      NoLostWakeup s := by
  intro hlaw
  have hrun : ∃ s ∈ (wakeupSystem (· ++ ".DQ") id (Uuid.small 7) "q" 1).visited lostRun,
      (s.point = .waiting ∧ s.wakeup = false) ∧ 0 < s.consumer.capacity ∧
      ∃ r ∈ s.world.ledger.db.queue.table.rows,
        Queries.claimWhere s.clock s.consumer.queueName r = true ∧ r.messageId ∈ s.noted := by
    decide +kernel
  obtain ⟨s, hs, hblocked, hcapacity, r, hr, hwhere, hnoted⟩ := hrun
  exact (hlaw s hs).enqueued hblocked hcapacity r ⟨hr, hwhere⟩ hnoted

end Wakeup

end DramatiqPostgres

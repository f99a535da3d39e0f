import DramatiqPostgres.Delivery.Workers

/-!
# Late acks

ACK deletes the row of its message id when that row is `consumed` on the
delivery's queue.  The state is meant to tell a live claim from a row that was
enqueued again since, and it does, until another worker claims the new
generation: then an ack of the old delivery finds a `consumed` row and deletes a
message that still has to run.

`NoLoss` is what should hold of a run: the latest generation of every message id
is still a row, or was acked or removed, and an ack only ever deletes the
generation it was delivered.  `noLoss_iff` says exactly which runs have it:
those in which no ack `FindsLater` generation.  The run part rests on the step
lemma `accounted_step`; that no ack is *early* — of a generation the row has not
reached yet — is the invariant `HeldOk.generation_le`.

### The condition

`NotLate` is about the state before the ack: the row it would delete is of the
delivery's own generation, or there is none that it would delete.  It is about
acks only.  Every other step is free, so it does not matter why the message was
enqueued again — by `Retries`, by the delay queue, by an administrator or by a
sender that uses the id twice.

### Both directions

A run that meets the condition loses nothing, by the step lemma.  A run that
does not has an ack that deletes a row of a later generation than its
delivery's, and at that step `AcksOwn` fails; so the condition is exact for
every run, and not only for the one that is the counterexample.
-/

namespace DramatiqPostgres

open Pg

/-- The row ACK would delete is of a later generation than the delivery: it is
`consumed` on the delivery's queue, and its message id has been enqueued since
the delivery was claimed. -/
def FindsLater (l : Ledger) (d : Delivery) : Prop :=
  (∃ r, l.row? d.messageId = some r ∧ r.queueName = d.message.queueName ∧ r.state = .consumed) ∧
    d.generation < l.generation d.messageId

namespace Deployment

/-- The latest generation of a message id is a row, or was acked, or was
removed. -/
def Accounted (s : Deployment) (id : Uuid) : Prop :=
  (s.ledger.row? id).isSome = true ∨ (id, s.ledger.generation id) ∈ s.acked ∨
    (id, s.ledger.generation id) ∈ s.removed

instance (s : Deployment) (id : Uuid) : Decidable (s.Accounted id) := by
  unfold Accounted; infer_instance

/-- Every message id ever enqueued is accounted for. -/
def AllAccounted (s : Deployment) : Prop := ∀ id, 0 < s.ledger.generation id → s.Accounted id

/-- The step is no ack that finds a later generation. -/
def NotLate (s : Deployment) (a : WorkerAction) : Prop :=
  ∀ token d, a = .ack token → s.held? token .done = some d → ¬ FindsLater s.ledger d

/-- The step is no ack that deletes a row of another generation than its
delivery's. -/
def AcksOwn (dqName qName : String → String) (s : Deployment) (a : WorkerAction) : Prop :=
  ∀ token d t, a = .ack token → s.held? token .done = some d → s.step dqName qName a = some t →
    (s.ledger.row? d.messageId).isSome = true → t.ledger.row? d.messageId = none →
      d.generation = s.ledger.generation d.messageId

end Deployment

/-- **No enqueued message is lost to a late ack**, along one run: in every state
every message id that was ever enqueued is accounted for, and every ack deletes
its own. -/
structure NoLoss (dqName qName : String → String) (as : List WorkerAction) : Prop where
  accounted : ∀ s ∈ (deploymentSystem dqName qName).visited as, s.AllAccounted
  acksOwn : ∀ p ∈ (deploymentSystem dqName qName).taken as, p.1.AcksOwn dqName qName p.2

/-! ## Rows that are there stay there -/

namespace Ledger

/-- Every message id that has a row keeps one, and a new generation comes with a
row. -/
def Persists (l l' : Ledger) : Prop :=
  ∀ id, (l'.row? id).isSome = true ∨
    ((l.row? id).isSome = false ∧ l'.generation id = l.generation id)

theorem Persists.refl (l : Ledger) : Persists l l := by
  intro id
  cases h : (l.row? id).isSome
  · exact Or.inr ⟨rfl, rfl⟩
  · exact Or.inl rfl

theorem persists_updateWhere {l : Ledger} (p : Row → Bool) (set : Row → Row)
    (hset : ∀ r, (set r).messageId = r.messageId) :
    Persists l (l.withQueue (l.db.queue.updateWhere p set hset)) := by
  intro id
  rw [row?_withQueue, Queue.find?_updateWhere, Option.isSome_map]
  exact Persists.refl l id

theorem persists_claim {worker : Uuid} {now : Time} {queueName : String} {limit : ℕ}
    {locked : List Uuid} {l l' : Ledger} {deliveries : List Delivery}
    (h : l.claim worker now queueName limit locked = some (deliveries, l')) : Persists l l' := by
  obtain ⟨-, rfl⟩ := of_claim h
  exact persists_updateWhere (l := l) _ _ (Queries.messageId_claimSet now worker)

theorem persists_enqueue {dqName : String → String} {notify : Bool} {now : Time} {millis : ℤ}
    {m : Message} {delay : Option ℤ} {l l' : Ledger}
    (h : l.enqueue dqName notify now millis m delay = some l') : Persists l l' := by
  obtain ⟨id, doc, -, -, rfl⟩ := exists_upsert_of_enqueue h
  intro k
  by_cases hk : k = id
  · obtain ⟨r, hr, -⟩ := Queries.exists_find?_upsert now
      (PostgresBroker.delayed dqName millis delay m).queueName id doc (delay.getD 0) l.db.queue
    refine Or.inl ?_
    rw [hk]
    exact Option.isSome_iff_exists.mpr ⟨r, hr⟩
  · have hsame : (l.withQueue (Queries.upsert now
        (PostgresBroker.delayed dqName millis delay m).queueName id doc (delay.getD 0)
        l.db.queue)).row? k = l.row? k := Queries.find?_upsert_of_ne hk
    show (Ledger.row? (l.withQueue _) k).isSome = true ∨ _ ∧ Function.update _ _ _ k = _
    rw [hsame, Function.update_of_ne hk]
    exact Persists.refl l k

theorem persists_nack {now : Time} {m : Message} {l l' : Ledger} (h : l.nack now m = some l') :
    Persists l l' := by
  obtain ⟨id, doc, -, -, rfl⟩ := of_nack h
  exact persists_updateWhere _ _ _

theorem persists_requeue {now : Time} {messages : List Message} {l l' : Ledger}
    (h : l.requeue now messages = some l') : Persists l l' := by
  obtain ⟨ids, -, rfl⟩ := of_requeue h
  exact persists_updateWhere _ _ _

end Ledger

namespace Deployment

variable {dqName qName : String → String} {s t : Deployment}

/-- Accounts are kept by a step whose rows persist and that forgets no ack and
no removal. -/
theorem AllAccounted.of_persists (h : s.AllAccounted) (hrows : s.ledger.Persists t.ledger)
    (hacked : t.acked = s.acked) (hremoved : t.removed = s.removed) : t.AllAccounted := by
  intro id hpos
  rcases hrows id with hrow | ⟨hrow, hgen⟩
  · exact Or.inl hrow
  · rw [hgen] at hpos
    refine Or.inr ?_
    rw [hgen, hacked, hremoved]
    rcases h id hpos with hsome | hrest
    · rw [hrow] at hsome
      cases hsome
    · exact hrest

/-- A removal is recorded. -/
theorem allAccounted_remove (h : s.AllAccounted) (p : Row → Bool) : (s.remove p).AllAccounted := by
  intro id hpos
  have hgen : (s.remove p).ledger.generation id = s.ledger.generation id := rfl
  have hrow : (s.remove p).ledger.row? id
      = (s.ledger.row? id).bind fun r => if p r then none else some r :=
    Queue.find?_deleteWhere p _ id
  rw [Accounted, hgen, hrow]
  rcases h id hpos with hsome | hacked | hremoved
  · obtain ⟨r, hr⟩ := Option.isSome_iff_exists.mp hsome
    by_cases hp : p r = true
    · -- The row is deleted, and its id and generation are written down.
      refine Or.inr (Or.inr (List.mem_append_right _ ?_))
      have hmem : r ∈ s.ledger.db.queue.table.rows.filter p :=
        List.mem_filter.mpr ⟨Table.mem_of_find? hr, hp⟩
      rw [← Queue.messageId_of_find? hr]
      exact List.mem_map_of_mem (f := fun r => (r.messageId, s.ledger.generation r.messageId)) hmem
    · refine Or.inl ?_
      rw [hr, Option.bind_some, if_neg hp]
      rfl
  · exact Or.inr (Or.inl hacked)
  · exact Or.inr (Or.inr (List.mem_append_left _ hremoved))

/-- An ack that finds no later generation accounts for what it deletes. -/
theorem allAccounted_ack {token : Token} (hok : s.Ok) (h : s.AllAccounted)
    (hlate : s.NotLate (.ack token)) (hstep : s.step dqName qName (.ack token) = some t) :
    t.AllAccounted := by
  obtain ⟨d, hd, hstep⟩ := Option.bind_eq_some_iff.mp hstep
  obtain ⟨l, hl, rfl⟩ := Option.map_eq_some_iff.mp hstep
  have hheld := hok.heldOk hd
  have hgen : l.generation = s.ledger.generation := by
    obtain ⟨_, -, rfl⟩ := Ledger.of_ack hl
    rfl
  intro id hpos
  show (l.row? id).isSome = true ∨
    (id, l.generation id) ∈ s.acked ++ [(d.messageId, d.generation)] ∨
    (id, l.generation id) ∈ s.removed
  have hpos' : 0 < s.ledger.generation id := by rwa [← hgen]
  rw [hgen, Ledger.row?_of_ack hl hheld.key]
  rcases h id hpos' with hsome | hacked | hremoved
  · obtain ⟨r, hr⟩ := Option.isSome_iff_exists.mp hsome
    rw [hr, Option.bind_some]
    by_cases hwhere : Queries.ackWhere d.messageId d.message.queueName r = true
    · -- The row is deleted; it is of the delivery's own generation.
      simp only [Queries.ackWhere, decide_eq_true_eq] at hwhere
      obtain ⟨hid, hqueue, hconsumed⟩ := hwhere
      rw [Queue.messageId_of_find? hr] at hid
      subst hid
      have hle := hheld.generation_le
      have hnot := hlate token d rfl hd
      have heq : s.ledger.generation d.messageId = d.generation := by
        by_contra hne
        exact hnot ⟨⟨r, hr, hqueue, hconsumed⟩, by omega⟩
      refine Or.inr (Or.inl (List.mem_append_right _ ?_))
      rw [heq]
      exact List.mem_singleton_self _
    · rw [if_neg hwhere]
      exact Or.inl rfl
  · exact Or.inr (Or.inl (List.mem_append_left _ hacked))
  · exact Or.inr (Or.inr hremoved)

/-- **Step lemma.**  A step that is no late ack keeps every message accounted
for.  A removal is recorded as one, and an ack that finds no later generation
records the one it deletes; no other step takes the row of an id away. -/
theorem accounted_step {a : WorkerAction} (hok : s.Ok) (h : s.AllAccounted) (hlate : s.NotLate a)
    (hstep : s.step dqName qName a = some t) : t.AllAccounted := by
  cases a with
  | ack token => exact allAccounted_ack hok h hlate hstep
  | purge | flush | discard =>
      cases hstep
      exact allAccounted_remove h _
  | enqueue notify now millis m delay =>
      obtain ⟨l, hl, rfl⟩ := Option.map_eq_some_iff.mp hstep
      exact h.of_persists (Ledger.persists_enqueue hl) rfl rfl
  | claim worker now queueName limit locked =>
      obtain ⟨⟨ds, l⟩, hl, rfl⟩ := Option.map_eq_some_iff.mp hstep
      exact h.of_persists (Ledger.persists_claim hl) rfl rfl
  | retry | hop =>
      obtain ⟨d, -, hstep⟩ := Option.bind_eq_some_iff.mp hstep
      obtain ⟨l, hl, rfl⟩ := Option.map_eq_some_iff.mp hstep
      exact h.of_persists (Ledger.persists_enqueue hl) rfl rfl
  | nack token now options =>
      obtain ⟨d, -, hstep⟩ := Option.bind_eq_some_iff.mp hstep
      obtain ⟨l, hl, rfl⟩ := Option.map_eq_some_iff.mp hstep
      exact h.of_persists (Ledger.persists_nack hl) rfl rfl
  | requeue worker tokens now =>
      obtain ⟨ds, -, hstep⟩ := Option.bind_eq_some_iff.mp hstep
      split_ifs at hstep
      obtain ⟨l, hl, rfl⟩ := Option.map_eq_some_iff.mp hstep
      exact h.of_persists (Ledger.persists_requeue hl) rfl rfl
  | reap | recover =>
      cases hstep
      exact h.of_persists (Ledger.persists_updateWhere _ _ _) rfl rfl
  | succeed token | fail token =>
      obtain ⟨d, -, rfl⟩ := Option.map_eq_some_iff.mp hstep
      exact h
  | heartbeat | cleanWorkers | crash =>
      cases hstep
      exact h

/-- An ack that finds no later generation deletes its own. -/
theorem acksOwn_of_notLate {a : WorkerAction} (hok : s.Ok) (hlate : s.NotLate a) :
    s.AcksOwn dqName qName a := by
  rintro token d t rfl hd hstep hsome hnone
  obtain ⟨d', hd', hstep⟩ := Option.bind_eq_some_iff.mp hstep
  rw [hd, Option.some_inj] at hd'
  subst hd'
  obtain ⟨l, hl, rfl⟩ := Option.map_eq_some_iff.mp hstep
  have hheld := hok.heldOk hd
  obtain ⟨r, hr⟩ := Option.isSome_iff_exists.mp hsome
  have hdeleted : (l.row? d.messageId) = none := hnone
  rw [Ledger.row?_of_ack hl hheld.key, hr, Option.bind_some] at hdeleted
  split_ifs at hdeleted with hwhere
  simp only [Queries.ackWhere, decide_eq_true_eq] at hwhere
  have hle := hheld.generation_le
  have hnot := hlate token d rfl hd
  by_contra hne
  exact hnot ⟨⟨r, hr, hwhere.2⟩, by omega⟩

/-- An ack that finds a later generation deletes it. -/
theorem not_acksOwn_of_late {token : Token} {d : Delivery} (hok : s.Ok)
    (hd : s.held? token .done = some d) (hlate : FindsLater s.ledger d)
    (hstep : s.step dqName qName (.ack token) = some t) :
    ¬ s.AcksOwn dqName qName (.ack token) := by
  intro hown
  obtain ⟨⟨r, hr, hqueue, hconsumed⟩, hlt⟩ := hlate
  refine hlt.ne (hown token d t rfl hd hstep (by rw [hr]; rfl) ?_)
  obtain ⟨d', hd', hstep⟩ := Option.bind_eq_some_iff.mp hstep
  rw [hd, Option.some_inj] at hd'
  subst hd'
  obtain ⟨l, hl, rfl⟩ := Option.map_eq_some_iff.mp hstep
  have hwhere : Queries.ackWhere d.messageId d.message.queueName r = true := by
    simp only [Queries.ackWhere, decide_eq_true_eq]
    exact ⟨Queue.messageId_of_find? hr, hqueue, hconsumed⟩
  show l.row? d.messageId = none
  rw [Ledger.row?_of_ack hl (hok.heldOk hd).key, hr, Option.bind_some, if_pos hwhere]

end Deployment

/-! ## The law of every run -/

/-- **Exactly the runs without a late ack lose no message**, whatever the number
of workers and whatever else they do. -/
theorem noLoss_iff (dqName qName : String → String) (as : List WorkerAction) :
    NoLoss dqName qName as ↔
      ∀ p ∈ (deploymentSystem dqName qName).taken as, p.1.NotLate p.2 := by
  constructor
  · rintro hlaw ⟨s, a⟩ hp token d rfl hd hlate
    obtain ⟨-, t, hstep, -⟩ := StepSystem.exists_step_of_mem_takenFrom hp
    exact Deployment.not_acksOwn_of_late (Deployment.ok_of_mem_taken hp) hd hlate hstep
      (hlaw.acksOwn _ hp)
  · intro hlate
    refine ⟨fun s hs => ?_, fun p hp => ?_⟩
    · have hinit : Deployment.empty.Ok ∧ Deployment.empty.AllAccounted :=
        ⟨Deployment.ok_empty, fun _ hpos => absurd hpos (Nat.lt_irrefl 0)⟩
      refine (StepSystem.inv_of_mem_visitedFrom (I := fun s => s.Ok ∧ s.AllAccounted)
        (C := Deployment.NotLate) ?_ hinit hlate s hs).2
      rintro s a t ⟨hok, haccounted⟩ hnot hstep
      exact ⟨hok.step hstep, Deployment.accounted_step hok haccounted hnot hstep⟩
    · exact Deployment.acksOwn_of_notLate (Deployment.ok_of_mem_taken hp) (hlate p hp)

/-- The first worker's run fails and is retried without a delay; a second worker
claims the retry before the first one acks, and dies. -/
def lateAckRun : List WorkerAction :=
  [.enqueue true 0 0 (Message.plain "q" (Uuid.small 1)) none,
    .claim (Uuid.small 7) 10 "q" 1 [],
    .retry ⟨1, Uuid.small 1⟩ true 20 0 [("retries", .int 1)] (some 0),
    .claim (Uuid.small 8) 30 "q" 1 [],
    .ack ⟨1, Uuid.small 1⟩,
    .crash (Uuid.small 8)]

/-- **The late ack loses the retry**: its generation is neither a row, nor
acked, nor removed. -/
theorem not_noLoss_lateAckRun : ¬ NoLoss (· ++ ".DQ") id lateAckRun := by
  intro hlaw
  have hlost : ∃ s ∈ (deploymentSystem (· ++ ".DQ") id).visited lateAckRun,
      0 < s.ledger.generation (Uuid.small 1) ∧ ¬ s.Accounted (Uuid.small 1) := by decide +kernel
  obtain ⟨s, hs, hpos, hnot⟩ := hlost
  exact hnot (hlaw.accounted s hs _ hpos)

end DramatiqPostgres

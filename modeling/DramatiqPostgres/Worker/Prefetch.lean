import DramatiqPostgres.Worker.Consumer

/-!
# The prefetch of one consumer

`__next__` claims at most `prefetch - len(in_processing)` messages, and only
into an empty buffer.  `in_processing` is a *set of message ids*, while the same
id can be delivered to a consumer a second time before its first delivery is
settled: after a retry without delay, or when the reaper has put the row back.
The set counts the two deliveries once, and forgets both when one of them is
settled.

`consumerSystem` is one consumer among everything else, which is a
`Deployment`.  As long as no claim of the consumer takes a message of which it
holds an unsettled delivery, the set counts the deliveries exactly (`Ok`), and
the bound holds (`withinPrefetch_of_takesFresh`).

### The condition

`TakesFresh` is about the claims of the consumer and the state before them: the
rows a claim would take, and the deliveries that are not settled.  It is broken
only where an id comes back while its delivery is out, and the counterexample
shows that once is enough: the set then counts one less than there are, and the
next claim takes one too many.

### The invariant

Everything the consumer holds, unsettled or buffered, has its own id, and
`in_processing` is the set of the unsettled ones.  From that the bound follows
at every claim: the buffer is empty, the capacity is what is left of the
prefetch, and the claim takes no more rows than that.  A settled delivery leaves
the set and the list together, and a yielded one moves from the buffer to both.
-/

namespace DramatiqPostgres

namespace Prefetch

open Pg

/-- A consumer, the deliveries it yielded that are not settled, and the world
around it. -/
structure State where
  world : Deployment
  consumer : Consumer
  unsettled : List Delivery

/-- One call on the consumer, which does not raise, or one step of the world. -/
inductive Action where
  | next (now : Time) (locked : List Uuid) (order : List ℕ)
  | ack (token : Token)
  | nack (token : Token) (now : Time) (options : List (String × Json))
  | world (a : WorkerAction)

namespace State

/-- A new consumer on a fresh installation. -/
def init (queueName : String) (prefetch : ℕ) : State :=
  ⟨Deployment.empty, Consumer.new queueName prefetch, []⟩

/-- The unsettled delivery of a token. -/
def unsettled? (s : State) (token : Token) : Option Delivery :=
  s.unsettled.find? fun d => d.token = token

/-- A delivery is settled. -/
def settle (s : State) (token : Token) (d : Delivery) (l : Ledger) : State where
  world := s.world.withLedger l
  consumer := s.consumer.discard d.message.messageId
  unsettled := s.unsettled.eraseP fun d => d.token = token

/-- `__next__` returns the front of the buffer. -/
def yieldFront (s : State) : State :=
  { s with
    consumer := s.consumer.pop.2
    unsettled := s.unsettled ++ s.consumer.pop.1.toList }

/-- The state after a step. -/
def step (dqName qName : String → String) (me : Uuid) (s : State) : Action → Option State
  | .next now locked order =>
      (Process.fill me now locked order s.world.ledger s.consumer).map fun p =>
        yieldFront { s with world := s.world.withLedger p.1, consumer := p.2 }
  | .ack token =>
      (s.unsettled? token).bind fun d => (s.world.ledger.ack d.message).map (s.settle token d)
  | .nack token now options =>
      (s.unsettled? token).bind fun d =>
        (s.world.ledger.nack now { d.message with options := options }).map (s.settle token d)
  | .world a => (s.world.step dqName qName a).map fun w => { s with world := w }

end State

/-- Every run of a consumer of the process `me` and the world around it. -/
def consumerSystem (dqName qName : String → String) (me : Uuid) (queueName : String)
    (prefetch : ℕ) : StepSystem State Action :=
  ⟨State.init queueName prefetch, State.step dqName qName me⟩

/-! ## The law and its condition -/

/-- **The bound**: unsettled deliveries and buffered ones together do not exceed
the prefetch. -/
def WithinPrefetch (s : State) : Prop :=
  s.unsettled.length + s.consumer.buffer.length ≤ s.consumer.prefetch

instance (s : State) : Decidable (WithinPrefetch s) := by unfold WithinPrefetch; infer_instance

/-- A claim of the consumer takes no message of which it holds an unsettled
delivery. -/
def TakesFresh (s : State) : Action → Prop
  | .next now locked _ =>
      ∀ limit ∈ s.consumer.claimLimit,
        ∀ id ∈ claimedIds now s.consumer.queueName limit locked s.world.ledger.db.queue,
          ∀ d ∈ s.unsettled, d.messageId ≠ id
  | _ => True

instance (s : State) (a : Action) : Decidable (TakesFresh s a) := by
  unfold TakesFresh
  split <;> infer_instance

/-! ## The invariant -/

/-- The id a delivery is counted under. -/
def countedAs (d : Delivery) : String := d.message.messageId

/-- Everything the consumer holds, unsettled or buffered. -/
def State.holding (s : State) : List Delivery := s.unsettled ++ s.consumer.buffer

/-- The consumer holds each message once, and `in_processing` is what it has not
settled. -/
structure Ok (s : State) : Prop where
  world : s.world.Ok
  keys : ∀ d ∈ s.holding, d.message.key? = some d.messageId
  nodup : (s.holding.map countedAs).Nodup
  counted : s.consumer.inProcessing = (s.unsettled.map countedAs).toFinset
  bound : WithinPrefetch s

/-- Texts of distinct ids are distinct. -/
theorem nodup_countedAs {es : List Delivery} (hkey : ∀ e ∈ es, e.message.key? = some e.messageId)
    (h : (es.map Delivery.messageId).Nodup) : (es.map countedAs).Nodup := by
  refine List.Nodup.map_on (fun d hd e he hsame => ?_) h.of_map
  refine List.inj_on_of_nodup_map h hd he ?_
  rw [← Option.some_inj, ← hkey d hd, ← hkey e he, Message.key?, Message.key?]
  exact congrArg Uuid.ofText? hsame

section Steps

variable {s : State}

theorem ok_init (queueName : String) (prefetch : ℕ) : Ok (State.init queueName prefetch) :=
  ⟨Deployment.ok_empty, fun _ hd => absurd hd List.not_mem_nil, List.nodup_nil, rfl,
    Nat.zero_le _⟩

/-- The set counts the unsettled deliveries. -/
theorem Ok.card_inProcessing (hok : Ok s) : s.consumer.inProcessing.card = s.unsettled.length := by
  have hnodup : (s.unsettled.map countedAs).Nodup := by
    have hall := hok.nodup
    rw [State.holding, List.map_append] at hall
    exact hall.of_append_left
  rw [hok.counted, List.toFinset_card_of_nodup hnodup, List.length_map]

/-- Returning the front of the buffer changes what is held in place only. -/
theorem Ok.yieldFront (hok : Ok s) : Ok s.yieldFront := by
  cases hbuffer : s.consumer.buffer with
  | nil =>
      have hsame : s.yieldFront = s := by
        simp [State.yieldFront, Consumer.pop, hbuffer]
      rw [hsame]
      exact hok
  | cons d ds =>
      have hpop : s.yieldFront = ⟨s.world, { s.consumer with
          buffer := ds, inProcessing := insert d.message.messageId s.consumer.inProcessing },
          s.unsettled ++ [d]⟩ := by
        simp [State.yieldFront, Consumer.pop, hbuffer]
      have hholding : s.yieldFront.holding = s.holding := by
        rw [hpop]
        simp [State.holding, hbuffer]
      refine ⟨by rw [hpop]; exact hok.world, by rw [hholding]; exact hok.keys,
        by rw [hholding]; exact hok.nodup, ?_, ?_⟩
      · rw [hpop]
        simp only [hok.counted, List.map_append, List.map_cons, List.map_nil]
        ext x
        simp [countedAs]
      · have hbound := hok.bound
        rw [WithinPrefetch, hbuffer, List.length_cons] at hbound
        rw [WithinPrefetch, hpop]
        simp only [List.length_append, List.length_singleton]
        omega

/-- **What a claim puts into the buffer is counted by the capacity it was made
with.** -/
theorem Ok.fill {me : Uuid} {now : Time} {locked : List Uuid} {order : List ℕ} {l : Ledger}
    {c : Consumer} (hok : Ok s) (hfresh : TakesFresh s (.next now locked order))
    (h : Process.fill me now locked order s.world.ledger s.consumer = some (l, c)) :
    Ok { s with world := s.world.withLedger l, consumer := c } := by
  unfold Process.fill at h
  cases hlimit : s.consumer.claimLimit with
  | none =>
      simp only [hlimit, Option.some_inj, Prod.mk.injEq] at h
      obtain ⟨rfl, rfl⟩ := h
      exact hok
  | some limit =>
      simp only [hlimit] at h
      obtain ⟨⟨ds, l'⟩, hclaim, h⟩ := Option.bind_eq_some_iff.mp h
      obtain ⟨es, hes, h⟩ := Option.map_eq_some_iff.mp h
      cases h
      -- a consumer claims into an empty buffer, and within its capacity
      obtain ⟨hbuffer, hlimitLe⟩ : s.consumer.buffer = [] ∧ limit ≤ s.consumer.capacity := by
        unfold Consumer.claimLimit at hlimit
        split_ifs at hlimit with hempty
        exact ⟨List.isEmpty_iff.mp hempty.1, by
          rw [← Option.some_inj.mp hlimit]; exact min_le_left _ _⟩
      have hperm := Process.perm_of_inOrder hes
      have hheld : ∀ e ∈ es, HeldOk l' e := fun e he =>
        heldOk_of_claim hok.world.wf hclaim (hperm.mem_iff.mp he)
      have hids : (es.map Delivery.messageId).Nodup := by
        have hds : (ds.map Delivery.messageId).Nodup := by
          rw [Ledger.map_messageId_of_claim hclaim]
          exact nodup_claimedIds _ _ _ _ _
        exact (hperm.map Delivery.messageId).nodup_iff.mpr hds
      have hkey : ∀ e ∈ es, e.message.key? = some e.messageId := fun e he => (hheld e he).key
      have hholding : State.holding ⟨s.world.withLedger l',
          { s.consumer with buffer := s.consumer.buffer ++ es }, s.unsettled⟩ =
          s.unsettled ++ es := by simp [State.holding, hbuffer]
      have hsettled : s.holding = s.unsettled := by simp [State.holding, hbuffer]
      have hkeys := hok.keys
      have hnodup := hok.nodup
      rw [hsettled] at hkeys hnodup
      refine ⟨hok.world.withLedger_claim hclaim, ?_, ?_, hok.counted, ?_⟩
      · rw [hholding]
        intro d hd
        rcases List.mem_append.mp hd with hd | hd
        · exact hkeys d hd
        · exact hkey d hd
      · rw [hholding, List.map_append, List.nodup_append]
        refine ⟨hnodup, nodup_countedAs hkey hids, ?_⟩
        intro x hx y hy hxy
        obtain ⟨d, hd, rfl⟩ := List.mem_map.mp hx
        obtain ⟨e, he, rfl⟩ := List.mem_map.mp hy
        -- equal texts denote equal ids, and the claim took none of those
        have hsame : d.messageId = e.messageId := by
          rw [← Option.some_inj, ← hkeys d hd, ← hkey e he, Message.key?, Message.key?]
          exact congrArg Uuid.ofText? hxy
        have htaken : e.messageId ∈ claimedIds now s.consumer.queueName limit locked
            s.world.ledger.db.queue := by
          rw [← Ledger.map_messageId_of_claim hclaim]
          exact List.mem_map_of_mem (hperm.mem_iff.mp he)
        exact hfresh limit hlimit _ htaken d hd hsame
      · have hlength : es.length ≤ limit := by
          rw [hperm.length_eq]
          exact Ledger.length_le_of_claim hclaim
        have hcapacity := hlimitLe
        have hbound := hok.bound
        rw [Consumer.capacity, hok.card_inProcessing] at hcapacity
        rw [WithinPrefetch, hbuffer, List.length_nil] at hbound
        simp only [WithinPrefetch, hbuffer, List.nil_append]
        omega

/-- **A delivery that is settled is no longer held, and no longer counted.** -/
theorem Ok.settle {token : Token} {d : Delivery} {l : Ledger} (hok : Ok s)
    (hd : s.unsettled? token = some d) (hquiet : s.world.ledger.Quiet l) :
    Ok (s.settle token d l) := by
  obtain ⟨htoken, before, after, hsplit, hbefore⟩ := List.find?_eq_some_iff_append.mp hd
  have herase : s.unsettled.eraseP (fun d => d.token = token) = before ++ after := by
    rw [hsplit, List.eraseP_append_right]
    · exact congrArg (before ++ ·) (List.eraseP_cons_of_pos htoken)
    · intro e he
      simpa using hbefore e he
  have hunsettled : (s.settle token d l).unsettled = before ++ after := herase
  have hsub : (s.settle token d l).holding.Sublist s.holding := by
    rw [State.holding, State.holding, hunsettled, hsplit]
    exact List.Sublist.append_right
      (List.Sublist.append_left (List.sublist_cons_self _ _) _) _
  have hnodup := hok.nodup
  refine ⟨hok.world.withLedger hquiet, fun e he => hok.keys e (hsub.mem he),
    (hsub.map countedAs).nodup hnodup, ?_, ?_⟩
  · have hnot : countedAs d ∉ (before ++ after).map countedAs := by
      rw [State.holding, hsplit, List.map_append, List.map_append, List.map_cons] at hnodup
      have hall := hnodup.of_append_left
      rw [List.nodup_middle, List.nodup_cons] at hall
      rw [List.map_append]
      exact hall.1
    have hinProcessing : (s.settle token d l).consumer.inProcessing =
        s.consumer.inProcessing.erase (countedAs d) := rfl
    rw [hinProcessing, hok.counted, hunsettled, hsplit]
    ext x
    simp only [Finset.mem_erase, List.mem_toFinset, List.map_append, List.map_cons,
      List.mem_append, List.mem_cons]
    rw [List.map_append, List.mem_append] at hnot
    constructor
    · rintro ⟨hne, hx | rfl | hx⟩
      · exact Or.inl hx
      · exact absurd rfl hne
      · exact Or.inr hx
    · intro hx
      refine ⟨?_, hx.imp id Or.inr⟩
      rintro rfl
      exact hnot hx
  · have hbound := hok.bound
    have hlength := hsub.length_le
    rw [State.holding, State.holding, List.length_append, List.length_append] at hlength
    exact hlength.trans hbound

/-- **Step lemma.**  A step that takes nothing the consumer already holds keeps
the invariant. -/
theorem Ok.step {dqName qName : String → String} {me : Uuid} {t : State} {a : Action} (hok : Ok s)
    (hfresh : TakesFresh s a) (h : s.step dqName qName me a = some t) : Ok t := by
  cases a with
  | next now locked order =>
      obtain ⟨⟨l, c⟩, hfill, rfl⟩ := Option.map_eq_some_iff.mp h
      exact (hok.fill hfresh hfill).yieldFront
  | ack token =>
      obtain ⟨d, hd, h⟩ := Option.bind_eq_some_iff.mp h
      obtain ⟨l, hl, rfl⟩ := Option.map_eq_some_iff.mp h
      exact hok.settle hd (Ledger.quiet_ack hl)
  | nack token now options =>
      obtain ⟨d, hd, h⟩ := Option.bind_eq_some_iff.mp h
      obtain ⟨l, hl, rfl⟩ := Option.map_eq_some_iff.mp h
      exact hok.settle hd (Ledger.quiet_nack hl)
  | world a =>
      obtain ⟨w, hw, rfl⟩ := Option.map_eq_some_iff.mp h
      exact ⟨hok.world.step hw, hok.keys, hok.nodup, hok.counted, hok.bound⟩

end Steps

/-! ## The bound in every run -/

/-- **The prefetch bounds what a consumer holds** in every run in which it
claims no message of which it holds an unsettled delivery, whatever the rest of
the world does. -/
theorem withinPrefetch_of_takesFresh (dqName qName : String → String) (me : Uuid)
    (queueName : String) (prefetch : ℕ) (as : List Action)
    (hfresh : ∀ p ∈ (consumerSystem dqName qName me queueName prefetch).taken as,
      TakesFresh p.1 p.2) :
    ∀ s ∈ (consumerSystem dqName qName me queueName prefetch).visited as, WithinPrefetch s := by
  intro s hs
  have hok : Ok s := StepSystem.inv_of_mem_visitedFrom (I := Ok) (C := TakesFresh)
    (fun _ _ _ hok hfresh hstep => hok.step hfresh hstep) (ok_init queueName prefetch) hfresh s hs
  exact hok.bound

/-- A consumer with a prefetch of two takes a message, settles it, and takes two
others. -/
def freshRun : List Action :=
  [.world (.enqueue true 0 0 (Message.plain "q" (Uuid.small 1)) none),
    .next 10 [] [0],
    .ack ⟨1, Uuid.small 1⟩,
    .world (.enqueue true 20 0 (Message.plain "q" (Uuid.small 2)) none),
    .world (.enqueue true 21 0 (Message.plain "q" (Uuid.small 3)) none),
    .next 30 [] [0, 1],
    .next 31 [] []]

theorem withinPrefetch_freshRun :
    (∀ p ∈ (consumerSystem (· ++ ".DQ") id (Uuid.small 7) "q" 2).taken freshRun,
      TakesFresh p.1 p.2) ∧
    ∀ s ∈ (consumerSystem (· ++ ".DQ") id (Uuid.small 7) "q" 2).visited freshRun,
      WithinPrefetch s := by
  have hfresh : ∀ p ∈ (consumerSystem (· ++ ".DQ") id (Uuid.small 7) "q" 2).taken freshRun,
      TakesFresh p.1 p.2 := by decide +kernel
  exact ⟨hfresh, withinPrefetch_of_takesFresh _ _ _ _ _ _ hfresh⟩

/-- The message is retried while its first delivery is not settled, and claimed
again; then there is still room for another one. -/
def retriedRun : List Action :=
  [.world (.enqueue true 0 0 (Message.plain "q" (Uuid.small 1)) none),
    .next 10 [] [0],
    .world (.enqueue true 20 0 (Message.plain "q" (Uuid.small 1)) none),
    .next 30 [] [0],
    .world (.enqueue true 40 0 (Message.plain "q" (Uuid.small 2)) none),
    .next 50 [] [0]]

/-- **Three deliveries are unsettled, with a prefetch of two.** -/
theorem not_withinPrefetch_retriedRun :
    ¬ ∀ s ∈ (consumerSystem (· ++ ".DQ") id (Uuid.small 7) "q" 2).visited retriedRun,
      WithinPrefetch s := by decide +kernel

end Prefetch

end DramatiqPostgres

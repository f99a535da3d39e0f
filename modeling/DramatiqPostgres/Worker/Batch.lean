import DramatiqPostgres.Worker.Consumer
import Mathlib.Data.List.TakeWhile

/-!
# One claim and its batch

A CLAIM returns a batch of rows, and `PostgresConsumer.claim` turns it into
messages after the transaction has committed.  Two things are left open between
the statement and the buffer.

* *The payloads.*  The loop decodes them one by one and ends at the first that
  does not decode.  By then all rows of the batch are consumed, so the row of
  that payload and those behind it are owned by a worker that does not hold
  them.  `nothingHalfDone_iff` says for which batches that does not happen.
* *The order.*  `next` orders the rows it locks, but `RETURNING` is a list of
  the updated rows, which PostgreSQL gives in no particular order; the buffer
  keeps the order they come in.  `fifo_iff` says for which orders the consumer
  yields them first in, first out.

### Two parameters

`decode` is any function in the first part: which payloads decode is dramatiq's
business, and the condition, that none fails, or that no decodable one comes
after one that fails, is about the batch as it comes back.  The order is a list
of places in the second: for each of them the theorem says whether the consumer
is first in, first out, so the condition is on what the server answers.

### The second part as a law about calls

First in, first out is not a property of one claim.  The messages come out of
the buffer one by one, in later calls of `__next__`, while messages are settled
and the tables change in between.  `nexts` is such a series of calls, each with
what it finds, and `Fifo` asks that they yield exactly the messages of the rows
in front of the queue.  That a consumer with a buffer does not claim, whatever
it finds, is what makes the series depend on the one claim only.
-/

namespace DramatiqPostgres

open Pg

/-! ## Decoding a batch -/

namespace Batch

section Decode

variable (decode : Json → Option Message) (worker : Uuid) (l : Ledger)

/-- The loop of `claim`: append the messages of the rows to the buffer, in the
order the rows come in.  The second component tells whether `Message.decode`
raised. -/
def bufferRows : List Row → List Delivery → List Delivery × Bool
  | [], buffer => (buffer, false)
  | r :: rows, buffer =>
      match decode r.message with
      | some m =>
          bufferRows rows
            (buffer ++ [⟨m, r.messageId, worker, l.nextClaim, l.generation r.messageId⟩])
      | none => (buffer, true)

/-- Whether the payload of a row decodes. -/
def decodes (r : Row) : Bool := (decode r.message).isSome

/-- The loop raises at the first payload that does not decode. -/
theorem raised_bufferRows (rows : List Row) (buffer : List Delivery) :
    (bufferRows decode worker l rows buffer).2 = true ↔ ∃ r ∈ rows, decodes decode r = false := by
  induction rows generalizing buffer with
  | nil => simp [bufferRows]
  | cons r rows ih =>
      cases hr : decode r.message with
      | some m => simp [bufferRows, hr, ih, decodes]
      | none => simp [bufferRows, hr, decodes]

/-- The loop buffers the rows before it. -/
theorem map_messageId_bufferRows (rows : List Row) (buffer : List Delivery) :
    (bufferRows decode worker l rows buffer).1.map Delivery.messageId =
      buffer.map Delivery.messageId ++
        (rows.takeWhile (decodes decode)).map Row.messageId := by
  induction rows generalizing buffer with
  | nil => simp [bufferRows]
  | cons r rows ih =>
      cases hr : decode r.message with
      | some m =>
          have hdecodes : decodes decode r = true := by simp [decodes, hr]
          rw [List.takeWhile_cons_of_pos hdecodes]
          simp [bufferRows, hr, ih]
      | none =>
          have hdecodes : ¬ decodes decode r = true := by simp [decodes, hr]
          rw [List.takeWhile_cons_of_neg hdecodes]
          simp [bufferRows, hr]

/-- **Where every payload decodes, the loop buffers the deliveries of the
claim.** -/
theorem bufferRows_of_mapM {rows : List Row} {ds : List Delivery}
    (h : rows.mapM (l.deliver worker) = some ds) (buffer : List Delivery) :
    bufferRows Message.ofJson? worker l rows buffer = (buffer ++ ds, false) := by
  rw [List.mapM_eq_some_iff] at h
  induction h generalizing buffer with
  | nil => simp [bufferRows]
  | cons hr _ ih =>
      rw [Ledger.deliver, Option.map_eq_some_iff] at hr
      obtain ⟨m, hm, rfl⟩ := hr
      simp [bufferRows, hm, ih]

end Decode

/-! ## What a claim that raises leaves behind -/

/-- A row is in the buffer, or no longer consumed: somebody holds it, or
somebody will be given it. -/
def Accounted (q : Queue) (buffer : List Delivery) (r : Row) : Prop :=
  (∃ d ∈ buffer, d.messageId = r.messageId) ∨
    ∀ r', q.find? r.messageId = some r' → r'.state ≠ .consumed

/-- **Nothing is half-done**: a claim that raises leaves every row of its batch
accounted for. -/
def NothingHalfDone (batch : List Row) (q : Queue) (result : List Delivery × Bool) : Prop :=
  result.2 = true → ∀ r ∈ batch, Accounted q result.1 r

/-- **No decodable row is left behind** by a claim that raises. -/
def NoneLeftBehind (decode : Json → Option Message) (batch : List Row) (q : Queue)
    (result : List Delivery × Bool) : Prop :=
  result.2 = true → ∀ r ∈ batch, decodes decode r = true → Accounted q result.1 r

section Claim

variable {decode : Json → Option Message} {worker : Uuid} {now : Time} {queueName : String}
  {limit : ℕ} {locked : List Uuid} {l : Ledger} {batch : List Row}

/-- The ids of a batch are those the claim takes. -/
theorem map_messageId_batch
    (hbatch : batch.Perm (Queries.claim now queueName limit worker locked l.db.queue).1) :
    (batch.map Row.messageId).Perm (claimedIds now queueName limit locked l.db.queue) := by
  have hids := hbatch.map Row.messageId
  simpa [Queries.claim, claimedIds, Function.comp_def] using hids

/-- **The claim has committed before the loop starts**: a row of the batch is
accounted for exactly when the loop got to it. -/
theorem accounted_iff
    (hbatch : batch.Perm (Queries.claim now queueName limit worker locked l.db.queue).1)
    {r : Row} (hr : r ∈ batch) :
    Accounted (Queries.claim now queueName limit worker locked l.db.queue).2
        (bufferRows decode worker l batch []).1 r ↔
      r ∈ batch.takeWhile (decodes decode) := by
  have hids := map_messageId_batch hbatch
  have hnodup : (batch.map Row.messageId).Nodup :=
    hids.nodup_iff.mpr (nodup_claimedIds now queueName limit locked l.db.queue)
  have hbuffered : (∃ d ∈ (bufferRows decode worker l batch []).1, d.messageId = r.messageId) ↔
      r ∈ batch.takeWhile (decodes decode) := by
    rw [← List.mem_map (f := Delivery.messageId), map_messageId_bufferRows, List.map_nil,
      List.nil_append]
    constructor
    · intro hmem
      obtain ⟨r', hr', hid⟩ := List.mem_map.mp hmem
      have hr'batch := (List.takeWhile_sublist _).mem hr'
      rwa [← List.inj_on_of_nodup_map hnodup hr'batch hr hid]
    · exact fun hmem => List.mem_map_of_mem hmem
  rw [Accounted, hbuffered]
  refine ⟨fun h => h.resolve_right fun hnot => ?_, Or.inl⟩
  -- the claim has left the row consumed
  have hid : r.messageId ∈ claimedIds now queueName limit locked l.db.queue :=
    hids.mem_iff.mp (List.mem_map_of_mem hr)
  rcases find?_claimUpdate worker now queueName limit locked l.db.queue r.messageId with
    ⟨-, r', -, -, hset⟩ | ⟨hnotid, -⟩
  · exact hnot _ hset rfl
  · exact hnotid hid

end Claim

/-- **Exactly the batches that decode leave nothing half-done**, and exactly
those in which no decodable payload comes after one that is not leave no
decodable row behind. -/
theorem nothingHalfDone_iff (decode : Json → Option Message) (worker : Uuid) (now : Time)
    (queueName : String) (limit : ℕ) (locked : List Uuid) (l : Ledger) (batch : List Row)
    (hbatch : batch.Perm (Queries.claim now queueName limit worker locked l.db.queue).1) :
    (NothingHalfDone batch (Queries.claim now queueName limit worker locked l.db.queue).2
        (bufferRows decode worker l batch []) ↔ ∀ r ∈ batch, decodes decode r = true) ∧
      (NoneLeftBehind decode batch
          (Queries.claim now queueName limit worker locked l.db.queue).2
          (bufferRows decode worker l batch []) ↔
        batch.Pairwise fun r r' => decodes decode r = false → decodes decode r' = false) := by
  have hnodup : batch.Nodup := ((map_messageId_batch hbatch).nodup_iff.mpr
    (nodup_claimedIds now queueName limit locked l.db.queue)).of_map
  refine ⟨⟨fun hlaw r hr => ?_, fun hall hraised => ?_⟩, ?_⟩
  · by_contra hnot
    rw [Bool.not_eq_true] at hnot
    have hraised := (raised_bufferRows decode worker l batch []).mpr ⟨r, hr, hnot⟩
    have hmem := (accounted_iff hbatch hr).mp (hlaw hraised r hr)
    rw [List.mem_takeWhile_imp hmem] at hnot
    cases hnot
  · obtain ⟨r, hr, hfalse⟩ := (raised_bufferRows decode worker l batch []).mp hraised
    rw [hall r hr] at hfalse
    cases hfalse
  · rw [← List.forall_mem_takeWhile_iff hnodup]
    constructor
    · intro hlaw r hr hdecodes
      by_cases hraised : (bufferRows decode worker l batch []).2 = true
      · exact (accounted_iff hbatch hr).mp (hlaw hraised r hr hdecodes)
      · -- nothing raised, so every payload decodes
        rw [raised_bufferRows] at hraised
        push Not at hraised
        simp only [ne_eq, Bool.not_eq_false] at hraised
        rwa [List.takeWhile_eq_self_iff.mpr hraised]
    · intro hall _ r hr hdecodes
      exact (accounted_iff hbatch hr).mpr (hall r hr hdecodes)

/-- Two rows on one queue, the first with a payload that is no message. -/
def spoiledLedger : Ledger :=
  Ledger.empty.withQueue <|
    Queries.upsert 1 "q" (Uuid.small 2) (Message.plain "q" (Uuid.small 2)).toJson 0 <|
      Queries.upsert 0 "q" (Uuid.small 1) (.obj []) 0 Queue.empty

/-- The batch of a claim on them. -/
def spoiledBatch : List Row :=
  (Queries.claim 10 "q" 2 (Uuid.small 7) [] spoiledLedger.db.queue).1

theorem nothingHalfDone_iff_spoiledBatch :
    spoiledBatch.Perm (Queries.claim 10 "q" 2 (Uuid.small 7) [] spoiledLedger.db.queue).1 ∧
      (NothingHalfDone spoiledBatch
          (Queries.claim 10 "q" 2 (Uuid.small 7) [] spoiledLedger.db.queue).2
          (bufferRows Message.ofJson? (Uuid.small 7) spoiledLedger spoiledBatch []) ↔
        ∀ r ∈ spoiledBatch, decodes Message.ofJson? r = true) ∧
      (NoneLeftBehind Message.ofJson? spoiledBatch
          (Queries.claim 10 "q" 2 (Uuid.small 7) [] spoiledLedger.db.queue).2
          (bufferRows Message.ofJson? (Uuid.small 7) spoiledLedger spoiledBatch []) ↔
        spoiledBatch.Pairwise fun r r' =>
          decodes Message.ofJson? r = false → decodes Message.ofJson? r' = false) :=
  ⟨.refl _, nothingHalfDone_iff Message.ofJson? (Uuid.small 7) 10 "q" 2 [] spoiledLedger
    spoiledBatch (.refl _)⟩

/-- **The second message is left behind**: it decodes, and stays consumed by a
worker that does not hold it. -/
theorem not_noneLeftBehind_spoiledBatch :
    ¬ NoneLeftBehind Message.ofJson? spoiledBatch
      (Queries.claim 10 "q" 2 (Uuid.small 7) [] spoiledLedger.db.queue).2
      (bufferRows Message.ofJson? (Uuid.small 7) spoiledLedger spoiledBatch []) := by
  intro hlaw
  have hraised : (bufferRows Message.ofJson? (Uuid.small 7) spoiledLedger spoiledBatch []).2
      = true := by decide +kernel
  have hrow : ∃ r ∈ spoiledBatch, decodes Message.ofJson? r = true ∧
      (spoiledBatch.takeWhile (decodes Message.ofJson?)).isEmpty = true := by decide +kernel
  obtain ⟨r, hr, hdecodes, hempty⟩ := hrow
  have hmem : r ∈ spoiledBatch.takeWhile (decodes Message.ofJson?) :=
    (accounted_iff (.refl _) hr).mp (hlaw hraised r hr hdecodes)
  rw [List.isEmpty_iff.mp hempty] at hmem
  exact absurd hmem List.not_mem_nil

/-! ## The order of a batch -/

/-- The queued rows of a queue that are due. -/
def due (now : Time) (queueName : String) (q : Queue) : List Row :=
  q.table.rows.filter (Queries.claimWhere now queueName)

/-- `taken` are the first `n` of the rows `rows`, in the order of CLAIM. -/
structure IsFirst (n : ℕ) (rows taken : List Row) : Prop where
  length : taken.length = min n rows.length
  nodup : taken.Nodup
  mem : ∀ r ∈ taken, r ∈ rows
  sorted : taken.Pairwise Queries.claimOrder
  first : ∀ r ∈ rows, r ∉ taken → ∀ s ∈ taken, Queries.claimOrder s r

instance : Std.Total Queries.claimOrder where
  total r s := by
    unfold Queries.claimOrder
    rcases lt_trichotomy r.availableAt s.availableAt with h | h | h
    · exact Or.inl (Or.inl h)
    · rcases le_total r.position s.position with hp | hp
      · exact Or.inl (Or.inr ⟨h, hp⟩)
      · exact Or.inr (Or.inr ⟨h.symm, hp⟩)
    · exact Or.inr (Or.inl h)

instance : IsTrans Row Queries.claimOrder where
  trans r s t := by
    rintro (hrs | ⟨hrs, hprs⟩) (hst | ⟨hst, hpst⟩)
    · exact Or.inl (hrs.trans hst)
    · exact Or.inl (hst ▸ hrs)
    · exact Or.inl (hrs ▸ hst)
    · exact Or.inr ⟨hrs.trans hst, hprs.trans hpst⟩

/-- **With no row locked, a claim takes the first rows that are due.** -/
theorem isFirst_claimNext (now : Time) (queueName : String) (limit : ℕ) (q : Queue) :
    IsFirst limit (due now queueName q) (Queries.claimNext now queueName limit [] q) := by
  have hfilter : (q.table.rows.filter fun r =>
      Queries.claimWhere now queueName r ∧ r.messageId ∉ ([] : List Uuid)) =
      due now queueName q := by simp [due]
  have hdef : Queries.claimNext now queueName limit [] q =
      ((due now queueName q).insertionSort Queries.claimOrder).take limit := by
    rw [Queries.claimNext, hfilter]
  have hperm := List.perm_insertionSort Queries.claimOrder (due now queueName q)
  have hsorted := List.pairwise_insertionSort Queries.claimOrder (due now queueName q)
  have hnodup : (due now queueName q).Nodup := (q.table.nodup.of_map).filter _
  rw [hdef]
  refine ⟨?_, (hperm.nodup_iff.mpr hnodup).sublist (List.take_sublist _ _),
    fun r hr => hperm.mem_iff.mp (List.mem_of_mem_take hr),
    hsorted.sublist (List.take_sublist _ _), fun r hr hnot s hs => ?_⟩
  · rw [List.length_take, hperm.length_eq]
  · -- a row that is not among the first comes after all of them in the sorted list
    rw [← List.take_append_drop limit ((due now queueName q).insertionSort Queries.claimOrder),
      List.pairwise_append] at hsorted
    have hmem := hperm.mem_iff.mpr hr
    rw [← List.take_append_drop limit ((due now queueName q).insertionSort Queries.claimOrder),
      List.mem_append] at hmem
    exact hsorted.2.2 s hs r (hmem.resolve_left hnot)

/-! ## Yielding a batch -/

/-- A call of `__next__` that does not raise, with what it finds: messages
settled since the last call, the tables, and how its CLAIM goes if it comes to
that. -/
structure NextCall where
  settled : List String
  ledger : Ledger
  now : Time
  locked : List Uuid
  order : List ℕ

/-- `in_processing.discard` of several messages. -/
def discardAll (ids : List String) (c : Consumer) : Consumer :=
  ids.foldl (fun c id => c.discard id) c

/-- The deliveries a series of calls yields. -/
def nexts (me : Uuid) : Consumer → List NextCall → Option (List Delivery)
  | _, [] => some []
  | c, call :: calls =>
      (Process.fill me call.now call.locked call.order call.ledger
        (discardAll call.settled c)).bind fun p =>
          (nexts me p.2.pop.2 calls).map fun ds => p.2.pop.1.toList ++ ds

@[simp] theorem buffer_discardAll (ids : List String) (c : Consumer) :
    (discardAll ids c).buffer = c.buffer := by
  induction ids generalizing c with
  | nil => rfl
  | cons id ids ih => exact ih (c.discard id)

/-- A consumer with a buffer does not claim. -/
theorem fill_of_buffer {me : Uuid} {now : Time} {locked : List Uuid} {order : List ℕ} {l : Ledger}
    {c : Consumer} (h : c.buffer ≠ []) : Process.fill me now locked order l c = some (l, c) := by
  have hlimit : c.claimLimit = none := by simp [Consumer.claimLimit, h]
  rw [Process.fill, hlimit]

theorem pop_of_buffer {c : Consumer} {d : Delivery} {ds : List Delivery} (h : c.buffer = d :: ds) :
    c.pop.1 = some d ∧ c.pop.2.buffer = ds := by
  unfold Consumer.pop
  rw [h]
  exact ⟨rfl, rfl⟩

/-- **A buffer is yielded from its front**, whatever happens between the
calls. -/
theorem nexts_of_buffer (me : Uuid) {c : Consumer} {calls : List NextCall}
    (h : calls.length ≤ c.buffer.length) :
    nexts me c calls = some (c.buffer.take calls.length) := by
  induction calls generalizing c with
  | nil => rfl
  | cons call calls ih =>
      cases hbuffer : c.buffer with
      | nil => rw [hbuffer] at h; simp at h
      | cons d ds =>
          have hbuffer' : (discardAll call.settled c).buffer = d :: ds := by
            rw [buffer_discardAll, hbuffer]
          have hfill : Process.fill me call.now call.locked call.order call.ledger
              (discardAll call.settled c) = some (call.ledger, discardAll call.settled c) :=
            fill_of_buffer (by rw [hbuffer']; exact List.cons_ne_nil _ _)
          have hpop := pop_of_buffer hbuffer'
          rw [hbuffer] at h
          have hlength : calls.length ≤ (discardAll call.settled c).pop.2.buffer.length := by
            rw [hpop.2]
            exact Nat.le_of_succ_le_succ h
          rw [nexts, hfill, Option.bind_some, ih hlength, hpop.1, hpop.2]
          rfl

/-! ## First in, first out -/

/-- The rows a consumer's claim takes when no row is locked. -/
def taken (now : Time) (c : Consumer) (l : Ledger) : List Row :=
  Queries.claimNext now c.queueName (min c.capacity Consumer.claimBatchMax) [] l.db.queue

/-- **First in, first out**: the claim takes the first rows that are due, as
many as the capacity allows, and the calls of `__next__` from the claim on yield
exactly their messages, in their order. -/
structure Fifo (me : Uuid) (l : Ledger) (c : Consumer) (now : Time) (order : List ℕ) : Prop where
  first : IsFirst (min c.capacity Consumer.claimBatchMax) (due now c.queueName l.db.queue)
    (taken now c l)
  yielded : ∀ rest ds, rest.length + 1 = (taken now c l).length →
    nexts me c (⟨[], l, now, [], order⟩ :: rest) = some ds →
      ds.map Delivery.messageId = (taken now c l).map Row.messageId

section Fifo

variable {me : Uuid} {l : Ledger} {c : Consumer} {now : Time} {order : List ℕ}

theorem claimLimit_of_empty (hbuffer : c.buffer = []) (hcapacity : 0 < c.capacity) :
    c.claimLimit = some (min c.capacity Consumer.claimBatchMax) := by
  rw [Consumer.claimLimit, if_pos ⟨by rw [hbuffer]; rfl, hcapacity⟩]

/-- A call that fills the buffer yields as one that finds it filled. -/
theorem nexts_of_fill {l' : Ledger} {c' : Consumer} {rest : List NextCall}
    (hfill : Process.fill me now [] order l c = some (l', c')) (hbuffer : c'.buffer ≠ []) :
    nexts me c (⟨[], l, now, [], order⟩ :: rest) =
      nexts me c' (⟨[], l, now, [], order⟩ :: rest) := by
  have hfilled : Process.fill me now [] order l c' = some (l, c') := fill_of_buffer hbuffer
  rw [nexts, nexts]
  simp only [discardAll, List.foldl_nil, hfill, hfilled, Option.bind_some]

/-- **What the calls yield**: the taken rows, in the order `RETURNING` gives
them. -/
theorem exists_yielded (hbuffer : c.buffer = []) (hcapacity : 0 < c.capacity)
    (hdecodes : ∀ r ∈ due now c.queueName l.db.queue, (Message.ofJson? r.message).isSome = true)
    (horder : order.Perm (List.range (taken now c l).length)) :
    ∃ es : List Delivery,
      order.mapM (fun i => ((taken now c l).map Row.messageId)[i]?)
        = some (es.map Delivery.messageId) ∧
      ∀ rest : List NextCall, rest.length + 1 = (taken now c l).length →
        nexts me c (⟨[], l, now, [], order⟩ :: rest) = some es := by
  -- every payload of the batch decodes, so the claim returns
  have hdeliver : ∀ r ∈ (Queries.claim now c.queueName (min c.capacity Consumer.claimBatchMax) me
      [] l.db.queue).1, ∃ d, l.deliver me r = some d := by
    intro r' hr'
    obtain ⟨r, hr, rfl⟩ := List.mem_map.mp hr'
    have hmem := (isFirst_claimNext now c.queueName _ l.db.queue).mem r hr
    obtain ⟨m, hm⟩ := Option.isSome_iff_exists.mp (hdecodes r hmem)
    have hmessage : (Queries.claimSet now me r).message = r.message := rfl
    rw [Ledger.deliver, hmessage, hm]
    exact ⟨_, rfl⟩
  obtain ⟨ds, hds⟩ := List.exists_mapM hdeliver
  have hids : ds.map Delivery.messageId = (taken now c l).map Row.messageId := by
    have hmap := List.map_eq_map_of_mapM (g := Delivery.messageId) (k := Row.messageId) (by
      intro r d hd
      rw [Ledger.deliver, Option.map_eq_some_iff] at hd
      obtain ⟨m, -, rfl⟩ := hd
      rfl) hds
    rw [hmap, Queries.claim, List.map_map]
    rfl
  have hlength : ds.length = (taken now c l).length := by
    have hmap := congrArg List.length hids
    rwa [List.length_map, List.length_map] at hmap
  -- and its rows come back in the given order
  have hplaces : ∀ i ∈ order, ∃ d, ds[i]? = some d := by
    intro i hi
    have hlt := List.mem_range.mp (horder.mem_iff.mp hi)
    exact ⟨_, List.getElem?_eq_getElem (hlength ▸ hlt)⟩
  obtain ⟨es, hes⟩ := List.exists_mapM hplaces
  have hesLength : es.length = (taken now c l).length := by
    have hforall := (List.mapM_eq_some_iff.mp hes).length_eq
    rw [← hforall, horder.length_eq, List.length_range]
  refine ⟨es, ?_, fun rest hrest => ?_⟩
  · rw [← hids]
    exact List.mapM_getElem?_map hes
  · have hfill : ∃ l', Process.fill me now [] order l c = some (l', { c with buffer := es }) := by
      have horder' : Process.inOrder order ds = some es := by
        rw [Process.inOrder, if_pos (by rwa [hlength]), hes]
      simp only [Process.fill, claimLimit_of_empty hbuffer hcapacity, Ledger.claim, hds,
        Option.map_some, Option.bind_some, horder', hbuffer, List.nil_append]
      exact ⟨_, rfl⟩
    obtain ⟨l', hfill⟩ := hfill
    have hne : ({ c with buffer := es } : Consumer).buffer ≠ [] := by
      rw [← List.length_pos_iff, hesLength]
      omega
    rw [nexts_of_fill hfill hne, nexts_of_buffer me (by simp only [List.length_cons]; omega)]
    simp only [List.length_cons, hrest, ← hesLength, List.take_length]

/-- A consumer without capacity takes nothing. -/
theorem capacity_pos_of_taken (h : 0 < (taken now c l).length) : 0 < c.capacity := by
  by_contra hzero
  rw [not_lt, Nat.le_zero] at hzero
  rw [taken, hzero, Nat.zero_min, (isFirst_claimNext now c.queueName 0 l.db.queue).length,
    Nat.zero_min] at h
  exact absurd h (lt_irrefl 0)

/-- The order the messages are yielded in gives away the order the rows came
back in. -/
theorem Fifo.order_eq (hfifo : Fifo me l c now order) (hbuffer : c.buffer = [])
    (hdecodes : ∀ r ∈ due now c.queueName l.db.queue, (Message.ofJson? r.message).isSome = true)
    (horder : order.Perm (List.range (taken now c l).length)) :
    order = List.range (taken now c l).length := by
  rcases Nat.eq_zero_or_pos (taken now c l).length with hzero | hpos
  · rw [hzero] at horder ⊢
    exact horder.eq_nil
  · obtain ⟨es, hes, hyields⟩ := @exists_yielded me l c now order hbuffer
      (capacity_pos_of_taken hpos) hdecodes horder
    have hrest : (List.replicate ((taken now c l).length - 1)
        (⟨[], l, now, [], order⟩ : NextCall)).length + 1 = (taken now c l).length := by
      rw [List.length_replicate]
      omega
    have hids := hfifo.yielded _ es hrest (hyields _ hrest)
    have hnodup : ((taken now c l).map Row.messageId).Nodup := nodup_claimedIds _ _ _ _ _
    have hsame := List.eq_iff_of_mapM_getElem? hnodup (by rwa [List.length_map]) hes
    rw [List.length_map] at hsame
    exact hsame.mp hids

end Fifo

/-- **The consumer is first in, first out exactly when the rows of its claim
come back in the order of the claim.**  All due payloads have to decode; where
one does not, the claim raises and the batch is the subject of the first
part. -/
theorem fifo_iff (me : Uuid) (l : Ledger) (c : Consumer) (now : Time) (order : List ℕ)
    (hbuffer : c.buffer = [])
    (hdecodes : ∀ r ∈ due now c.queueName l.db.queue, (Message.ofJson? r.message).isSome = true)
    (horder : order.Perm (List.range (taken now c l).length)) :
    Fifo me l c now order ↔ order = List.range (taken now c l).length := by
  refine ⟨fun hfifo => hfifo.order_eq hbuffer hdecodes horder, fun heq => ?_⟩
  refine ⟨isFirst_claimNext _ _ _ _, fun rest ds hrest hds => ?_⟩
  have hpos : 0 < (taken now c l).length := by omega
  obtain ⟨es, hes, hyields⟩ := @exists_yielded me l c now order hbuffer
    (capacity_pos_of_taken hpos) hdecodes horder
  rw [hyields rest hrest, Option.some_inj] at hds
  have hnodup : ((taken now c l).map Row.messageId).Nodup := nodup_claimedIds _ _ _ _ _
  have hsame := List.eq_iff_of_mapM_getElem? hnodup (by rwa [List.length_map]) hes
  rw [List.length_map] at hsame
  rw [← hds]
  exact hsame.mpr heq

/-- Two messages on one queue, the first due before the second. -/
def twoMessages : Ledger :=
  Ledger.empty.withQueue <|
    Queries.upsert 1 "q" (Uuid.small 2) (Message.plain "q" (Uuid.small 2)).toJson 0 <|
      Queries.upsert 0 "q" (Uuid.small 1) (Message.plain "q" (Uuid.small 1)).toJson 0 Queue.empty

theorem fifo_iff_twoMessages :
    Fifo (Uuid.small 7) twoMessages (Consumer.new "q" 2) 10 [0, 1] ↔
      [0, 1] = List.range (taken 10 (Consumer.new "q" 2) twoMessages).length :=
  fifo_iff _ _ _ _ _ rfl (by decide +kernel) (by decide +kernel)

/-- **The second message is yielded first** when its row comes back first. -/
theorem not_fifo_twoMessages :
    ¬ Fifo (Uuid.small 7) twoMessages (Consumer.new "q" 2) 10 [1, 0] := by
  intro hfifo
  have horder := hfifo.order_eq rfl (by decide +kernel) (by decide +kernel)
  revert horder
  decide +kernel

end Batch

end DramatiqPostgres

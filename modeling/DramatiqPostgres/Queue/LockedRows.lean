import DramatiqPostgres.Lib.LockSteps
import DramatiqPostgres.Queue.LockedLifecycle
import DramatiqPostgres.Queue.RowInvariant

/-!
# The row invariant under row locks

`rowLaw_of_reachable` takes the statements one after the other.  Here they
interleave: a statement writes a row in the version it has locked, while its
condition may have been true of another one, and the position of a new row is
drawn when ENQUEUE begins, long before it commits.

The invariant is kept nevertheless.  What a commit writes, it writes to a row
that meets its condition at that moment (`RowLocks.origin_of_mem_effect`), and a
position that was drawn fresh is still fresh at the commit, because it is nobody
else's in between.

### The hypothesis, and what it is good for

`DrawsFresh` asks of the steps that draw a position that it be in no row and
drawn by no statement under way.  That is what a sequence gives, whatever
becomes of the transactions that drew from it: it is never rolled back.  Without
it positions would not be unique, and nothing else in the law depends on it.

A drawn position is not in the table while its transaction is under way, and may
never be.  So the invariant `Ok` is about the drawn ones too: they are in no
row, and no two of them are equal.
-/

namespace DramatiqPostgres

namespace LockedRows

open Pg RowLocks

/-- The position a statement has drawn from the sequence; only an enqueue draws
one. -/
def drawn? : QueueTx → Option ℕ
  | .enqueue _ _ _ _ _ position => some position
  | _ => none

/-- Whether the statement is NACK. -/
def isNack : QueueTx → Bool
  | .nack .. => true
  | _ => false

/-- Which columns a statement leaves alone in the row it turns into `r'`: the
same as where statements run one after the other. -/
structure Kept (stmt : QueueTx) (r r' : Row) : Prop where
  queueName : r'.queueName = r.queueName
  position : r'.position = r.position
  availableAt : r'.availableAt = r.availableAt
  message : isNack stmt = false → r'.message = r.message

/-- The position a step draws. -/
def drawnBy? : Action QueueTx Uuid → Option ℕ
  | .start _ stmt _ => drawn? stmt
  | _ => none

/-- The sequence gives out a position that is not in the table, and that no
statement under way has drawn. -/
def DrawsFresh (s : State QueueTx Row.messageId) (a : Action QueueTx Uuid) : Prop :=
  ∀ n ∈ drawnBy? a, (∀ r ∈ s.committed, r.position ≠ n) ∧
    ∀ t tx, s.txs t = some tx → drawn? tx.stmt ≠ some n

/-- The row invariant, and what a commit may change.  It is a law about the
state and about every commit that is possible in it. -/
structure Law (s : State QueueTx Row.messageId) : Prop where
  messageIds : (s.committed.rows.map Row.messageId).Nodup
  positions : (s.committed.rows.map Row.position).Nodup
  rows : ∀ r ∈ s.committed, RowOk r
  frame : ∀ a s', s.step Row.position QueueTx.plan a = some s' →
    s'.committed = s.committed ∨
      ∃ t tx, a = .commit t ∧ s.txs t = some tx ∧ ∀ r ∈ s.committed, ∀ r' ∈ s'.committed,
        r'.messageId = r.messageId → Lifecycle.enqueued? tx.stmt ≠ some r.messageId →
          r' = r ∨ Kept tx.stmt r r'

/-! ## A commit -/

section Commit

variable {stmt : QueueTx} {table : Table Row Row.messageId} {taken : List Row} {r r' : Row}

/-- A scan writes rows that are in order, and keeps the columns that are not its
own. -/
theorem scan_written {cond before limit skipLocked write hwrite}
    (hplan : stmt.plan = .scan cond before limit skipLocked write hwrite) (hcond : cond r = true)
    (hset : write r = some r') : RowOk r' ∧ Kept stmt r r' := by
  cases stmt with
  | claim =>
      cases hplan
      cases hset
      exact ⟨rowOk_claimSet hcond, rfl, rfl, rfl, fun _ => rfl⟩
  | enqueue => cases hplan
  | ack | purge | flush | deleteByPk | discard =>
      cases hplan
      cases hset
  | nack now message =>
      cases hplan
      cases hset
      exact ⟨rowOk_nackSet now message r, rfl, rfl, rfl, fun hnack => by cases hnack⟩
  | requeue | reap | recover =>
      cases hplan
      cases hset
      exact ⟨rowOk_of_queued rfl rfl rfl, rfl, rfl, rfl, fun _ => rfl⟩

/-- Where a row comes from that a commit leaves: it was there, it was written by
a scan, or it is the row of an enqueue, with its own position or with the one
that was drawn. -/
theorem origin_cases (hadmissible : Admissible stmt.plan taken table)
    (h : r' ∈ effect stmt.plan taken table) :
    r' ∈ table ∨ (∃ r ∈ table, RowOk r' ∧ Kept stmt r r' ∧ r'.messageId = r.messageId) ∨
      RowOk r' ∧ Lifecycle.enqueued? stmt = some r'.messageId ∧
        ((∃ r ∈ table, r.messageId = r'.messageId ∧ r'.position = r.position) ∨
          drawn? stmt = some r'.position) := by
  cases origin_of_mem_effect hadmissible h with
  | kept h => exact Or.inl h
  | @written cond before limit skipLocked write hwrite hplan r h hcond hset =>
      obtain ⟨hok, hkept⟩ := scan_written hplan hcond hset
      exact Or.inr (Or.inl ⟨r, h, hok, hkept, hwrite r r' hset⟩)
  | inserted hplan h =>
      cases stmt with
      | enqueue now queueName messageId message delay position =>
          cases hplan
          subst h
          exact Or.inr (Or.inr ⟨rowOk_of_queued rfl rfl rfl, rfl, Or.inr rfl⟩)
      | _ => cases hplan
  | updated hplan r hr hkey hrow =>
      cases stmt with
      | enqueue now queueName messageId message delay position =>
          cases hplan
          subst hrow
          have hid : messageId = r.messageId := hkey.symm
          exact Or.inr (Or.inr ⟨rowOk_of_queued rfl rfl rfl, congrArg some hid,
            Or.inl ⟨r, hr, rfl, rfl⟩⟩)
      | _ => cases hplan

end Commit

/-! ## Every interleaving -/

/-- The rows are in order, and positions are unique, also those that are not in
the table yet. -/
structure Ok (s : State QueueTx Row.messageId) : Prop where
  rows : ∀ r ∈ s.committed, RowOk r
  positions : ∀ r ∈ s.committed, ∀ r' ∈ s.committed, r.position = r'.position → r = r'
  fresh : ∀ t tx, s.txs t = some tx → ∀ r ∈ s.committed, drawn? tx.stmt ≠ some r.position
  apart : ∀ t t' tx tx', s.txs t = some tx → s.txs t' = some tx' → t ≠ t' →
    ∀ n ∈ drawn? tx.stmt, drawn? tx'.stmt ≠ some n

variable {table : Table Row Row.messageId} {s s' : State QueueTx Row.messageId}

theorem ok_start : Ok (State.start Table.empty) where
  rows := fun r hr => absurd hr (Table.not_mem_empty r)
  positions := fun r hr => absurd hr (Table.not_mem_empty r)
  fresh := fun _ _ h => by cases h
  apart := fun _ _ _ _ h => by cases h

/-- The row a position came from. -/
theorem exists_position {stmt : QueueTx} {taken : List Row} {committed : Table Row Row.messageId}
    (hadmissible : Admissible stmt.plan taken committed) {r' : Row}
    (h : r' ∈ effect stmt.plan taken committed) :
    (∃ r ∈ committed, r.messageId = r'.messageId ∧ r.position = r'.position) ∨
      Lifecycle.enqueued? stmt = some r'.messageId ∧ drawn? stmt = some r'.position := by
  rcases origin_cases hadmissible h with hold | ⟨r, hr, -, hkept, hid⟩ |
    ⟨-, henqueued, ⟨r, hr, hid, hposition⟩ | hdrawn⟩
  · exact Or.inl ⟨r', hold, rfl, rfl⟩
  · exact Or.inl ⟨r, hr, hid.symm, hkept.position.symm⟩
  · exact Or.inl ⟨r, hr, hid, hposition.symm⟩
  · exact Or.inr ⟨henqueued, hdrawn⟩

/-- **Step lemma.**  A begin draws a position, a commit writes one, and nothing
else touches them. -/
theorem Ok.step {a : Action QueueTx Uuid} (hok : Ok s)
    (hlocks : RowLocks.Ok QueueTx.plan table s) (hfresh : DrawsFresh s a)
    (h : s.step Row.position QueueTx.plan a = some s') : Ok s' := by
  have hapart : ∀ t t' tx tx', s'.txs t = some tx → s'.txs t' = some tx' → t ≠ t' →
      ∀ n ∈ drawn? tx.stmt, drawn? tx'.stmt ≠ some n := by
    intro t t' tx tx' htx htx' hne n hn hn'
    rcases stmt_cases h htx with ⟨old, hold, hstmt, -⟩ | ⟨order, rfl⟩
    · rcases stmt_cases h htx' with ⟨old', hold', hstmt', -⟩ | ⟨order, rfl⟩
      · rw [← hstmt] at hn
        rw [← hstmt'] at hn'
        exact hok.apart t t' old old' hold hold' hne n hn hn'
      · rw [← hstmt] at hn
        exact (hfresh n hn').2 t old hold hn
    · rcases stmt_cases h htx' with ⟨old', hold', hstmt', -⟩ | ⟨order', heq⟩
      · rw [← hstmt'] at hn'
        exact (hfresh n hn).2 t' old' hold' hn'
      · exact hne (Action.start.inj heq).1
  rcases committed_cases h with ⟨hsame, hnot⟩ | ⟨t, tx, rfl, htx, hdone, heffect⟩
  · refine ⟨hsame ▸ hok.rows, hsame ▸ hok.positions, fun t tx htx r hr hdrawn => ?_, hapart⟩
    rw [hsame] at hr
    rcases stmt_cases h htx with ⟨old, hold, hstmt, -⟩ | ⟨order, rfl⟩
    · exact hok.fresh t old hold r hr (hstmt ▸ hdrawn)
    · exact (hfresh _ hdrawn).1 r hr rfl
  · have hadmissible := (hlocks.txs t tx htx).admissible hdone
    have hfind : ∀ {r'}, r' ∈ s'.committed →
        (∃ r ∈ s.committed, r.messageId = r'.messageId ∧ r.position = r'.position) ∨
          Lifecycle.enqueued? tx.stmt = some r'.messageId ∧ drawn? tx.stmt = some r'.position :=
      fun hr' => exists_position hadmissible (heffect ▸ hr')
    refine ⟨fun r' hr' => ?_, fun r₁ hr₁ r₂ hr₂ heq => ?_, fun t' tx' htx' r' hr' hdrawn => ?_,
      hapart⟩
    · rcases origin_cases hadmissible (heffect ▸ hr') with hold | ⟨-, -, hrow, -⟩ | ⟨hrow, -⟩
      · exact hok.rows r' hold
      · exact hrow
      · exact hrow
    · refine Table.eq_of_key_eq hr₁ hr₂ ?_
      rcases hfind hr₁ with ⟨old₁, hold₁, hid₁, hposition₁⟩ | ⟨hid₁, hdrawn₁⟩
      · rcases hfind hr₂ with ⟨old₂, hold₂, hid₂, hposition₂⟩ | ⟨-, hdrawn₂⟩
        · have hsame : old₁ = old₂ := hok.positions old₁ hold₁ old₂ hold₂
            (hposition₁.trans (heq.trans hposition₂.symm))
          rw [← hid₁, ← hid₂, hsame]
        · rw [← heq, ← hposition₁] at hdrawn₂
          exact absurd hdrawn₂ (hok.fresh t tx htx old₁ hold₁)
      · rcases hfind hr₂ with ⟨old₂, hold₂, -, hposition₂⟩ | ⟨hid₂, -⟩
        · rw [heq, ← hposition₂] at hdrawn₁
          exact absurd hdrawn₁ (hok.fresh t tx htx old₂ hold₂)
        · exact Option.some_inj.mp (hid₁.symm.trans hid₂)
    · rcases stmt_cases h htx' with ⟨old', hold', hstmt', hother⟩ | ⟨order, hstart⟩
      · rw [← hstmt'] at hdrawn
        rcases hfind hr' with ⟨old, hold, -, hposition⟩ | ⟨-, hdrawn'⟩
        · exact hok.fresh t' old' hold' old hold (hposition ▸ hdrawn)
        · have hne : t ≠ t' := fun heq => hother (heq ▸ rfl)
          exact hok.apart t t' tx old' htx hold' hne _ hdrawn' hdrawn
      · cases hstart

/-- What a commit may change of a row that it does not enqueue. -/
theorem kept_of_commit {t : ℕ} {tx : Tx QueueTx Row Uuid}
    (hlocks : RowLocks.Ok QueueTx.plan table s) (htx : s.txs t = some tx)
    (hdone : tx.isDone tx.stmt.plan = true)
    {r r' : Row} (hr : r ∈ s.committed) (hr' : r' ∈ effect tx.stmt.plan tx.taken s.committed)
    (hid : r'.messageId = r.messageId)
    (hnot : Lifecycle.enqueued? tx.stmt ≠ some r.messageId) : r' = r ∨ Kept tx.stmt r r' := by
  rcases origin_cases ((hlocks.txs t tx htx).admissible hdone) hr' with
    hold | ⟨old, hold, -, hkept, hid'⟩ | ⟨-, henqueued, -⟩
  · exact Or.inl (Table.eq_of_key_eq hold hr hid)
  · rw [Table.eq_of_key_eq hold hr (hid'.symm.trans hid)] at hkept
    exact Or.inr hkept
  · exact absurd (hid ▸ henqueued) hnot

/-- **The row invariant holds in every interleaving** of the statements at
row-lock granularity in which the sequence gives out fresh positions, and a
commit leaves the columns of a row alone that are not its statement's. -/
theorem law_of_drawsFresh (as : List (Action QueueTx Uuid))
    (hfresh : ∀ p ∈ (lockSystem Table.empty).taken as, DrawsFresh p.1 p.2) :
    ∀ s ∈ (lockSystem Table.empty).visited as, Law s := by
  intro s hs
  have hlocks : RowLocks.Ok QueueTx.plan Table.empty s ∧ Ok s :=
    StepSystem.inv_of_mem_visitedFrom (C := DrawsFresh)
      (I := fun s => RowLocks.Ok QueueTx.plan Table.empty s ∧ Ok s)
      (fun _ _ _ hok hfresh hstep => ⟨ok_step hok.1 hstep, hok.2.step hok.1 hfresh hstep⟩)
      ⟨RowLocks.ok_start, ok_start⟩ hfresh s hs
  obtain ⟨hlocks, hok⟩ := hlocks
  refine ⟨s.committed.nodup, ?_, hok.rows, fun a s' h => ?_⟩
  · refine List.Nodup.map_on (fun r hr r' hr' heq => hok.positions r hr r' hr' heq) ?_
    exact List.Nodup.of_map _ s.committed.nodup
  · rcases committed_cases h with ⟨hsame, -⟩ | ⟨t, tx, rfl, htx, hdone, heffect⟩
    · exact Or.inl hsame
    · refine Or.inr ⟨t, tx, rfl, htx, fun r hr r' hr' hid hnot => ?_⟩
      exact kept_of_commit hlocks htx hdone hr (heffect ▸ hr') hid hnot

theorem law_of_racingClaims :
    (∃ s ∈ (lockSystem Table.empty).visited racingClaims,
        s.committed.rows.map (fun r => (r.state, r.position)) = [(.consumed, 1)]) ∧
      ∀ s ∈ (lockSystem Table.empty).visited racingClaims, Law s := by
  refine ⟨by decide +kernel, law_of_drawsFresh racingClaims fun p hp => ?_⟩
  rcases StepSystem.cases_of_mem_takenFrom hp with rfl | ⟨s, -, hp⟩
  · exact fun _ _ => ⟨fun r hr => absurd hr (Table.not_mem_empty r), fun _ _ h => by cases h⟩
  · have hnone : ∀ a ∈ racingClaims.tail, drawnBy? a = none := by decide
    intro n hn
    rw [hnone p.2 (StepSystem.snd_mem_of_mem_takenFrom hp)] at hn
    cases hn

end LockedRows

end DramatiqPostgres

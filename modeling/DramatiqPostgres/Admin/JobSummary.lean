import DramatiqPostgres.Lib.Dict
import DramatiqPostgres.Lib.Grouped
import DramatiqPostgres.Queue.Queries
import Mathlib.Data.String.Basic

/-!
# The job dashboard and the numbers of the command line

`JobAdmin._summary_html` counts the jobs by queue and state, in two
accumulators: a dictionary of queues, in which the delay queue `<queue>.DQ` is
counted under `<queue>`, and the totals on top of the page.  The command `stats`
counts them by state alone.  Both start from the groups of a query, in an order
the database is free to choose, and the two queries are not the same.

`SummaryOk` is the law of the page: one line for each queue that has jobs, in
the order of the names, with the jobs of its own queue and of its delay queue;
the totals are those of its lines, those of `stats`, and together all the jobs
there are.

### The groups

What a query with a GROUP BY returns is `Grouped` of `Lib.Grouped`: each key
that some row has, once, with the number of its rows, in any order.  The page
orders its groups by queue name, which leaves the states of a queue, and the
place of a delay queue, to the database; the law needs neither, since the
dictionary brings equal names together and the lines are sorted at the end.

### The invariant of the loop

`Tallied` says what the two accumulators hold after some of the groups: for each
name that has occurred, what the groups so far make of it, and the totals of
all.  One turn of the loop keeps it (`Tallied.count`), whether the name is new
or known, and the rest is arithmetic of sums over groups.  `removesuffix` takes
one `.DQ` off, so a queue whose own name ends in it is counted under what is
left, as its delay queue is under the name itself.
-/

namespace DramatiqPostgres

namespace JobAdmin

open Pg

/-- `str.removesuffix`: the suffix is taken off once, if it is there. -/
def removeSuffix (suffix s : String) : String :=
  if suffix.toList <:+ s.toList then String.ofList (s.toList.take (s.length - suffix.length)) else s

/-- A number of jobs for each state: the dictionaries of the page have all three
as keys from the start. -/
abbrev Counts := JobState → ℕ

/-- `counts[state] += n`. -/
def Counts.add (counts : Counts) (state : JobState) (n : ℕ) : Counts :=
  Function.update counts state (counts state + n)

/-- The accumulators of `_summary_html`: the dictionary of queues, in the order
of insertion, and the totals. -/
structure Summary where
  perQueue : List (String × Counts)
  totals : Counts

/-- A group of the query, by queue and state. -/
abbrev Group := (String × JobState) × ℕ

namespace Summary

/-- No jobs. -/
def empty : Summary := ⟨[], fun _ => 0⟩

/-- The dictionary after `per_queue.setdefault(name, …)`. -/
def opened (acc : Summary) (name : String) : List (String × Counts) :=
  Dict.setDefault name (fun _ => 0) acc.perQueue

/-- What `per_queue.setdefault(name, …)` returns. -/
def row (acc : Summary) (name : String) : Counts :=
  (Dict.get? name (acc.opened name)).getD fun _ => 0

/-- The body of the loop.  A group is counted under its queue and in the
totals. -/
def count (acc : Summary) (r : Group) : Summary :=
  let name := removeSuffix ".DQ" r.1.1
  { perQueue := Dict.set name ((acc.row name).add r.1.2 r.2) (acc.opened name)
    totals := acc.totals.add r.1.2 r.2 }

/-- `sorted(per_queue.items())`: the names differ, so that no two counts are
compared. -/
def lines (acc : Summary) : List (String × Counts) :=
  acc.perQueue.mergeSort fun e f => e.1 ≤ f.1

end Summary

/-- The loop of `_summary_html`, over the groups in the order they come in. -/
def summary (rows : List Group) : Summary := rows.foldl Summary.count Summary.empty

/-- What `stats_command` prints. -/
def stats (rows : List (JobState × ℕ)) : List (JobState × ℕ) :=
  [.queued, .consumed, .rejected].map fun state =>
    (state, (Dict.get? state (Dict.ofEntries rows)).getD 0)

/-- The queue a job is counted under: its own, or the one whose delay queue it
is in. -/
def countedUnder (r : Row) : String := removeSuffix ".DQ" r.queueName

/-- The law of the page, and of `stats`, over the same jobs. -/
structure SummaryOk (jobs : List Row) (page : Summary) (printed : List (JobState × ℕ)) : Prop where
  sorted : (page.lines.map Prod.fst).Pairwise (· < ·)
  queues : ∀ name, name ∈ page.lines.map Prod.fst ↔ ∃ r ∈ jobs, countedUnder r = name
  delayed : ∀ r ∈ jobs, ∀ name, r.queueName = name ++ ".DQ" → countedUnder r = name
  cells : ∀ name counts, (name, counts) ∈ page.lines → ∀ state,
    counts state = jobs.countP fun r => countedUnder r = name ∧ r.state = state
  columns : ∀ state, (page.lines.map fun line => line.2 state).sum = page.totals state
  printed : printed =
    [(.queued, page.totals .queued), (.consumed, page.totals .consumed),
      (.rejected, page.totals .rejected)]
  all : page.totals .queued + page.totals .consumed + page.totals .rejected = jobs.length

theorem removeSuffix_append (suffix s : String) : removeSuffix suffix (s ++ suffix) = s := by
  have hsuffix : suffix.toList <:+ (s ++ suffix).toList := by
    rw [String.toList_append]
    exact List.suffix_append _ _
  have hlength : (s ++ suffix).length - suffix.length = s.toList.length := by
    rw [String.length_append, Nat.add_sub_cancel, String.length_toList]
  rw [removeSuffix, if_pos hsuffix, hlength, String.toList_append, List.take_left,
    String.ofList_toList]

/-! ## The accumulators -/

/-- The jobs of the groups that satisfy a predicate.  Every number on the page
is one of these. -/
def total (p : String × JobState → Bool) (rows : List Group) : ℕ :=
  ((rows.filter fun r => p r.1).map Prod.snd).sum

theorem total_concat (p : String × JobState → Bool) (rows : List Group) (r : Group) :
    total p (rows ++ [r]) = total p rows + if p r.1 then r.2 else 0 := by
  rw [total, List.filter_append, List.map_append, List.sum_append, ← total]
  congr 1
  by_cases h : p r.1 <;> simp [h]

/-- Whether a group is counted under a name and state. -/
def isUnder (name : String) (state : JobState) (k : String × JobState) : Bool :=
  removeSuffix ".DQ" k.1 = name ∧ k.2 = state

/-- The accumulators after some of the groups: the invariant of the loop. -/
structure Tallied (rows : List Group) (acc : Summary) : Prop where
  nodup : (acc.perQueue.map Prod.fst).Nodup
  perQueue : ∀ name, Dict.get? name acc.perQueue =
    if name ∈ rows.map (fun r => removeSuffix ".DQ" r.1.1) then
      some fun state => total (isUnder name state) rows
    else none
  totals : ∀ state, acc.totals state = total (fun k => k.2 = state) rows
  columns : ∀ state, (acc.perQueue.map fun line => line.2 state).sum = acc.totals state

theorem tallied_empty : Tallied [] Summary.empty :=
  ⟨List.nodup_nil, fun _ => rfl, fun _ => rfl, fun _ => rfl⟩

/-- A queue that has not been counted has no jobs so far. -/
theorem total_isUnder_of_not_mem {rows : List Group} {name : String}
    (h : name ∉ rows.map fun r => removeSuffix ".DQ" r.1.1) (state : JobState) :
    total (isUnder name state) rows = 0 := by
  have hfilter : rows.filter (fun r => isUnder name state r.1) = [] := by
    refine List.filter_eq_nil_iff.mpr fun r hr hunder => h ?_
    simp only [isUnder, decide_eq_true_eq] at hunder
    exact List.mem_map.mpr ⟨r, hr, hunder.1⟩
  rw [total, hfilter]
  rfl

theorem Counts.add_eq (counts : Counts) (state state' : JobState) (n : ℕ) :
    counts.add state n state' = counts state' + if state = state' then n else 0 := by
  by_cases h : state' = state
  · subst h
    rw [Counts.add, Function.update_self, if_pos rfl]
  · rw [Counts.add, Function.update_of_ne h, if_neg (Ne.symm h), Nat.add_zero]

namespace Tallied

variable {rows : List Group} {acc : Summary}

theorem nodup_opened (h : Tallied rows acc) (name : String) :
    ((acc.opened name).map Prod.fst).Nodup := Dict.nodup_setDefault h.nodup name _

theorem row_eq (h : Tallied rows acc) (name : String) :
    acc.row name = fun state => total (isUnder name state) rows := by
  rw [Summary.row, Summary.opened, Dict.get?_setDefault, if_pos rfl, h.perQueue]
  split_ifs with hmem
  · rfl
  · funext state
    exact (total_isUnder_of_not_mem hmem state).symm

theorem get?_count (h : Tallied rows acc) (r : Group) (name : String) :
    Dict.get? name (acc.count r).perQueue =
      if name ∈ (rows ++ [r]).map (fun r => removeSuffix ".DQ" r.1.1) then
        some fun state => total (isUnder name state) (rows ++ [r])
      else none := by
  show Dict.get? name (Dict.set _ _ _) = _
  rw [Dict.get?_set (h.nodup_opened _), h.row_eq, List.map_append, List.map_singleton]
  by_cases hname : removeSuffix ".DQ" r.1.1 = name
  · rw [if_pos hname, ← hname, if_pos (List.mem_append_right _ (List.mem_singleton_self _))]
    congr 1
    funext state
    rw [Counts.add_eq, total_concat]
    simp [isUnder]
  · have hmem : name ∈ rows.map (fun r => removeSuffix ".DQ" r.1.1) ++ [removeSuffix ".DQ" r.1.1]
        ↔ name ∈ rows.map fun r => removeSuffix ".DQ" r.1.1 := by
      rw [List.mem_append, List.mem_singleton, or_iff_left (Ne.symm hname)]
    rw [if_neg hname, Summary.opened, Dict.get?_setDefault, if_neg hname, Option.or_none,
      h.perQueue]
    simp only [hmem, total_concat, isUnder, hname, false_and, decide_false, Bool.false_eq_true,
      if_false, Nat.add_zero]

theorem totals_count (h : Tallied rows acc) (r : Group) (state : JobState) :
    (acc.count r).totals state = total (fun k => k.2 = state) (rows ++ [r]) := by
  show Counts.add acc.totals r.1.2 r.2 state = _
  rw [Counts.add_eq, total_concat, ← h.totals]
  simp

theorem columns_count (h : Tallied rows acc) (r : Group) (state : JobState) :
    ((acc.count r).perQueue.map fun line => line.2 state).sum = (acc.count r).totals state := by
  have hset := Dict.sum_set (h.nodup_opened (removeSuffix ".DQ" r.1.1))
    (fun counts : Counts => counts state) (removeSuffix ".DQ" r.1.1)
    ((acc.row (removeSuffix ".DQ" r.1.1)).add r.1.2 r.2)
  have hopened : ((acc.opened (removeSuffix ".DQ" r.1.1)).map fun line => line.2 state).sum =
      (acc.perQueue.map fun line => line.2 state).sum :=
    Dict.sum_setDefault (fun counts : Counts => counts state) _ rfl _
  have hold : (Dict.get? (removeSuffix ".DQ" r.1.1) (acc.opened (removeSuffix ".DQ" r.1.1))).elim 0
      (fun counts : Counts => counts state) = acc.row (removeSuffix ".DQ" r.1.1) state := by
    rw [Summary.row]
    cases Dict.get? (removeSuffix ".DQ" r.1.1) (acc.opened (removeSuffix ".DQ" r.1.1)) <;> rfl
  rw [hopened, hold, h.columns, Counts.add_eq] at hset
  show ((Dict.set _ _ _).map fun line : String × Counts => line.2 state).sum =
    Counts.add _ _ _ state
  rw [Counts.add_eq]
  omega

/-- **Step lemma**: one turn of the loop. -/
theorem count (h : Tallied rows acc) (r : Group) : Tallied (rows ++ [r]) (acc.count r) :=
  ⟨Dict.nodup_set (h.nodup_opened _) _ _, h.get?_count r, h.totals_count r, h.columns_count r⟩

end Tallied

/-- **Run lemma**: the loop. -/
theorem tallied_summary (rows : List Group) : Tallied rows (summary rows) := by
  induction rows using List.reverseRecOn with
  | nil => exact tallied_empty
  | append_singleton rows r ih =>
      rw [summary, List.foldl_append, ← summary]
      exact ih.count r

/-! ## The page -/

namespace Tallied

variable {rows : List Group} {acc : Summary}

theorem lines_perm (acc : Summary) : acc.lines.Perm acc.perQueue := List.mergeSort_perm ..

theorem nodup_lines (h : Tallied rows acc) : (acc.lines.map Prod.fst).Nodup :=
  ((lines_perm acc).map _).nodup_iff.mpr h.nodup

theorem sorted (h : Tallied rows acc) : (acc.lines.map Prod.fst).Pairwise (· < ·) := by
  have hle : (acc.lines.map Prod.fst).Pairwise (· ≤ ·) := by
    have hsorted : acc.lines.Pairwise fun e f => decide (e.1 ≤ f.1) = true :=
      List.pairwise_mergeSort
        (fun a b c hab hbc => by simpa using (of_decide_eq_true hab).trans (of_decide_eq_true hbc))
        (fun a b => by simpa using le_total a.1 b.1) acc.perQueue
    exact List.pairwise_map.mpr (hsorted.imp fun h => by simpa using h)
  exact hle.imp₂ (fun _ _ hle hne => lt_of_le_of_ne hle hne) h.nodup_lines

theorem mem_names_iff (h : Tallied rows acc) (name : String) :
    name ∈ acc.lines.map Prod.fst ↔ name ∈ rows.map fun r => removeSuffix ".DQ" r.1.1 := by
  rw [((lines_perm acc).map _).mem_iff]
  have hget := h.perQueue name
  split_ifs at hget with hmem
  · exact iff_of_true (List.mem_map_of_mem (Dict.mem_of_get? hget)) hmem
  · exact iff_of_false (Dict.get?_eq_none_iff.mp hget) hmem

theorem cell_eq (h : Tallied rows acc) {name : String} {counts : Counts}
    (hline : (name, counts) ∈ acc.lines) (state : JobState) :
    counts state = total (isUnder name state) rows := by
  have hget := Dict.get?_of_mem h.nodup ((lines_perm acc).mem_iff.mp hline)
  rw [h.perQueue] at hget
  split_ifs at hget
  cases hget
  rfl

end Tallied

section Page

variable {jobs : List Row} {byQueue : List Group} {byState : List (JobState × ℕ)}

/-- The jobs of the groups that satisfy a predicate are the rows that do,
because the groups are those of the rows.  Here the order of the groups drops
out. -/
theorem total_eq (hqueue : Grouped (fun r : Row => (r.queueName, r.state)) jobs byQueue)
    (p : String × JobState → Bool) :
    total p byQueue = jobs.countP fun r => p (r.queueName, r.state) := hqueue.sum_eq p

theorem countP_states (jobs : List Row) :
    (jobs.countP fun r => r.state = .queued) + (jobs.countP fun r => r.state = .consumed) +
      (jobs.countP fun r => r.state = .rejected) = jobs.length := by
  induction jobs with
  | nil => rfl
  | cons r jobs ih =>
      simp only [List.countP_cons, List.length_cons]
      cases r.state <;> simp <;> omega

/-- **The page and `stats` count the jobs**, whatever the order of the groups
they are given, and whatever the names of the queues are. -/
theorem summaryOk (hqueue : Grouped (fun r : Row => (r.queueName, r.state)) jobs byQueue)
    (hstate : Grouped Row.state jobs byState) :
    SummaryOk jobs (summary byQueue) (stats byState) := by
  have htallied := tallied_summary byQueue
  have htotals : ∀ state, (summary byQueue).totals state =
      jobs.countP fun r => r.state = state := fun state => by
    rw [htallied.totals, total_eq hqueue]
  refine ⟨htallied.sorted, fun name => ?_, fun r _ name hname => ?_,
    fun name counts hline state => ?_, fun state => ?_, ?_, ?_⟩
  · rw [htallied.mem_names_iff]
    have hkeys := hqueue.mem_keys_iff
    constructor
    · intro hmem
      obtain ⟨g, hg, rfl⟩ := List.mem_map.mp hmem
      obtain ⟨r, hr, hkey⟩ := (hkeys g.1).mp (List.mem_map_of_mem hg)
      exact ⟨r, hr, by rw [countedUnder, ← hkey]⟩
    · rintro ⟨r, hr, rfl⟩
      obtain ⟨g, hg, hkey⟩ := List.mem_map.mp ((hkeys _).mpr ⟨r, hr, rfl⟩)
      exact List.mem_map.mpr ⟨g, hg, by rw [hkey, countedUnder]⟩
  · rw [countedUnder, hname, removeSuffix_append]
  · rw [htallied.cell_eq hline, total_eq hqueue]
    rfl
  · rw [← htallied.columns, ((Tallied.lines_perm (summary byQueue)).map _).sum_eq]
  · simp only [stats, List.map_cons, List.map_nil, Dict.get?_ofEntries, hstate.get?_getD, htotals]
  · simp only [htotals, countP_states]

/-- A job on a queue, and one on its delay queue. -/
def twoJobs : List Row :=
  [⟨Uuid.small 1, "q", .queued, 0, .null, 1, 0, none, none⟩,
    ⟨Uuid.small 2, "q.DQ", .queued, 0, .null, 2, 0, none, none⟩]

theorem summaryOk_twoJobs :
    (summary [(("q", .queued), 1), (("q.DQ", .queued), 1)]).totals .queued = 2 ∧
      SummaryOk twoJobs (summary [(("q", .queued), 1), (("q.DQ", .queued), 1)])
        (stats [(.queued, 2)]) :=
  ⟨by decide, summaryOk (by decide) (by decide)⟩

end Page

end JobAdmin

end DramatiqPostgres

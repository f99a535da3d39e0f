import Mathlib.Data.List.Basic
import Mathlib.Data.Option.Basic

/-!
# Statements as texts

The tables a statement addresses are read off its text, the way the server's
lexer does: `qualifiedNames` finds every `"schema"."table"` that stands outside
of string constants.

The text that reaches the server is not always the text the program wrote.  With
parameters, psycopg first replaces the placeholders `%s`, `%b` and `%t`, takes
`%%` for a percent sign, and refuses any other use of `%`
(`Psycopg.placeholders`).  It does so inside quoted names too.

A name that is not part of a statement is read by itself: `readName` reads a
quoted name up to the quote that ends it, `qualifiedName?` a whole text that is
a qualified name.

### Why names are read and not compared

What a query addresses is what the server makes of the text, and not the name
that the program put into it.  A name with a quote in it ends early unless the
quote is doubled; a name with a percent sign is changed by the driver, or
refused, before the server sees it.  So a law about the tables of a program
begins with the text that is sent, and has to come to the name by reading.

### The laws

* `scan_qualified` and `readName_doubled` — a name that is written with its
  quotes doubled is read back, whatever characters it has.
* `eq_of_readName`, `eq_of_qualifiedName?` — nothing else is read as that name.
* `placeholders_doubled`, `of_placeholders_doubled` — what the driver does to a
  quoted name: it passes on one of two percent signs, and refuses the text
  otherwise or counts a placeholder too many.  `halved_eq_self_iff` says that
  only a name without percent signs stays as it is.

The lexer is as small as the statements at hand allow: comments and the other
forms of string constants are not among its states.
-/

namespace Pg

/-! ## The lexer -/

/-- A name in double quotes: quotes inside are doubled.  This is what
`quote_ident` writes between its own two quotes. -/
def doubled (name : List Char) : List Char :=
  name.flatMap fun c => if c = '"' then ['"', '"'] else [c]

/-- What the lexer is in the middle of.  A quote that ends a name ends it only
if no second one follows, so there is a state for having read one. -/
inductive Lexing where
  | plain
  /-- a string constant -/
  | constant
  /-- a quoted name -/
  | name (a : List Char)
  /-- after a quote that ends a name, unless a second one follows -/
  | nameEnd (a : List Char)
  /-- after the dot that follows a quoted name -/
  | dot (a : List Char)
  /-- the quoted name after the dot -/
  | second (a b : List Char)
  /-- after a quote that ends the second name, unless another one follows -/
  | secondEnd (a b : List Char)
  deriving DecidableEq, Repr

namespace Lexing

/-- The state after a character that starts something new. -/
def start (c : Char) : Lexing :=
  if c = '"' then .name [] else if c = '\'' then .constant else .plain

/-- The state after one more character, and the qualified name that is complete
with it.  A name is complete only with the character after its last quote. -/
def next : Lexing → Char → Lexing × List (String × String)
  | .plain, c => (start c, [])
  | .constant, c => (if c = '\'' then .plain else .constant, [])
  | .name a, c => (if c = '"' then .nameEnd a else .name (a ++ [c]), [])
  | .nameEnd a, c =>
      (if c = '"' then .name (a ++ [c]) else if c = '.' then .dot a else start c, [])
  | .dot a, c => (if c = '"' then .second a [] else start c, [])
  | .second a b, c => (if c = '"' then .secondEnd a b else .second a (b ++ [c]), [])
  | .secondEnd a b, c =>
      if c = '"' then (.second a (b ++ [c]), [])
      else (start c, [(String.ofList a, String.ofList b)])

/-- The qualified name that is complete at the end of the text. -/
def finish : Lexing → List (String × String)
  | .secondEnd a b => [(String.ofList a, String.ofList b)]
  | _ => []

end Lexing

/-- The state after a text, and the qualified names completed in it, so that
texts can be read one after the other (`scan_append`). -/
def scan : Lexing → List Char → Lexing × List (String × String)
  | s, [] => (s, [])
  | s, c :: cs => ((scan (s.next c).1 cs).1, (s.next c).2 ++ (scan (s.next c).1 cs).2)

/-- The qualified names of a statement, in the order of its text. -/
def qualifiedNames (text : List Char) : List (String × String) :=
  (scan .plain text).2 ++ (scan .plain text).1.finish

theorem scan_append (s : Lexing) (xs ys : List Char) :
    scan s (xs ++ ys) =
      ((scan (scan s xs).1 ys).1, (scan s xs).2 ++ (scan (scan s xs).1 ys).2) := by
  induction xs generalizing s with
  | nil => rfl
  | cons c xs ih =>
      rw [List.cons_append, scan, ih, scan]
      simp only [List.append_assoc]

/-- A text that ends where it began to be plain can be left out: this is how the
constant parts of a statement are skipped. -/
theorem scan_plain_append {xs : List Char} (h : scan .plain xs = (.plain, [])) (ys : List Char) :
    scan .plain (xs ++ ys) = scan .plain ys := by
  rw [scan_append, h]
  rfl

/-- A state that collects characters, with its end state, reads back what
`doubled` writes.  Both names of a qualified name are read by it. -/
theorem scan_doubled {s e : List Char → Lexing}
    (hchar : ∀ a c, c ≠ '"' → (s a).next c = (s (a ++ [c]), []))
    (hquote : ∀ a, (s a).next '"' = (e a, []))
    (hsecond : ∀ a, (e a).next '"' = (s (a ++ ['"']), [])) (a name : List Char) :
    scan (s a) (doubled name) = (s (a ++ name), []) := by
  induction name generalizing a with
  | nil => rw [List.append_nil]; rfl
  | cons c name ih =>
      rw [doubled, List.flatMap_cons, scan_append, ← doubled]
      by_cases hc : c = '"'
      · rw [if_pos hc, hc]
        simp only [scan, hquote, hsecond, List.append_nil]
        rw [ih, List.append_assoc]
        rfl
      · rw [if_neg hc]
        simp only [scan, hchar a c hc, List.append_nil]
        rw [ih, List.append_assoc]
        rfl

/-- The lexer reads a quoted name back. -/
theorem scan_name_doubled (a name : List Char) :
    scan (.name a) (doubled name) = (.name (a ++ name), []) := by
  refine scan_doubled (fun a c hc => ?_) (fun a => rfl) (fun a => rfl) a name
  rw [Lexing.next, if_neg hc]

/-- The same after the dot. -/
theorem scan_second_doubled (a b name : List Char) :
    scan (.second a b) (doubled name) = (.second a (b ++ name), []) := by
  refine scan_doubled (fun b c hc => ?_) (fun b => rfl) (fun b => rfl) b name
  rw [Lexing.next, if_neg hc]

/-- A qualified name is found, whatever the two names are.  The character after
it must be no quote, since that would continue the second name. -/
theorem scan_qualified (a b : List Char) {c : Char} (hc : c ≠ '"') (cs : List Char) :
    scan .plain ('"' :: doubled a ++ '"' :: '.' :: '"' :: doubled b ++ '"' :: c :: cs) =
      ((scan .plain (c :: cs)).1,
        (String.ofList a, String.ofList b) :: (scan .plain (c :: cs)).2) := by
  have hdot : ('.' : Char) ≠ '"' := by decide
  simp only [List.cons_append, List.append_assoc, scan, scan_append, scan_name_doubled,
    scan_second_doubled, Lexing.next, Lexing.start, if_true, if_neg hdot, if_neg hc,
    List.nil_append]

/-! ## Names by themselves -/

/-- The name in front of the first unpaired quote, after its opening quote, with
what follows. -/
def readName : List Char → Option (List Char × List Char)
  | [] => none
  | [c] => if c = '"' then some ([], []) else none
  | c :: d :: cs =>
      if c = '"' then
        if d = '"' then (readName cs).map fun p => ('"' :: p.1, p.2) else some ([], d :: cs)
      else (readName (d :: cs)).map fun p => (c :: p.1, p.2)

/-- A text that is a qualified name, both parts of which are quoted, and nothing
else. -/
def qualifiedName? (text : List Char) : Option (List Char × List Char) :=
  match text with
  | '"' :: cs =>
      match readName cs with
      | some (a, '.' :: '"' :: ds) =>
          match readName ds with
          | some (b, []) => some (a, b)
          | _ => none
      | _ => none
  | _ => none

theorem readName_cons {c : Char} (hc : c ≠ '"') (cs : List Char) :
    readName (c :: cs) = (readName cs).map fun p => (c :: p.1, p.2) := by
  cases cs with
  | nil => simp [readName, hc]
  | cons d cs => rw [readName, if_neg hc]

theorem readName_quote {cs : List Char} (h : cs.head? ≠ some '"') :
    readName ('"' :: cs) = some ([], cs) := by
  cases cs with
  | nil => rfl
  | cons d cs =>
      have hd : d ≠ '"' := fun hd => h (by rw [hd]; rfl)
      rw [readName, if_pos rfl, if_neg hd]

/-- **A quoted name is read back**, if no quote follows it. -/
theorem readName_doubled (name : List Char) {cs : List Char} (h : cs.head? ≠ some '"') :
    readName (doubled name ++ '"' :: cs) = some (name, cs) := by
  induction name with
  | nil => exact readName_quote h
  | cons c name ih =>
      rw [doubled, List.flatMap_cons, ← doubled]
      by_cases hc : c = '"'
      · rw [if_pos hc, hc]
        show readName ('"' :: '"' :: (doubled name ++ '"' :: cs)) = _
        rw [readName, if_pos rfl, if_pos rfl, ih]
        rfl
      · rw [if_neg hc]
        show readName (c :: (doubled name ++ '"' :: cs)) = _
        rw [readName_cons hc, ih]
        rfl

/-- What is read as a name is that name, quoted: reading is one to one on names
in this form. -/
theorem eq_of_readName {text name rest : List Char} (h : readName text = some (name, rest)) :
    text = doubled name ++ '"' :: rest := by
  fun_induction readName text generalizing name rest with
  | case1 => cases h
  | case2 => cases h; rfl
  | case3 => cases h
  | case4 cs ih =>
      obtain ⟨p, hp, hpair⟩ := Option.map_eq_some_iff.mp h
      cases hpair
      rw [ih hp]
      rfl
  | case5 d cs hd => cases h; rfl
  | case6 c d cs hc ih =>
      obtain ⟨p, hp, hpair⟩ := Option.map_eq_some_iff.mp h
      cases hpair
      rw [ih hp, doubled, doubled, List.flatMap_cons, if_neg hc]
      rfl

/-- A qualified name is read back. -/
theorem qualifiedName?_doubled (a b : List Char) :
    qualifiedName? ('"' :: doubled a ++ '"' :: '.' :: '"' :: doubled b ++ ['"']) = some (a, b) := by
  have ha : readName (doubled a ++ '"' :: '.' :: '"' :: (doubled b ++ ['"'])) =
      some (a, '.' :: '"' :: (doubled b ++ ['"'])) := readName_doubled a (by simp)
  have hb : readName (doubled b ++ ['"']) = some (b, []) := readName_doubled b (by simp)
  simp only [List.cons_append, List.append_assoc, qualifiedName?, ha, hb]

/-- What is read as a qualified name is that name, quoted. -/
theorem eq_of_qualifiedName? {text a b : List Char} (h : qualifiedName? text = some (a, b)) :
    text = '"' :: doubled a ++ '"' :: '.' :: '"' :: doubled b ++ ['"'] := by
  unfold qualifiedName? at h
  split at h
  · split at h
    · next cs a' ds ha =>
        split at h
        · next b' hb =>
            cases h
            rw [eq_of_readName ha, eq_of_readName hb]
            simp only [List.cons_append, List.append_assoc]
        · cases h
    · cases h
  · cases h

theorem length_le_length_doubled (name : List Char) : name.length ≤ (doubled name).length := by
  induction name with
  | nil => exact Nat.le_refl _
  | cons c name ih =>
      rw [doubled, List.flatMap_cons, ← doubled]
      split_ifs
      · simp only [List.length_append, List.length_cons, List.length_nil]
        omega
      · simp only [List.length_append, List.length_cons, List.length_nil]
        omega

/-- Quoting makes a name longer exactly if it has a quote, so a name that is put
between quotes as it is can be told from a quoted one by its length. -/
theorem length_doubled_eq_iff (name : List Char) :
    (doubled name).length = name.length ↔ '"' ∉ name := by
  induction name with
  | nil => simp [doubled]
  | cons c name ih =>
      have hle := length_le_length_doubled name
      rw [doubled, List.flatMap_cons, ← doubled, List.mem_cons, not_or, ← ih]
      by_cases hc : c = '"'
      · subst hc
        simp only [if_true, List.length_append, List.length_cons, List.length_nil]
        exact ⟨fun h => by omega, fun h => absurd trivial h.1⟩
      · simp only [if_neg hc, List.length_append, List.length_cons, List.length_nil]
        exact ⟨fun h => ⟨Ne.symm hc, by omega⟩, fun h => by omega⟩

theorem doubled_eq_self {name : List Char} (h : '"' ∉ name) : doubled name = name := by
  induction name with
  | nil => rfl
  | cons c name ih =>
      rw [List.mem_cons, not_or] at h
      rw [doubled, List.flatMap_cons, ← doubled, if_neg (Ne.symm h.1), ih h.2]
      rfl

end Pg

/-! ## Placeholders -/

namespace Psycopg

/-- psycopg's reading of a query with parameters: the text sent, where every
placeholder has become a `$` (its number left out), and the number of
placeholders.  It raises on any other `%`.  It does not know of quotes. -/
def placeholders : List Char → Option (List Char × ℕ)
  | [] => some ([], 0)
  | [c] => some ([c], 0)
  | c :: d :: cs =>
      if c = '%' then
        if d = '%' then (placeholders cs).map fun p => ('%' :: p.1, p.2)
        else if d = 's' ∨ d = 'b' ∨ d = 't' then
          (placeholders cs).map fun p => ('$' :: p.1, p.2 + 1)
        else none
      else (placeholders (d :: cs)).map fun p => (c :: p.1, p.2)

/-- The text `curs.execute(query, params)` sends, given the number of parameters
if there are any.  Without parameters psycopg does not look for placeholders at
all. -/
def sent (query : List Char) : Option ℕ → Option (List Char)
  | none => some query
  | some n =>
      (placeholders query).bind fun p => if p.2 = n then some p.1 else none

/-- A name in which every percent sign is doubled, with one of each two; other
names have none. -/
def halved : List Char → Option (List Char)
  | [] => some []
  | [c] => if c = '%' then none else some [c]
  | c :: d :: cs =>
      if c = '%' then if d = '%' then (halved cs).map ('%' :: ·) else none
      else (halved (d :: cs)).map (c :: ·)

theorem placeholders_cons {c : Char} (hc : c ≠ '%') (cs : List Char) :
    placeholders (c :: cs) = (placeholders cs).map fun p => (c :: p.1, p.2) := by
  cases cs with
  | nil => rfl
  | cons d cs => rw [placeholders, if_neg hc]

theorem halved_cons {c : Char} (hc : c ≠ '%') (cs : List Char) :
    halved (c :: cs) = (halved cs).map (c :: ·) := by
  cases cs with
  | nil => simp [halved, hc]
  | cons d cs => rw [halved, if_neg hc]

/-- A text that does not end in a percent sign is read independently of what
follows. -/
theorem placeholders_append {xs : List Char} (h : xs.getLast? ≠ some '%') (ys : List Char) :
    placeholders (xs ++ ys) =
      (placeholders xs).bind fun p => (placeholders ys).map fun q => (p.1 ++ q.1, p.2 + q.2) := by
  have hlast {c d : Char} {cs : List Char} (h : (c :: d :: cs).getLast? ≠ some '%') :
      cs.getLast? ≠ some '%' := fun hcs => h (by simp [List.getLast?_cons, hcs])
  fun_induction placeholders xs with
  | case1 => simp
  | case2 c =>
      have hc : c ≠ '%' := fun hc => h (by rw [hc]; rfl)
      rw [List.singleton_append, placeholders_cons hc]
      simp
  | case3 cs ih =>
      rw [List.cons_append, List.cons_append, placeholders, if_pos rfl, if_pos rfl, ih (hlast h)]
      cases placeholders cs <;> simp [Function.comp_def]
  | case4 d cs hd hs ih =>
      rw [List.cons_append, List.cons_append, placeholders, if_pos rfl, if_neg hd, if_pos hs,
        ih (hlast h)]
      cases placeholders cs <;> simp [Function.comp_def, Nat.add_right_comm]
  | case5 d cs hd hs =>
      rw [List.cons_append, List.cons_append, placeholders, if_pos rfl, if_neg hd, if_neg hs]
      rfl
  | case6 c d cs hc ih =>
      rw [List.cons_append, placeholders_cons hc, ih (by simpa [List.getLast?_cons] using h)]
      cases placeholders (d :: cs) <;> simp [Function.comp_def]

theorem doubled_cons (c : Char) (name : List Char) :
    Pg.doubled (c :: name) = (if c = '"' then ['"', '"'] else [c]) ++ Pg.doubled name := rfl

/-- What is not a percent sign is sent as it is, doubled or not. -/
theorem placeholders_doubled_cons {c : Char} (hc : c ≠ '%') (name ys : List Char) :
    placeholders (Pg.doubled (c :: name) ++ ys) =
      (placeholders (Pg.doubled name ++ ys)).map fun p =>
        ((if c = '"' then ['"', '"'] else [c]) ++ p.1, p.2) := by
  rw [doubled_cons]
  by_cases hquote : c = '"'
  · subst hquote
    simp only [if_true, List.cons_append, List.nil_append, placeholders_cons hc, Option.map_map]
    rfl
  · simp only [if_neg hquote, List.cons_append, List.nil_append, placeholders_cons hc]

/-- A quoted name whose percent signs are doubled is sent with one of each
two. -/
theorem placeholders_doubled {name halves : List Char} (h : halved name = some halves)
    (ys : List Char) :
    placeholders (Pg.doubled name ++ '"' :: ys) =
      (placeholders ys).map fun p => (Pg.doubled halves ++ '"' :: p.1, p.2) := by
  have hquote : ('"' : Char) ≠ '%' := by decide
  fun_induction placeholders name generalizing halves with
  | case1 =>
      obtain rfl : [] = halves := by simpa [halved] using h
      exact placeholders_cons hquote ys
  | case2 c =>
      by_cases hc : c = '%'
      · simp [halved, hc] at h
      · obtain rfl : [c] = halves := by simpa [halved, hc] using h
        rw [placeholders_doubled_cons hc]
        show (placeholders ('"' :: ys)).map _ = _
        rw [placeholders_cons hquote, Option.map_map]
        simp [Function.comp_def, Pg.doubled]
  | case3 cs ih =>
      rw [halved, if_pos rfl, if_pos rfl, Option.map_eq_some_iff] at h
      obtain ⟨halves, h, rfl⟩ := h
      show placeholders ('%' :: '%' :: (Pg.doubled cs ++ '"' :: ys)) = _
      rw [placeholders, if_pos rfl, if_pos rfl, ih h, Option.map_map]
      rfl
  | case4 d cs hd hs ih => simp [halved, hd] at h
  | case5 d cs hd hs => simp [halved, hd] at h
  | case6 c d cs hc ih =>
      rw [halved_cons hc, Option.map_eq_some_iff] at h
      obtain ⟨halves, h, rfl⟩ := h
      rw [placeholders_doubled_cons hc, ih h, Option.map_map]
      simp only [Function.comp_def, doubled_cons, List.append_assoc]

/-- A quoted name with any other percent sign is refused, or read with more
placeholders than there are in the rest of the text.  Either way the statement
cannot be sent with the parameters it has. -/
theorem of_placeholders_doubled {name ys : List Char} {p : List Char × ℕ}
    (h : placeholders (Pg.doubled name ++ '"' :: ys) = some p) :
    ∃ q, placeholders ys = some q ∧ q.2 ≤ p.2 ∧ (halved name = none → q.2 < p.2) := by
  have hquote : ('"' : Char) ≠ '%' := by decide
  fun_induction placeholders name generalizing p with
  | case1 =>
      change placeholders ('"' :: ys) = some p at h
      rw [placeholders_cons hquote, Option.map_eq_some_iff] at h
      obtain ⟨q, hq, rfl⟩ := h
      exact ⟨q, hq, Nat.le_refl _, fun hnone => by simp [halved] at hnone⟩
  | case2 c =>
      by_cases hc : c = '%'
      · subst hc
        change placeholders ('%' :: '"' :: ys) = some p at h
        simp [placeholders] at h
      · rw [placeholders_doubled_cons hc] at h
        change (placeholders ('"' :: ys)).map _ = some p at h
        rw [placeholders_cons hquote, Option.map_map, Option.map_eq_some_iff] at h
        obtain ⟨q, hq, rfl⟩ := h
        exact ⟨q, hq, Nat.le_refl _, fun hnone => by simp [halved, hc] at hnone⟩
  | case3 cs ih =>
      change placeholders ('%' :: '%' :: (Pg.doubled cs ++ '"' :: ys)) = some p at h
      rw [placeholders, if_pos rfl, if_pos rfl, Option.map_eq_some_iff] at h
      obtain ⟨p, hp, rfl⟩ := h
      obtain ⟨q, hq, hle, hlt⟩ := ih hp
      refine ⟨q, hq, hle, fun hnone => hlt ?_⟩
      simpa [halved] using hnone
  | case4 d cs hd hs ih =>
      have hplain : d ≠ '"' := by rintro rfl; revert hs; decide
      rw [doubled_cons, doubled_cons, if_neg (by decide), if_neg hplain] at h
      change placeholders ('%' :: d :: (Pg.doubled cs ++ '"' :: ys)) = some p at h
      rw [placeholders, if_pos rfl, if_neg hd, if_pos hs, Option.map_eq_some_iff] at h
      obtain ⟨p, hp, rfl⟩ := h
      obtain ⟨q, hq, hle, -⟩ := ih hp
      exact ⟨q, hq, Nat.le_succ_of_le hle, fun _ => Nat.lt_succ_of_le hle⟩
  | case5 d cs hd hs =>
      exfalso
      rw [doubled_cons, doubled_cons, if_neg (by decide)] at h
      by_cases hq : d = '"'
      · simp [hq, placeholders] at h
      · simp [hq, placeholders, hd, hs] at h
  | case6 c d cs hc ih =>
      rw [placeholders_doubled_cons hc, Option.map_eq_some_iff] at h
      obtain ⟨p, hp, rfl⟩ := h
      obtain ⟨q, hq, hle, hlt⟩ := ih hp
      refine ⟨q, hq, hle, fun hnone => hlt ?_⟩
      simpa [halved_cons hc] using hnone

/-- A suffix without percent signs is sent as it is. -/
theorem halved_append (xs : List Char) {ys : List Char} (hys : '%' ∉ ys) :
    halved (xs ++ ys) = (halved xs).map (· ++ ys) := by
  have hplain : halved ys = some ys := by
    induction ys with
    | nil => rfl
    | cons c ys ih =>
        rw [List.mem_cons, not_or] at hys
        rw [halved_cons (Ne.symm hys.1), ih hys.2]
        rfl
  fun_induction halved xs with
  | case1 => simpa using hplain
  | case2 =>
      cases ys with
      | nil => rfl
      | cons d ys =>
          rw [List.mem_cons, not_or] at hys
          rw [List.singleton_append, halved, if_pos rfl, if_neg (Ne.symm hys.1)]
          rfl
  | case3 c hc =>
      rw [List.singleton_append, halved_cons hc, hplain]
      rfl
  | case4 cs ih =>
      rw [List.cons_append, List.cons_append, halved, if_pos rfl, if_pos rfl, ih, Option.map_map,
        Option.map_map]
      rfl
  | case5 d cs hd =>
      rw [List.cons_append, List.cons_append, halved, if_pos rfl, if_neg hd]
      rfl
  | case6 c d cs hc ih =>
      rw [List.cons_append, halved_cons hc, ih, Option.map_map, Option.map_map]
      rfl

theorem length_le_of_halved {xs ys : List Char} (h : halved xs = some ys) :
    ys.length ≤ xs.length := by
  fun_induction halved xs generalizing ys with
  | case1 => cases h; exact Nat.le_refl _
  | case2 => cases h
  | case3 => cases h; exact Nat.le_refl _
  | case4 cs ih =>
      obtain ⟨zs, hzs, rfl⟩ := Option.map_eq_some_iff.mp h
      have hle := ih hzs
      simp only [List.length_cons]
      omega
  | case5 => cases h
  | case6 c d cs hc ih =>
      obtain ⟨zs, hzs, rfl⟩ := Option.map_eq_some_iff.mp h
      have hle := ih hzs
      simp only [List.length_cons] at hle ⊢
      omega

/-- A name is passed on as it is exactly if it has no percent sign. -/
theorem halved_eq_self_iff (xs : List Char) : halved xs = some xs ↔ '%' ∉ xs := by
  constructor
  · intro h
    fun_induction halved xs with
    | case1 => exact List.not_mem_nil
    | case2 => cases h
    | case3 c hc => simpa using Ne.symm hc
    | case4 cs ih =>
        obtain ⟨zs, hzs, hcons⟩ := Option.map_eq_some_iff.mp h
        have hle := length_le_of_halved hzs
        have hlength := congrArg List.length hcons
        simp only [List.length_cons] at hlength
        omega
    | case5 => cases h
    | case6 c d cs hc ih =>
        obtain ⟨zs, hzs, hcons⟩ := Option.map_eq_some_iff.mp h
        obtain ⟨-, rfl⟩ := List.cons.inj hcons
        exact List.not_mem_cons_of_ne_of_not_mem (Ne.symm hc) (ih hzs)
  · intro h
    have hplain := halved_append [] h
    simpa [halved] using hplain

end Psycopg

import Rql.Proofs.Predicate.Truth
import Rql.Proofs.Sql.Spelling
import Rql.Proofs.Sql.Steps

/-!
# Parentheses follow the tree

The text of a filter has parentheses for groups, for lists of values and for comparisons that are written
as several. `parenDepth?` goes over the characters of a text, leaves out what stands in quotes, and gives
the greatest number of parentheses that are open at the same time, if all are closed in the end.

`parenDepth?_filterOfStatement` says that this is the depth of the statement, where every comparison
counts with the parentheses that it has of its own (`Comparison.enclosures`). So no pair of parentheses is
missing and none is one too many, whatever characters the names hold.
-/

namespace Rql

/-! ## Depth of trees with deep leaves -/

namespace Predicate

mutual

/-- How deep groups lie inside one another, where `leaf` says how deep a comparison goes. -/
def depthOver (leaf : Comparison → Nat) : Predicate → Nat
  | .compare c => leaf c
  | .group _ members => 1 + depthOverMembers leaf members

/-- The greatest depth of the members. -/
def depthOverMembers (leaf : Comparison → Nat) : List Predicate → Nat
  | [] => 0
  | member :: rest => max (depthOver leaf member) (depthOverMembers leaf rest)

end

variable {leaf : Comparison → Nat}

mutual

theorem depthOver_eq_depth : (p : Predicate) → (∀ c ∈ p.comparisons, leaf c = 0) →
    p.depthOver leaf = p.depth
  | .compare c, h => h c List.mem_cons_self
  | .group _ members, h => by
      rw [depthOver, depth, depthOverMembers_eq_depthOfMembers members h]

/-- Leaves without depth are the leaves of `depth`. -/
theorem depthOverMembers_eq_depthOfMembers : (ps : List Predicate) →
    (∀ c ∈ comparisonsOfMembers ps, leaf c = 0) → depthOverMembers leaf ps = depthOfMembers ps
  | [], _ => rfl
  | p :: ps, h => by
      obtain ⟨hp, hps⟩ := List.forall_mem_append.mp h
      rw [depthOverMembers, depthOfMembers, depthOver_eq_depth p hp,
        depthOverMembers_eq_depthOfMembers ps hps]

end

end Predicate

/-- The depth of a statement, where several predicates form a group of their own and `leaf` says how deep
a comparison goes. -/
def Statement.depthOver (leaf : Comparison → Nat) (s : Statement) : Nat :=
  let inner := Predicate.depthOverMembers leaf s.predicates
  if 1 < s.predicates.length then inner + 1 else inner

theorem Statement.depthOver_eq_depth {leaf : Comparison → Nat} {s : Statement}
    (h : ∀ c ∈ s.comparisons, leaf c = 0) : s.depthOver leaf = s.depth := by
  rw [depthOver, depth, Predicate.depthOverMembers_eq_depthOfMembers s.predicates h]

/-- How many parentheses deep a comparison goes: one pair for a list of values, for a check against the
empty text, and for several patterns. -/
def Comparison.enclosures (c : Comparison) : Nat :=
  match c.op with
  | .isIn | .out | .emp | .nemp => 1
  | .sw | .ew | .w | .wo => if 1 < c.values.length then 1 else 0
  | .eq | .ne | .gt | .ge | .lt | .le | .n | .nn | .search => 0

namespace Sql

/-! ## Counting parentheses -/

/-- What was seen of a text so far. -/
structure Enclosure where
  /-- A quoted identifier has begun and not ended. -/
  quoted : Bool
  /-- How many parentheses are open. -/
  depth : Nat
  /-- How many were open at the same time, at most. -/
  deepest : Nat

/-- One more character. A parenthesis that closes nothing is refused; a quote that is written twice ends
an identifier and begins it again. -/
def Enclosure.step (quote : Char) (e : Enclosure) (c : Char) : Option Enclosure :=
  if c = quote then some { e with quoted := !e.quoted }
  else if e.quoted then some e
  else if c = '(' then
    some { e with depth := e.depth + 1, deepest := max e.deepest (e.depth + 1) }
  else if c = ')' then
    if e.depth = 0 then none else some { e with depth := e.depth - 1 }
  else some e

/-- What is seen of a text from here on. -/
def Enclosure.run (quote : Char) (e : Enclosure) (cs : List Char) : Option Enclosure :=
  cs.foldlM (Enclosure.step quote) e

namespace Enclosure

variable {quote c : Char} {e e' : Enclosure} {cs cs' : List Char}

theorem run_cons (h : e.step quote c = some e') : e.run quote (c :: cs) = e'.run quote cs := by
  rw [run, List.foldlM_cons, h]
  rfl

theorem run_append (h : e.run quote cs = some e') :
    e.run quote (cs ++ cs') = e'.run quote cs' := by
  rw [run] at h
  rw [run, List.foldlM_append, h]
  rfl

end Enclosure

/-- How deep the parentheses outside of quoted identifiers go, if they are balanced. -/
def parenDepth? (d : Dialect) (s : String) : Option Nat :=
  match Enclosure.run d.quote ⟨false, 0, 0⟩ s.toList with
  | some ⟨false, 0, deepest⟩ => some deepest
  | _ => none

/-- Wherever the text stands outside of identifiers, it closes what it opens, opens `n` parentheses at the
same time and no more, and ends outside of identifiers. -/
def Encloses (d : Dialect) (s : String) (n : Nat) : Prop :=
  ∀ depth deepest, depth ≤ deepest →
    Enclosure.run d.quote ⟨false, depth, deepest⟩ s.toList
      = some ⟨false, depth, max deepest (depth + n)⟩

variable {d : Dialect} {s s' : String} {m n : Nat}

theorem Encloses.parenDepth?_eq (h : Encloses d s n) : parenDepth? d s = some n := by
  have hrun := h 0 0 (Nat.le_refl 0)
  rw [Nat.zero_add, Nat.zero_max] at hrun
  simp only [parenDepth?, hrun]

theorem Encloses.append (h : Encloses d s m) (h' : Encloses d s' n) :
    Encloses d (s ++ s') (max m n) := by
  intro depth deepest hle
  -- what was open at most before the second text is what the first one left behind
  have hle' : depth ≤ max deepest (depth + m) := by omega
  have hmax : max (max deepest (depth + m)) (depth + n) = max deepest (depth + max m n) := by omega
  rw [String.toList_append, Enclosure.run_append (h depth deepest hle), ← hmax]
  exact h' depth _ hle'

/-- A pair of parentheses around a text goes one deeper. -/
theorem Encloses.paren (h : Encloses d s n) : Encloses d ("(" ++ s ++ ")") (1 + n) := by
  intro depth deepest hle
  have hopen : Enclosure.step d.quote ⟨false, depth, deepest⟩ '('
      = some ⟨false, depth + 1, max deepest (depth + 1)⟩ := by
    cases d <;> rfl
  have hclose : ∀ deepest, Enclosure.step d.quote ⟨false, depth + 1, deepest⟩ ')'
      = some ⟨false, depth, deepest⟩ := by
    intro deepest
    cases d <;> rfl
  -- inside of the pair everything is one deeper
  have hle' : depth + 1 ≤ max deepest (depth + 1) := by omega
  have hmax : max (max deepest (depth + 1)) (depth + 1 + n) = max deepest (depth + (1 + n)) := by
    omega
  have htoList : ("(" ++ s ++ ")").toList = '(' :: (s.toList ++ [')']) := by
    rw [String.toList_append, String.toList_append]
    rfl
  rw [htoList, Enclosure.run_cons hopen, Enclosure.run_append (h _ _ hle'), hmax]
  exact Enclosure.run_cons (hclose _)

/-- Neither a quote nor a parenthesis. -/
def isPlain (quote c : Char) : Bool :=
  c != quote && c != '(' && c != ')'

theorem step_of_isPlain {quote c : Char} (h : isPlain quote c = true) (e : Enclosure) :
    e.step quote c = some e := by
  simp only [isPlain, Bool.and_eq_true, bne_iff_ne] at h
  obtain ⟨⟨hq, ho⟩, hc⟩ := h
  rw [Enclosure.step, if_neg hq, if_neg ho, if_neg hc]
  split <;> rfl

/-- A text without quotes and parentheses. -/
theorem encloses_plain (h : s.toList.all (isPlain d.quote) = true) : Encloses d s 0 := by
  intro depth deepest hle
  have hrun : ∀ cs : List Char, cs.all (isPlain d.quote) = true →
      Enclosure.run d.quote ⟨false, depth, deepest⟩ cs = some ⟨false, depth, deepest⟩ := by
    intro cs
    induction cs with
    | nil => intro _; rfl
    | cons c cs ih =>
      intro hcs
      rw [List.all_cons, Bool.and_eq_true] at hcs
      rw [Enclosure.run_cons (step_of_isPlain hcs.1 _)]
      exact ih hcs.2
  rw [hrun s.toList h, Nat.add_zero, Nat.max_eq_left hle]

/-- Inside of an identifier no character counts, and its own quotes come in pairs. -/
theorem run_quoted (quote : Char) (depth deepest : Nat) (ident : List Char) :
    Enclosure.run quote ⟨true, depth, deepest⟩
        (ident.flatMap fun c => if c = quote then [c, c] else [c])
      = some ⟨true, depth, deepest⟩ := by
  induction ident with
  | nil => rfl
  | cons c ident ih =>
    have hone : Enclosure.run quote ⟨true, depth, deepest⟩ (if c = quote then [c, c] else [c])
        = some ⟨true, depth, deepest⟩ := by
      by_cases hc : c = quote <;> simp [Enclosure.run, Enclosure.step, hc]
    rw [List.flatMap_cons, Enclosure.run_append hone]
    exact ih

theorem encloses_quoteName (d : Dialect) (ident : String) : Encloses d (d.quoteName ident) 0 := by
  intro depth deepest hle
  have hquote : ∀ quoted, Enclosure.step d.quote ⟨quoted, depth, deepest⟩ d.quote
      = some ⟨!quoted, depth, deepest⟩ := by
    intro quoted
    rw [Enclosure.step, if_pos rfl]
  rw [Dialect.quoteName, String.toList_ofList, Enclosure.run_cons (hquote false), Bool.not_false,
    Enclosure.run_append (run_quoted ..), Nat.add_zero, Nat.max_eq_left hle]
  exact Enclosure.run_cons (hquote true)

theorem encloses_column (d : Dialect) (c : ColumnRef) : Encloses d (c.render d) 0 := by
  have hdot : Encloses d "." 0 := encloses_plain (by cases d <;> rfl)
  exact ((encloses_quoteName d c.table).append hdot).append (encloses_quoteName d c.column)

/-- The greatest of the depths. -/
def greatest (depths : List Nat) : Nat :=
  depths.foldr max 0

/-- Texts that are joined go as deep as the deepest of them. -/
theorem encloses_join {β : Type} {sep : String} (hsep : Encloses d sep 0) (f : β → String)
    (g : β → Nat) : ∀ bs : List β, (∀ b ∈ bs, Encloses d (f b) (g b)) →
      Encloses d (Text.join sep (bs.map f)) (greatest (bs.map g)) := by
  intro bs
  -- the separator stands between two texts, so the step is from one text to the next
  induction bs with
  | nil => intro _; exact encloses_plain rfl
  | cons b bs ih =>
    intro h
    have hb := h b List.mem_cons_self
    cases bs with
    | nil =>
      show Encloses d (f b) (max (g b) 0)
      rw [Nat.max_zero]
      exact hb
    | cons b' bs =>
      have hrest := ih fun c hc => h c (List.mem_cons_of_mem b hc)
      have hjoin := (hb.append hsep).append hrest
      rw [Nat.max_zero] at hjoin
      exact hjoin

/-! ## Texts of conditions -/

namespace Condition

mutual

/-- How deep the parentheses of a condition go. -/
def parens : Condition → Nat
  | .isNull _ | .isNotNull _ | .test .. => 0
  | .isIn .. | .notIn .. => 1
  | .group _ parts => 1 + parensOfParts parts

/-- The greatest depth of the parts. -/
def parensOfParts : List Condition → Nat
  | [] => 0
  | part :: rest => max (parens part) (parensOfParts rest)

end

theorem parensOfParts_eq_greatest (parts : List Condition) :
    parensOfParts parts = greatest (parts.map parens) := by
  induction parts with
  | nil => rfl
  | cons part rest ih => rw [parensOfParts, ih]; rfl

/-- However many values there are, their placeholders stand in one pair of parentheses. -/
theorem encloses_placeholders (d : Dialect) (values : List Json) :
    Encloses d (placeholders values) 1 := by
  have hcomma : Encloses d ", " 0 := encloses_plain (by cases d <;> rfl)
  have hmark : Encloses d "?" 0 := encloses_plain (by cases d <;> rfl)
  have hzero : greatest (values.map fun _ => 0) = 0 := by
    induction values with
    | nil => rfl
    | cons value rest ih => exact (Nat.zero_max _).trans ih
  have hjoin := encloses_join hcomma (fun _ : Json => "?") (fun _ => 0) values fun _ _ => hmark
  rw [hzero] at hjoin
  exact hjoin.paren

theorem encloses_among {word : String} (hword : Encloses d word 0) (c : ColumnRef)
    (values : List Json) : Encloses d (c.render d ++ word ++ placeholders values) 1 :=
  ((encloses_column d c).append hword).append (encloses_placeholders d values)

mutual

/-- **The parentheses of the text are those of the condition.** -/
theorem encloses_render (d : Dialect) : (c : Condition) → Encloses d (c.render d) c.parens
  | .isNull c | .isNotNull c => (encloses_column d c).append (encloses_plain (by cases d <;> rfl))
  | .test c relation _ => by
      have hblank : Encloses d " " 0 := encloses_plain (by cases d <;> rfl)
      have hsymbol : Encloses d relation.symbol 0 :=
        encloses_plain (by cases relation <;> cases d <;> rfl)
      have hmark : Encloses d " ?" 0 := encloses_plain (by cases d <;> rfl)
      exact (((encloses_column d c).append hblank).append hsymbol).append hmark
  | .isIn c values | .notIn c values =>
      encloses_among (encloses_plain (by cases d <;> rfl)) c values
  | .group conjunction parts => by
      have hkeyword : Encloses d conjunction.keyword 0 :=
        encloses_plain (by cases conjunction <;> cases d <;> rfl)
      have hjoin := encloses_join hkeyword (render d) parens parts (encloses_render_of_mem d parts)
      rw [render, renderParts_eq_join, parens, parensOfParts_eq_greatest]
      exact hjoin.paren

theorem encloses_render_of_mem (d : Dialect) : (parts : List Condition) →
    ∀ part ∈ parts, Encloses d (part.render d) part.parens
  | [], _, h => absurd h List.not_mem_nil
  | part :: rest, part', h => by
      rcases List.mem_cons.mp h with heq | hmem
      · rw [heq]; exact encloses_render d part
      · exact encloses_render_of_mem d rest part' hmem

end

/-! ## Conditions of comparisons -/

variable {glyph : Char} {t : Table}

theorem parensOfParts_patterns (col : ColumnRef) (relation : Relation) (before after : String)
    (values : List Literal) : parensOfParts (patterns col relation before after values) = 0 := by
  induction values with
  | nil => rfl
  | cons l rest ih =>
    show max 0 (parensOfParts (patterns col relation before after rest)) = 0
    rw [ih, Nat.max_self]

/-- Several patterns are a group, a single one stands alone. -/
theorem parens_patterns (conjunction : Conjunction) (col : ColumnRef) (relation : Relation)
    (before after : String) {values : List Literal} (hne : values ≠ []) :
    (combine conjunction (patterns col relation before after values)).parens
      = if 1 < values.length then 1 else 0 := by
  have hflat := parensOfParts_patterns col relation before after values
  match values with
  | [] => exact absurd rfl hne
  | [l] => rfl
  | l :: l' :: rest =>
    have hmany : 1 < (l :: l' :: rest).length := Nat.succ_lt_succ (Nat.succ_pos _)
    rw [if_pos hmany]
    show 1 + parensOfParts (patterns col relation before after (l :: l' :: rest)) = 1
    rw [hflat]

theorem parens_equality (glyph : Char) (col : ColumnRef) (equal : Bool) (l : Literal) :
    (equality glyph col equal l).parens = 0 := by
  rcases equality_cases glyph col equal l with h | h | ⟨relation, value, h⟩ <;> rw [h] <;> rfl

theorem parens_ofColumn {col : ColumnRef} {c : Comparison} {cond : Condition}
    (ha : c.hasArity = true) (h : ofColumn glyph col c = .ok cond) :
    cond.parens = c.enclosures := by
  obtain ⟨op, field, values⟩ := c
  cases op with
  | eq | ne =>
    obtain ⟨l, -, rfl⟩ := map_ok h
    exact parens_equality glyph col _ l
  | gt | ge | lt | le =>
    obtain ⟨l, -, rfl⟩ := map_ok h
    rfl
  | sw | ew | w | wo =>
    -- without values there would be an empty group, but the arity asks for one at least
    cases h
    exact parens_patterns _ col _ _ _ (ne_nil_of_hasArity ha rfl)
  | isIn | out | n | nn | emp | nemp =>
    cases h
    rfl
  | search => exact absurd h (by simp [ofColumn])

mutual

/-- **A condition goes as deep as its predicate.** -/
theorem parens_ofPredicate : (p : Predicate) → {cond : Condition} →
    (∀ c ∈ p.comparisons, c.hasArity = true) → ofPredicate glyph t p = .ok cond →
      cond.parens = p.depthOver Comparison.enclosures
  | .compare c, _, ha, h => by
      obtain ⟨col, -, hcond⟩ := ofComparison_ok h
      exact parens_ofColumn (ha c List.mem_cons_self) hcond
  | .group _ members, _, ha, h => by
      obtain ⟨parts, hparts, rfl⟩ := (compiles glyph t).group_ok h
      rw [parens, Predicate.depthOver, (parens_ofPredicates members ha hparts).2]

theorem parens_ofPredicates : (ps : List Predicate) → {parts : List Condition} →
    (∀ c ∈ Predicate.comparisonsOfMembers ps, c.hasArity = true) →
    ofPredicates glyph t ps = .ok parts →
      parts.length = ps.length
        ∧ parensOfParts parts = Predicate.depthOverMembers Comparison.enclosures ps
  | [], _, _, h => by
      cases h
      exact ⟨rfl, rfl⟩
  | p :: ps, _, ha, h => by
      obtain ⟨part, rest, hpart, hrest, rfl⟩ := (compiles glyph t).cons_ok h
      obtain ⟨hp, hps⟩ := List.forall_mem_append.mp ha
      obtain ⟨hlength, hparens⟩ := parens_ofPredicates ps hps hrest
      refine ⟨congrArg Nat.succ hlength, ?_⟩
      rw [parensOfParts, Predicate.depthOverMembers, parens_ofPredicate p hp hpart, hparens]

end

theorem parens_combine (conjunction : Conjunction) {parts : List Condition} (hne : parts ≠ []) :
    (combine conjunction parts).parens
      = if 1 < parts.length then parensOfParts parts + 1 else parensOfParts parts := by
  match parts with
  | [] => exact absurd rfl hne
  | [part] => exact (Nat.max_zero _).symm
  | part :: part' :: rest =>
    have hmany : 1 < (part :: part' :: rest).length := Nat.succ_lt_succ (Nat.succ_pos _)
    rw [if_pos hmany]
    exact Nat.add_comm 1 _

end Condition

/-- **Parentheses follow the tree.** Outside of quoted identifiers the parentheses of a filter are
balanced, and they go as deep as the statement does, where a comparison counts with the parentheses that
it has of its own. If none has any, this is the depth of the statement. -/
theorem parenDepth?_filterOfStatement {glyph : Char} {t : Table} {s : Statement} {q : Query}
    (ha : s.hasArities = true) (h : Query.filterOfStatement d glyph t s = .ok q) :
    parenDepth? d q.sql = some (s.depthOver Comparison.enclosures)
      ∧ ((∀ c ∈ s.comparisons, c.enclosures = 0) → parenDepth? d q.sql = some s.depth) := by
  have hdepth : parenDepth? d q.sql = some (s.depthOver Comparison.enclosures) := by
    obtain ⟨filter, hfilter, rfl⟩ := map_ok h
    obtain ⟨parts, hparts, hcases⟩ := Condition.ofStatement_ok hfilter
    obtain ⟨hlength, hparens⟩ :=
      Condition.parens_ofPredicates s.predicates (List.all_eq_true.mp ha) hparts
    rcases hcases with ⟨hnil, rfl⟩ | ⟨hne, rfl⟩
    · -- no predicates, no text
      rw [Statement.depthOver, hnil]
      rfl
    · have hcombine := Condition.parens_combine s.conjunction
        (Condition.ofPredicates_ne_nil hparts hne)
      rw [hlength, hparens] at hcombine
      have htext := Condition.encloses_render d (.combine s.conjunction parts)
      rw [hcombine] at htext
      exact htext.parenDepth?_eq
  exact ⟨hdepth, fun hflat => by rw [hdepth, Statement.depthOver_eq_depth hflat]⟩

/-- A table with parentheses in its names, and quotes between them. -/
def bracketed : Table where
  name := "((\""
  backend := .sql .postgres
  columns := [{ name := "a)" }, { name := ")\"(" }]

/-- A list of values two groups deep, behind a comparison that is no deeper than its group. -/
def deepList : Statement where
  table := "(("
  predicates := [
    .compare ⟨.sw, "a)", [.bare "("]⟩,
    .group .or [
      .compare ⟨.gt, "A)", [.bare "1"]⟩,
      .group .and [.compare ⟨.isIn, ")\"(", [.bare "1", .bare "2"]⟩]]]

/-- The same groups without a list. -/
def deepGroups : Statement where
  table := "(("
  predicates := [
    .compare ⟨.sw, "a)", [.bare "("]⟩,
    .group .or [.group .and [.compare ⟨.gt, ")\"(", [.bare "1"]⟩]]]

/-- Parentheses in names do not count, those of the list do. -/
theorem parenDepth?_deepList :
    (deepList.hasArities = true
      ∧ ∃ q, Query.filterOfStatement .postgres '*' bracketed deepList = .ok q
        ∧ deepList.depth = 3 ∧ parenDepth? .postgres q.sql = some 4)
    ∧ deepGroups.hasArities = true
      ∧ ∃ q, Query.filterOfStatement .postgres '*' bracketed deepGroups = .ok q
        ∧ (∀ c ∈ deepGroups.comparisons, c.enclosures = 0)
        ∧ parenDepth? .postgres q.sql = some deepGroups.depth := by
  have hlist : (Query.filterOfStatement .postgres '*' bracketed deepList).toOption.isSome = true := by
    decide +kernel
  have hgroups : (Query.filterOfStatement .postgres '*' bracketed deepGroups).toOption.isSome
      = true := by
    decide +kernel
  obtain ⟨q, hq⟩ := Option.isSome_iff_exists.mp hlist
  obtain ⟨q', hq'⟩ := Option.isSome_iff_exists.mp hgroups
  have hquery := ok_of_toOption hq
  have hquery' := ok_of_toOption hq'
  have hflat : ∀ c ∈ deepGroups.comparisons, c.enclosures = 0 := by decide
  exact ⟨⟨rfl, q, hquery, rfl, (parenDepth?_filterOfStatement rfl hquery).1⟩, rfl, q', hquery', hflat,
    (parenDepth?_filterOfStatement rfl hquery').2 hflat⟩

end Sql

end Rql

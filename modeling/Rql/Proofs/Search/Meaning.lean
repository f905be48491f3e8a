import Rql.Proofs.Predicate.Truth
import Rql.Proofs.Search.Folding

/-!
# What search queries say

A search engine reads a `bool` query as a condition: what must match and what filters does match, what
must not match does not, and one of what should match does, if anything should. A nested query is read
here as the query inside of it, as if there were one object at each path. The assignment
`v : Query → Bool` says which of the leaves match some document; it is asked of leaves only.

`meaning` is what a comparison asks, in terms of leaves alone. The main result is `holds_ofStatement`: a
statement has a query, and under every assignment this says what the statement says. On the way
negations move between clauses and lists of clauses (`holds_combine`), and members move to the place of
the first one at their path (`holds_clausesBelow`).
-/

namespace Rql.Search

namespace Query

mutual

/-- The query matches where `v` says which leaves do. -/
def holds (v : Query → Bool) : Query → Bool
  | .bool must filter mustNot should =>
    (truths v must).all id && (truths v filter).all id && !(truths v mustNot).any id
      && (should.isEmpty || (truths v should).any id)
  | .nested _ query => holds v query
  | leaf => v leaf

/-- Which of the queries match. -/
def truths (v : Query → Bool) : List Query → List Bool
  | [] => []
  | q :: rest => holds v q :: truths v rest

end

theorem truths_eq_map (v : Query → Bool) (qs : List Query) : truths v qs = qs.map (holds v) := by
  induction qs with
  | nil => rfl
  | cons q qs ih => rw [truths, ih, List.map_cons]

@[simp] theorem holds_must (v : Query → Bool) (qs : List Query) :
    (must qs).holds v = qs.all (holds v) := by
  simp [must, holds, truths_eq_map, truths]

@[simp] theorem holds_mustNot (v : Query → Bool) (qs : List Query) :
    (mustNot qs).holds v = !qs.any (holds v) := by
  simp [mustNot, holds, truths_eq_map, truths]

theorem holds_should (v : Query → Bool) {qs : List Query} (hne : qs ≠ []) :
    (should qs).holds v = qs.any (holds v) := by
  simp [should, holds, truths_eq_map, truths, hne]

end Query

/-- What a comparison asks of documents, where `v` says which leaves match. -/
def meaning (glyph : Char) (v : Query → Bool) (c : Comparison) : Bool :=
  let present := v (.present c.field)
  let empty := v (.term c.field "")
  let like (pattern : String) := v (.wildcard c.field pattern)
  let equal (l : Literal) :=
    if l.hasWildcard glyph then like (Text.replaceChar glyph '*' l.text) else v (.term c.field l.text)
  match c.op, c.values with
  | .eq, [l] => if l.isNull then !present else equal l
  | .ne, [l] => if l.isNull then present else !equal l
  | .gt, [l] => v (.range c.field .gt l.text)
  | .ge, [l] => v (.range c.field .gte l.text)
  | .lt, [l] => v (.range c.field .lt l.text)
  | .le, [l] => v (.range c.field .lte l.text)
  | .sw, ls => ls.any fun l => like (l.text ++ "*")
  | .ew, ls => ls.any fun l => like ("*" ++ l.text)
  | .w, ls => ls.any fun l => like ("*" ++ l.text ++ "*")
  | .wo, ls => ls.all fun l => !like ("*" ++ l.text ++ "*")
  | .isIn, ls => v (.terms c.field (ls.map Literal.text))
  | .out, ls => !v (.terms c.field (ls.map Literal.text))
  | .n, _ => !present
  | .nn, _ => present
  | .emp, _ => empty || !present
  | .nemp, _ => !empty && present
  | .search, [l] => v (.fuzzy c.field l.text)
  | _, _ => false

/-! ## Clauses -/

/-- The clause matches where `v` says which leaves do. -/
def Clause.holds (v : Query → Bool) : Clause → Bool
  | .positive q => q.holds v
  | .negative q => !q.holds v

variable {v : Query → Bool} {conjunction : Conjunction}

theorem Clause.holds_toQuery (clause : Clause) : clause.toQuery.holds v = clause.holds v := by
  cases clause with
  | positive q => rfl
  | negative q => rw [toQuery, Query.holds_mustNot, List.any_cons, List.any_nil, Bool.or_false, holds]

/-- Positive clauses that filter and negative ones that must not match say what all of them say. -/
theorem holds_combine_and (clauses : List Clause) :
    (combine .and clauses).holds v = clauses.all (Clause.holds v) := by
  rw [combine, Query.holds]
  simp only [Query.truths_eq_map, Query.truths, List.all_nil, List.isEmpty_nil, Bool.true_or,
    Bool.and_true, Bool.true_and]
  induction clauses with
  | nil => rfl
  | cons clause rest ih =>
    rw [List.all_cons, ← ih]
    cases clause <;>
      simp [Clause.positive?, Clause.negative?, Clause.holds, Bool.and_assoc, Bool.and_left_comm]

/-- **Clauses as one query say what the clauses say together.** -/
theorem holds_combine {clauses : List Clause} (hne : clauses ≠ []) :
    (combine conjunction clauses).holds v
      = conjunction.combine (clauses.map (Clause.holds v)) := by
  cases conjunction with
  | and =>
    rw [holds_combine_and, Conjunction.combine, List.all_map]
    rfl
  | or =>
    rw [combine, Query.holds_should v (by simpa using hne), List.any_map, Conjunction.combine,
      List.any_map]
    exact congrArg clauses.any (funext fun clause => clause.holds_toQuery)

theorem holds_combineOrAlone {clauses : List Clause} (alone : Bool) (hne : clauses ≠ []) :
    (combineOrAlone conjunction alone clauses).holds v
      = conjunction.combine (clauses.map (Clause.holds v)) := by
  match clauses with
  | [clause] =>
    rw [combineOrAlone]
    cases alone with
    | true =>
      rw [if_pos rfl, Clause.holds_toQuery, List.map_singleton, Conjunction.combine_singleton]
    | false =>
      rw [if_neg Bool.false_ne_true, holds_combine hne]
  | _ :: _ :: _ => exact holds_combine hne

/-! ## Members -/

/-- The member matches where `v` says which leaves do. -/
def Member.holds (v : Query → Bool) (m : Member) : Bool :=
  m.clause.toOption.any (Clause.holds v)

theorem Member.holds_of_clause {m : Member} {clause : Clause} (h : m.clause = .ok clause) :
    m.holds v = clause.holds v := by
  rw [Member.holds, h]
  rfl

/-- **Folding members keeps what they say together**, down all paths. -/
theorem holds_clausesBelow {parent : List Char} {members : List Member} {clauses : List Clause}
    (h : clausesBelow conjunction parent members = .ok clauses) :
    conjunction.combine (clauses.map (Clause.holds v))
      = conjunction.combine (members.map (Member.holds v)) := by
  induction parent, members using below_induction generalizing clauses with
  | step parent members ih =>
    -- the clause of a slot says what the members of the slot say
    have hslots : List.Forall₂
        (fun slot clause =>
          clause.holds v = conjunction.combine (slot.members.map (Member.holds v)))
        (slots parent members) clauses := by
      rw [clausesBelow_eq_mapM] at h
      refine forall₂_of_mapM h fun slot hslot clause hclause => ?_
      cases slot with
      | single m =>
        rw [Slot.members, List.map_singleton, Conjunction.combine_singleton]
        exact (Member.holds_of_clause hclause).symm
      | nested path group =>
        obtain ⟨inner, hinner, rfl⟩ := map_ok hclause
        rw [Clause.holds, Query.holds,
          holds_combineOrAlone _ (clauses_ne_nil hinner (fits_of_mem_slots hslot).1)]
        exact ih path group hslot hinner
    have hmap : clauses.map (Clause.holds v) = (slots parent members).map fun slot =>
        conjunction.combine (slot.members.map (Member.holds v)) := by
      rw [← List.forall₂_eq_eq_eq, List.forall₂_map_left_iff, List.forall₂_map_right_iff]
      exact hslots.flip
    rw [hmap, ← Conjunction.combine_flatMap, ← List.map_flatMap]
    exact Conjunction.combine_of_perm ((perm_flatMap_members parent members).map _) conjunction

/-! ## Predicates -/

variable {glyph : Char}

/-- **The clause of a comparison says what the comparison asks.** -/
theorem exists_leaf {c : Comparison} (ha : c.hasArity = true) :
    ∃ clause, leaf glyph c = .ok clause ∧ ∀ v, clause.holds v = meaning glyph v c := by
  obtain ⟨op, field, values⟩ := c
  cases op with
  | eq | ne =>
    obtain ⟨l, rfl⟩ := eq_singleton_of_hasArity ha rfl
    refine ⟨_, rfl, fun v => ?_⟩
    by_cases hn : l.isNull = true <;> by_cases hg : l.hasWildcard glyph = true <;>
      simp [inequality, equality, hn, hg, Clause.holds, meaning, Query.holds]
  | gt | ge | lt | le | search =>
    obtain ⟨l, rfl⟩ := eq_singleton_of_hasArity ha rfl
    exact ⟨_, rfl, fun v => rfl⟩
  | sw | ew | w =>
    have hne := ne_nil_of_hasArity ha rfl
    refine ⟨_, rfl, fun v => ?_⟩
    rw [Clause.holds, Query.holds_should v (by simpa [patterns] using hne)]
    simp [patterns, meaning, Query.holds, Function.comp_def]
  | wo =>
    refine ⟨_, rfl, fun v => ?_⟩
    simp [Clause.holds, patterns, meaning, Query.holds, Function.comp_def, List.not_any_eq_all_not]
  | isIn | out | n => exact ⟨_, rfl, fun v => rfl⟩
  | nn | nemp =>
    refine ⟨_, rfl, fun v => ?_⟩
    simp [Clause.holds, meaning, Query.holds]
  | emp =>
    refine ⟨_, rfl, fun v => ?_⟩
    rw [Clause.holds, Query.holds_should v (List.cons_ne_nil _ _)]
    simp [meaning, Query.holds]

/-- The member has a clause, and this says what the predicate says. -/
def Member.Says (glyph : Char) (m : Member) (p : Predicate) : Prop :=
  ∃ clause, m.clause = .ok clause ∧ ∀ v, clause.holds v = p.holds (meaning glyph v)

/-- Members that say what their predicates say do so together. -/
theorem exists_clausesBelow_holds {ps : List Predicate} (hne : ps ≠ [])
    (h : ∀ p ∈ ps, (memberOf glyph p).Says glyph p) (conjunction : Conjunction) :
    ∃ clauses, clausesBelow conjunction [] (membersOf glyph ps) = .ok clauses ∧ clauses ≠ []
      ∧ ∀ v, conjunction.combine (clauses.map (Clause.holds v))
        = conjunction.combine (Predicate.truths (meaning glyph v) ps) := by
  rw [membersOf_eq_map]
  have hclause : ∀ m ∈ ps.map (memberOf glyph), ∃ clause, m.clause = .ok clause :=
    List.forall_mem_map.mpr fun p hp => (h p hp).imp fun _ => And.left
  obtain ⟨clauses, hclauses⟩ := exists_clausesBelow hclause
  refine ⟨clauses, hclauses, clauses_ne_nil hclauses (by simpa using hne), fun v => ?_⟩
  rw [holds_clausesBelow hclauses, Predicate.truths_eq_map, List.map_map]
  apply congrArg conjunction.combine
  apply List.map_congr_left
  intro p hp
  obtain ⟨clause, hclause, hholds⟩ := h p hp
  exact (Member.holds_of_clause hclause).trans (hholds v)

mutual

/-- **A predicate among others says what it says.** -/
theorem says_memberOf : (p : Predicate) → p.wellFormed = true → (memberOf glyph p).Says glyph p
  | .compare c, hw => exists_leaf hw
  | .group conjunction ps, hw => by
      obtain ⟨hne, hps⟩ := Predicate.wellFormed_group.mp hw
      obtain ⟨clauses, hclauses, hcne, hholds⟩ :=
        exists_clausesBelow_holds hne (says_memberOf_of_mem ps hps) conjunction
      refine ⟨.positive (combine conjunction clauses), ?_, fun v => ?_⟩
      · rw [memberOf, hclauses]
        rfl
      · rw [Clause.holds, holds_combine hcne, hholds, Predicate.holds]

theorem says_memberOf_of_mem : (ps : List Predicate) → Predicate.wellFormedMembers ps = true →
    ∀ p ∈ ps, (memberOf glyph p).Says glyph p
  | [], _, _, hp => absurd hp List.not_mem_nil
  | q :: ps, hw, p, hp => by
      obtain ⟨hq, hps⟩ := Predicate.wellFormedMembers_cons.mp hw
      rcases List.mem_cons.mp hp with heq | hp
      · rw [heq]; exact says_memberOf q hq
      · exact says_memberOf_of_mem ps hps p hp

end

/-- **Every statement has a query, and it says what the statement says**, whichever leaves match. -/
theorem holds_ofStatement {s : Statement} (hne : s.predicates ≠ []) (hw : s.wellFormed = true) :
    ∃ q, Query.ofStatement glyph s = .ok q ∧ ∀ v, q.holds v = s.holds (meaning glyph v) := by
  obtain ⟨clauses, hclauses, hcne, hholds⟩ :=
    exists_clausesBelow_holds hne (says_memberOf_of_mem s.predicates hw) s.conjunction
  refine ⟨combineOrAlone s.conjunction (s.predicates.length == 1) clauses, ?_, fun v => ?_⟩
  · rw [ofStatement_eq_queryOf, queryOf, hclauses]
    rfl
  · rw [holds_combineOrAlone _ hcne, hholds, Statement.holds,
      Predicate.holdTogether_of_ne_nil _ _ hne]

/-- Two comparisons in the same objects with one between them, some of them negative. -/
def scattered : Statement where
  table := "teams"
  conjunction := .or
  predicates := [
    .group .and [
      .compare ⟨.ne, "players.rank", [.bare "1"]⟩,
      .compare ⟨.wo, "city", [.bare "x", .bare "y"]⟩,
      .compare ⟨.eq, "players.name", [.bare "null"]⟩],
    .compare ⟨.out, "players.club.name", [.bare "a", .bare "b"]⟩]

/-- Nothing is present, and only patterns match. -/
theorem holds_scattered :
    ∃ q, scattered.predicates ≠ [] ∧ scattered.wellFormed = true
      ∧ Query.ofStatement '*' scattered = .ok q
      ∧ q.holds (fun | .wildcard .. => true | .terms .. => true | _ => false) = false := by
  have hw : scattered.wellFormed = true := rfl
  obtain ⟨q, hq, hholds⟩ := holds_ofStatement (List.cons_ne_nil _ _) hw
  refine ⟨q, List.cons_ne_nil _ _, hw, hq, ?_⟩
  rw [hholds]
  decide +kernel

end Rql.Search

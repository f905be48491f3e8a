import Rql.Proofs.Search.Slots

/-!
# Nested queries side by side

Comparisons in the same objects have to be asked together: two nested queries at one path, side by side
in a `bool` query, would be met by different objects. `PathsApart` says that a query has no such pair,
in none of its `bool` queries and over all four lists of clauses.

It follows from the folding, one path to a slot (`nodup_paths`): the clauses of members are at the paths
of their slots (`pathsApart_clausesBelow`), and no clause is at a path before it is put among others
(`plain_memberOf`).
-/

namespace Rql.Search

variable {parent : List Char} {members : List Member}

/-! ## Nested queries side by side -/

namespace Query

/-- The path of a nested query. -/
def path? : Query → Option String
  | .nested path _ => some path
  | _ => none

mutual

/-- The clauses of the bool queries in a query, of all four lists together. -/
def bools : Query → List (List Query)
  | .bool must filter mustNot should =>
    (must ++ filter ++ mustNot ++ should)
      :: (boolsOf must ++ boolsOf filter ++ boolsOf mustNot ++ boolsOf should)
  | .nested _ query => bools query
  | _ => []

/-- The clauses of the bool queries in all of the queries. -/
def boolsOf : List Query → List (List Query)
  | [] => []
  | q :: rest => bools q ++ boolsOf rest

end

theorem boolsOf_eq_flatMap (qs : List Query) : boolsOf qs = qs.flatMap bools := by
  induction qs with
  | nil => rfl
  | cons q qs ih => rw [boolsOf, ih, List.flatMap_cons]

/-- No two nested queries that stand side by side ask at one path. -/
def PathsApart (q : Query) : Prop :=
  ∀ clauses ∈ q.bools, (clauses.filterMap path?).Nodup

instance (q : Query) : Decidable q.PathsApart :=
  inferInstanceAs (Decidable (∀ clauses ∈ q.bools, (clauses.filterMap path?).Nodup))

theorem pathsApart_bool_iff {must filter mustNot should : List Query} :
    (bool must filter mustNot should).PathsApart ↔
      ((must ++ filter ++ mustNot ++ should).filterMap path?).Nodup
        ∧ ∀ q ∈ must ++ filter ++ mustNot ++ should, q.PathsApart := by
  rw [PathsApart, bools, List.forall_mem_cons]
  refine and_congr_right' ?_
  simp only [boolsOf_eq_flatMap, ← List.flatMap_append, List.mem_flatMap]
  exact ⟨fun h q hq clauses hc => h clauses ⟨q, hq, hc⟩,
    fun h clauses ⟨q, hq, hc⟩ => h q hq clauses hc⟩

/-- A query that is not nested, and in which nested queries side by side are at different paths. -/
def Plain (q : Query) : Prop :=
  q.path? = none ∧ q.PathsApart

theorem plain_bool {must filter mustNot should : List Query}
    (h : ∀ q ∈ must ++ filter ++ mustNot ++ should, q.Plain) :
    (bool must filter mustNot should).Plain := by
  have hnone : (must ++ filter ++ mustNot ++ should).filterMap path? = [] :=
    List.filterMap_eq_nil_iff.mpr fun q hq => (h q hq).1
  exact ⟨rfl, pathsApart_bool_iff.mpr
    ⟨hnone ▸ List.nodup_nil, fun q hq => (h q hq).2⟩⟩

theorem AsksOf.plain {field : String} {q : Query} (h : q.AsksOf field) : q.Plain := by
  induction h with
  | @leaf q h =>
    cases q with
    | bool | nested => exact nomatch h
    | _ => exact ⟨rfl, fun clauses hc => absurd hc List.not_mem_nil⟩
  | bool _ ih => exact plain_bool ih

end Query

variable {glyph : Char} {conjunction : Conjunction} {clauses : List Clause}

/-- As a query of its own a negative clause is not nested. -/
theorem filterMap_path?_toQuery (clauses : List Clause) :
    (clauses.map Clause.toQuery).filterMap Query.path?
      = (clauses.filterMap Clause.positive?).filterMap Query.path? := by
  rw [List.filterMap_map, List.filterMap_filterMap]
  refine List.filterMap_congr fun clause _ => ?_
  cases clause <;> rfl

theorem Clause.pathsApart_toQuery {clause : Clause} (h : clause.query.PathsApart) :
    clause.toQuery.PathsApart := by
  cases clause with
  | positive q => exact h
  | negative q =>
    refine Query.pathsApart_bool_iff.mpr ⟨?_, ?_⟩
    · rw [List.append_nil, List.nil_append, List.nil_append, List.filterMap_cons]
      cases q.path? <;> simp
    · rw [List.append_nil, List.nil_append, List.nil_append]
      exact List.forall_mem_singleton.mpr h

/-- **Clauses at different paths are put together into one query** in which nested queries side by side
are at different paths. -/
theorem pathsApart_combine (hnodup : (clauses.filterMap (·.query.path?)).Nodup)
    (h : ∀ clause ∈ clauses, clause.query.PathsApart) : (combine conjunction clauses).PathsApart := by
  have hperm := perm_queries clauses
  have hboth : ((clauses.filterMap Clause.positive? ++ clauses.filterMap Clause.negative?).filterMap
      Query.path?).Nodup := by
    rw [(hperm.filterMap _).nodup_iff, List.filterMap_map]
    exact hnodup
  cases conjunction with
  | and =>
    refine Query.pathsApart_bool_iff.mpr ?_
    rw [List.append_nil, List.nil_append]
    refine ⟨hboth, fun q hq => ?_⟩
    obtain ⟨clause, hclause, rfl⟩ := List.mem_map.mp (hperm.mem_iff.mp hq)
    exact h clause hclause
  | or =>
    refine Query.pathsApart_bool_iff.mpr ?_
    rw [List.nil_append, List.nil_append, List.nil_append, filterMap_path?_toQuery]
    rw [List.filterMap_append] at hboth
    exact ⟨hboth.of_append_left, List.forall_mem_map.mpr fun clause hclause =>
      Clause.pathsApart_toQuery (h clause hclause)⟩

theorem pathsApart_combineOrAlone (alone : Bool)
    (hnodup : (clauses.filterMap (·.query.path?)).Nodup)
    (h : ∀ clause ∈ clauses, clause.query.PathsApart) :
    (combineOrAlone conjunction alone clauses).PathsApart := by
  match clauses with
  | [] => exact pathsApart_combine hnodup h
  | [clause] =>
    rw [combineOrAlone]
    split
    · exact Clause.pathsApart_toQuery (h clause List.mem_cons_self)
    · exact pathsApart_combine hnodup h
  | _ :: _ :: _ => exact pathsApart_combine hnodup h

/-- **The clauses of members are at different paths**, where no member is a nested query itself. -/
theorem pathsApart_clausesBelow (h : clausesBelow conjunction parent members = .ok clauses)
    (hplain : ∀ m ∈ members, ∀ clause, m.clause = .ok clause → clause.query.Plain) :
    (clauses.filterMap (·.query.path?)).Nodup
      ∧ ∀ clause ∈ clauses, clause.query.PathsApart := by
  induction parent, members using below_induction generalizing clauses with
  | step parent members ih =>
    rw [clausesBelow_eq_mapM] at h
    -- the clause of a slot is at the path of the slot
    have hslot : ∀ slot ∈ slots parent members, ∀ clause, slotClause conjunction slot = .ok clause →
        clause.query.path? = slot.path?.map String.ofList ∧ clause.query.PathsApart := by
      intro slot hslot clause hclause
      cases slot with
      | single m =>
        exact hplain m (mem_of_mem_slot hslot (List.mem_singleton.mpr rfl)) clause hclause
      | nested path group =>
        obtain ⟨inner, hinner, rfl⟩ := map_ok hclause
        obtain ⟨hnodup, happart⟩ := ih path group hslot hinner fun m hm =>
          hplain m (mem_of_mem_slot hslot hm)
        exact ⟨rfl, pathsApart_combineOrAlone _ hnodup happart⟩
    constructor
    · rw [filterMap_of_mapM (fun slot hmem clause hclause => (hslot slot hmem clause hclause).1) h,
        ← List.map_filterMap]
      exact (nodup_paths parent members).map fun _ _ => String.ofList_inj.mp
    · intro clause hclause
      obtain ⟨slot, hmem, hok⟩ := exists_of_mem_mapM h hclause
      exact (hslot slot hmem clause hok).2

mutual

/-- No predicate is compiled to a nested query before it is put among others. -/
theorem plain_memberOf : (p : Predicate) → {clause : Clause} →
    (memberOf glyph p).clause = .ok clause → clause.query.Plain
  | .compare _, _, h => (asksOf_leaf h).plain
  | .group conjunction ps, _, h => by
      obtain ⟨clauses, hclauses, rfl⟩ := map_ok h
      obtain ⟨hnodup, happart⟩ := pathsApart_clausesBelow hclauses (plain_membersOf ps)
      refine ⟨?_, pathsApart_combine hnodup happart⟩
      cases conjunction <;> rfl

theorem plain_membersOf : (ps : List Predicate) →
    ∀ m ∈ membersOf glyph ps, ∀ clause, m.clause = .ok clause → clause.query.Plain
  | [], _, hm, _, _ => absurd hm List.not_mem_nil
  | p :: ps, m, hm, clause, h => by
      rcases List.mem_cons.mp hm with rfl | hm
      · exact plain_memberOf p h
      · exact plain_membersOf ps m hm clause h

end

theorem pathsApart_queryOf {ps : List Predicate} {q : Query}
    (h : queryOf glyph conjunction ps = .ok q) : q.PathsApart := by
  obtain ⟨clauses, hclauses, rfl⟩ := map_ok h
  obtain ⟨hnodup, happart⟩ := pathsApart_clausesBelow hclauses (plain_membersOf ps)
  exact pathsApart_combineOrAlone _ hnodup happart

/-- **Folding is a stable grouping, so nested queries side by side are at different paths.** The first
holds of all members at every path, the second in every query that is compiled. -/
theorem slots_stable :
    (∀ parent members, ∃ layout : List (Slot × List Nat),
        layout.map Prod.fst = slots parent members ∧ Stable parent members layout)
      ∧ (∀ glyph s q, Query.ofStatement glyph s = .ok q → q.PathsApart)
      ∧ ∀ glyph p q, Query.ofPredicate glyph p = .ok q → q.PathsApart := by
  refine ⟨exists_stable, fun glyph s q h => ?_, fun glyph p q h => pathsApart_queryOf h⟩
  rw [ofStatement_eq_queryOf] at h
  exact pathsApart_queryOf h

/-- Two members that are equal, paths one of which starts with the other, and a group between members at
one path. -/
def interleaved : Statement where
  table := "teams"
  conjunction := .or
  predicates := [
    .compare ⟨.eq, "a.x", [.bare "1"]⟩,
    .compare ⟨.ne, "b.x", [.bare "1"]⟩,
    .compare ⟨.eq, "a", [.bare "1"]⟩,
    .compare ⟨.eq, "a.x", [.bare "1"]⟩,
    .group .and [.compare ⟨.eq, "a.x", [.bare "1"]⟩, .compare ⟨.nn, "ab.x", []⟩],
    .compare ⟨.eq, "ab.x", [.bare "2"]⟩,
    .compare ⟨.gt, "a.b.x", [.bare "2"]⟩]

/-- The paths in the `bool` queries are those of five slots, of the slot at `a`, and of the group. -/
theorem slots_interleaved :
    (slots [] (membersOf '*' interleaved.predicates)).map
        (fun slot => (slot.path?.map String.ofList, slot.members.map (·.field?.map String.ofList)))
      = [(some "a", [some "a.x", some "a.x", some "a.b.x"]), (some "b", [some "b.x"]),
        (none, [some "a"]), (none, [none]), (some "ab", [some "ab.x"])]
      ∧ (∃ layout : List (Slot × List Nat),
        layout.map Prod.fst = slots [] (membersOf '*' interleaved.predicates)
          ∧ Stable [] (membersOf '*' interleaved.predicates) layout)
      ∧ (∃ q, Query.ofStatement '*' interleaved = .ok q
        ∧ q.bools.map (·.filterMap Query.path?) = [["a", "b", "ab"], ["a.b"], [], ["a", "ab"], []]
        ∧ q.PathsApart)
      ∧ ∃ q, Query.ofPredicate '*' (.group .and interleaved.predicates) = .ok q
        ∧ q.PathsApart := by
  obtain ⟨hstable, hstatement, hpredicate⟩ := slots_stable
  refine ⟨by decide +kernel, hstable _ _, ?_, ?_⟩
  · have hbools : (Query.ofStatement '*' interleaved).toOption.map
          (fun q => q.bools.map (·.filterMap Query.path?))
        = some [["a", "b", "ab"], ["a.b"], [], ["a", "ab"], []] := by
      decide +kernel
    obtain ⟨q, hq, hpaths⟩ := Option.map_eq_some_iff.mp hbools
    have hok := ok_of_toOption hq
    exact ⟨q, hok, hpaths, hstatement _ _ _ hok⟩
  · have hsome : (Query.ofPredicate '*' (.group .and interleaved.predicates)).toOption.isSome := by
      decide +kernel
    obtain ⟨q, hq⟩ := Option.isSome_iff_exists.mp hsome
    have hok := ok_of_toOption hq
    exact ⟨q, hok, hpredicate _ _ _ hok⟩

end Rql.Search

import Mathlib.Data.List.Infix
import Mathlib.Data.List.Perm.Basic
import Mathlib.Data.List.TakeWhile
import Rql.Proofs.Lists
import Rql.Proofs.Search.Folding
import Rql.Proofs.Text.Cuts

/-!
# Where the leaves of a search query stand

A leaf may ask something of a field only where the objects of the field are at hand: inside nested
queries for all paths of the field, one in the other. `pathsOf` gives these paths as the dotted prefixes
of the field. The compiler finds them one by one, always relative to the path it has come to
(`pathsBelow`), and `pathsBelow_eq` says that it finds the same.

`placedLeaves` lists the leaves of a query, each with the paths around it. The main result is
`placedLeaves_ofStatement`: every leaf has exactly the paths of its field around it, and together the
leaves are those that the comparisons have alone.
-/

namespace Rql.Search

/-! ## The paths of a field -/

/-- The segments of a field without the last one, up to the first that is empty. -/
def objectSegments (field : List Char) : List (List Char) :=
  (Text.splitOn '.' field).dropLast.takeWhile fun segment => !segment.isEmpty

/-- The paths of the objects in which a field lies, from the outside in. -/
def pathsOf (field : String) : List String :=
  (objectSegments field.toList).inits.tail.map fun front => .ofList (['.'].intercalate front)

theorem relative?_eq_some_iff {parent field rest : List Char} :
    relative? parent field = some rest ↔
      field = if parent = [] then rest else parent ++ '.' :: rest := by
  rw [relative?]
  split
  · exact Option.some_inj
  · rw [Text.behind?_eq_some_iff, List.append_assoc, List.singleton_append]

/-- One segment further down there is one segment less of the field left. -/
theorem relative?_extend {parent field segment after : List Char} (hne : segment ≠ [])
    (h : relative? parent field = some (segment ++ '.' :: after)) :
    relative? (extend parent segment) field = some after := by
  rw [relative?_eq_some_iff] at h ⊢
  rw [h, extend]
  split
  · rfl
  · rw [if_neg (List.append_ne_nil_of_right_ne_nil parent (List.cons_ne_nil '.' segment)),
      List.append_assoc, List.cons_append]

/-- **One step down the paths of a field**: either there is no path below, or one segment is taken off
the field. -/
theorem pathBelow?_cases {parent field rest : List Char} (h : relative? parent field = some rest) :
    (pathBelow? parent field = none ∧ objectSegments rest = [])
      ∨ ∃ segment after, pathBelow? parent field = some (extend parent segment)
        ∧ objectSegments rest = segment :: objectSegments after
        ∧ relative? (extend parent segment) field = some after := by
  rw [pathBelow?, h, Option.bind_some, objectSegments, Text.splitOn_eq]
  cases hcut : Text.splitFirst? '.' rest with
  | none => exact .inl ⟨rfl, rfl⟩
  | some cut =>
    obtain ⟨before, after⟩ := cut
    dsimp only
    rw [List.dropLast_cons_of_ne_nil (Text.splitOn_ne_nil '.' after)]
    cases before with
    | nil => exact .inl ⟨rfl, rfl⟩
    | cons c segment =>
      refine .inr ⟨c :: segment, after, rfl, rfl, relative?_extend (List.cons_ne_nil c segment) ?_⟩
      rw [h, (Text.splitFirst?_eq_some_iff.mp hcut).1]

/-- The paths that the compiler comes to below `parent`. -/
def pathsBelow (parent field : List Char) : List (List Char) :=
  match _h : pathBelow? parent field with
  | none => []
  | some path => path :: pathsBelow path field
termination_by field.length - parent.length
decreasing_by
  have := length_of_pathBelow? _h
  omega

theorem pathsBelow_of_none {parent field : List Char} (h : pathBelow? parent field = none) :
    pathsBelow parent field = [] := by
  rw [pathsBelow]
  split
  · rfl
  · rename_i path hpath
    rw [h] at hpath
    exact absurd hpath (by simp)

theorem pathsBelow_of_some {parent field path : List Char}
    (h : pathBelow? parent field = some path) :
    pathsBelow parent field = path :: pathsBelow path field := by
  rw [pathsBelow]
  split
  · rename_i hnone
    rw [h] at hnone
    exact absurd hnone (by simp)
  · rename_i path' hpath
    rw [h] at hpath
    rw [Option.some.inj hpath]

theorem pathsBelow_of_relative {parent field rest : List Char}
    (h : relative? parent field = some rest) :
    pathsBelow parent field = (objectSegments rest).inits.tail.map (List.foldl extend parent) := by
  generalize hs : objectSegments rest = segments
  induction segments generalizing parent rest with
  | nil =>
    rcases pathBelow?_cases h with ⟨hnone, -⟩ | ⟨segment, after, -, hsegs, -⟩
    · exact pathsBelow_of_none hnone
    · rw [hsegs] at hs
      exact absurd hs (List.cons_ne_nil _ _)
  | cons segment segments ih =>
    rcases pathBelow?_cases h with ⟨-, hnil⟩ | ⟨segment', after, hpath, hsegs, hrel⟩
    · rw [hnil] at hs
      exact absurd hs.symm (List.cons_ne_nil _ _)
    · rw [hsegs] at hs
      obtain ⟨rfl, hafter⟩ := List.cons.inj hs
      rw [pathsBelow_of_some hpath, ih hrel hafter]
      -- the prefixes of the rest, with the first segment in front of each
      cases segments <;> simp [List.inits, Function.comp_def]

theorem foldl_extend {parent : List Char} (hne : parent ≠ []) (segments : List (List Char)) :
    segments.foldl extend parent = ['.'].intercalate (parent :: segments) := by
  induction segments generalizing parent with
  | nil => rw [List.foldl_nil, List.intercalate_singleton]
  | cons segment segments ih =>
    rw [List.foldl_cons, extend, if_neg hne, ih (List.append_ne_nil_of_left_ne_nil hne _)]
    cases segments <;> simp [List.intercalate_cons_cons]

/-- **The compiler comes to the paths of the field, in their order.** -/
theorem pathsBelow_eq (field : String) :
    (pathsBelow [] field.toList).map String.ofList = pathsOf field := by
  have hrel : relative? [] field.toList = some field.toList := rfl
  rw [pathsBelow_of_relative hrel, pathsOf, List.map_map]
  apply List.map_congr_left
  intro front hfront
  have hmem : ∀ segment ∈ front, segment ≠ [] := by
    intro segment hsegment
    have hinit : front <+: objectSegments field.toList :=
      (List.mem_inits _ _).mp (List.mem_of_mem_tail hfront)
    simpa using List.mem_takeWhile_imp (hinit.subset hsegment)
  rw [Function.comp_apply]
  cases front with
  | nil => rfl
  | cons segment rest => exact congrArg _ (foldl_extend (hmem segment List.mem_cons_self) rest)

/-- The last segment is no object, and an empty segment ends the paths. -/
example : pathsOf "a.b.c" = ["a", "a.b"] ∧ pathsOf "a..b.c" = ["a"] ∧ pathsOf "a.b." = ["a", "a.b"]
    ∧ pathsOf ".a.b" = [] := by decide

/-! ## The leaves of a query -/

namespace Query

mutual

/-- The leaves of a query, each with the paths of the nested queries around it from the outside in,
where the query itself stands inside of those at `around`. -/
def placedLeaves (around : List String) : Query → List (List String × Query)
  | .bool must filter mustNot should =>
    placedLeavesOf around must ++ placedLeavesOf around filter ++ placedLeavesOf around mustNot
      ++ placedLeavesOf around should
  | .nested path query => placedLeaves (around ++ [path]) query
  | leaf => [(around, leaf)]

/-- The leaves of all of the queries. -/
def placedLeavesOf (around : List String) : List Query → List (List String × Query)
  | [] => []
  | q :: rest => placedLeaves around q ++ placedLeavesOf around rest

end

/-- The leaves of a query. -/
def leaves (q : Query) : List Query :=
  (q.placedLeaves []).map Prod.snd

/-- The field that a leaf asks something of. -/
def field? : Query → Option String
  | .bool .. | .nested .. => none
  | .term field _ | .terms field _ | .range field _ _ | .wildcard field _ | .fuzzy field _
  | .present field => some field

theorem placedLeavesOf_eq_flatMap (around : List String) (qs : List Query) :
    placedLeavesOf around qs = qs.flatMap (placedLeaves around) := by
  induction qs with
  | nil => rfl
  | cons q qs ih => rw [placedLeavesOf, ih, List.flatMap_cons]

end Query

/-- The query of a clause, whether it is to match or not. -/
def Clause.query : Clause → Query
  | .positive q | .negative q => q

/-- The leaves of a clause, each with the paths around it. -/
def Clause.placedLeaves (around : List String) (clause : Clause) : List (List String × Query) :=
  clause.query.placedLeaves around

variable {around : List String} {conjunction : Conjunction}

theorem Clause.placedLeaves_toQuery (clause : Clause) :
    clause.toQuery.placedLeaves around = clause.placedLeaves around := by
  cases clause with
  | positive q => rfl
  | negative q =>
    simp [toQuery, Query.mustNot, Query.placedLeaves, Query.placedLeavesOf, placedLeaves, query]

/-- Under `and` the queries of the negative clauses move behind the others. -/
theorem perm_queries (clauses : List Clause) :
    (clauses.filterMap Clause.positive? ++ clauses.filterMap Clause.negative?).Perm
      (clauses.map Clause.query) := by
  induction clauses with
  | nil => exact .nil
  | cons clause rest ih =>
    cases clause with
    | positive q => exact ih.cons q
    | negative q => exact List.perm_middle.trans (ih.cons q)

/-- Putting clauses together keeps all leaves. -/
theorem perm_combine (around : List String) (conjunction : Conjunction) (clauses : List Clause) :
    ((combine conjunction clauses).placedLeaves around).Perm
      (clauses.flatMap (Clause.placedLeaves around)) := by
  cases conjunction with
  | or =>
    simp only [combine, Query.should, Query.placedLeaves, Query.placedLeavesOf_eq_flatMap,
      List.flatMap_nil, List.nil_append, List.flatMap_map, Clause.placedLeaves_toQuery]
    exact .refl _
  | and =>
    simp only [combine, Query.placedLeaves, Query.placedLeavesOf_eq_flatMap, List.flatMap_nil,
      List.nil_append, List.append_nil, ← List.flatMap_append]
    refine ((perm_queries clauses).flatMap_right _).trans ?_
    rw [List.flatMap_map]
    rfl

theorem perm_combineOrAlone (around : List String) (conjunction : Conjunction) (alone : Bool)
    (clauses : List Clause) :
    ((combineOrAlone conjunction alone clauses).placedLeaves around).Perm
      (clauses.flatMap (Clause.placedLeaves around)) := by
  match clauses with
  | [] => exact perm_combine around conjunction []
  | [clause] =>
    rw [combineOrAlone]
    cases alone with
    | true =>
      rw [if_pos rfl, Clause.placedLeaves_toQuery, List.flatMap_singleton]
    | false => exact perm_combine around conjunction [clause]
  | _ :: _ :: _ => exact perm_combine around conjunction _

/-! ## The leaves of members -/

namespace Member

/-- The paths that the compiler comes to for the member below `parent`. -/
def pathsBelow (parent : List Char) (m : Member) : List (List Char) :=
  m.field?.toList.flatMap (Search.pathsBelow parent)

/-- The leaves of the member, each with the paths around it. -/
def placedLeaves (around : List String) (m : Member) : List (List String × Query) :=
  m.clause.toOption.toList.flatMap (Clause.placedLeaves around)

theorem pathsBelow_of_none {parent : List Char} {m : Member} (h : m.pathBelow? parent = none) :
    m.pathsBelow parent = [] := by
  rw [Member.pathBelow?] at h
  rw [pathsBelow]
  cases hf : m.field? with
  | none => rfl
  | some field =>
    rw [hf, Option.bind_some] at h
    exact (List.flatMap_singleton _ _).trans (Search.pathsBelow_of_none h)

theorem pathsBelow_of_some {parent path : List Char} {m : Member}
    (h : m.pathBelow? parent = some path) :
    m.pathsBelow parent = path :: m.pathsBelow path := by
  obtain ⟨field, hf, hpath⟩ := Option.bind_eq_some_iff.mp h
  rw [pathsBelow, pathsBelow, hf, Option.toList_some, List.flatMap_singleton,
    List.flatMap_singleton]
  exact Search.pathsBelow_of_some hpath

theorem placedLeaves_of_clause {m : Member} {clause : Clause} (h : m.clause = .ok clause) :
    m.placedLeaves around = clause.placedLeaves around := by
  rw [placedLeaves, h]
  exact List.flatMap_singleton _ _

end Member

/-- **Folding puts the leaves of every member under the paths of the member**, and loses none. -/
theorem perm_clausesBelow {parent : List Char} {members : List Member} {clauses : List Clause}
    (h : clausesBelow conjunction parent members = .ok clauses) (around : List String) :
    (clauses.flatMap (Clause.placedLeaves around)).Perm
      (members.flatMap fun m =>
        m.placedLeaves (around ++ (m.pathsBelow parent).map String.ofList)) := by
  induction parent, members using below_induction generalizing clauses around with
  | step parent members ih =>
    -- the clause of a slot has the leaves of the members of the slot
    have hslots : List.Forall₂
        (fun slot clause => (Clause.placedLeaves around clause).Perm
          (slot.members.flatMap fun m =>
            m.placedLeaves (around ++ (m.pathsBelow parent).map String.ofList)))
        (slots parent members) clauses := by
      rw [clausesBelow_eq_mapM] at h
      refine forall₂_of_mapM h fun slot hslot clause hclause => ?_
      have hfits := fits_of_mem_slots hslot
      cases slot with
      | single m =>
        rw [Slot.members, List.flatMap_singleton, Member.pathsBelow_of_none hfits, List.map_nil,
          List.append_nil, Member.placedLeaves_of_clause hclause]
      | nested path group =>
        obtain ⟨inner, hinner, rfl⟩ := map_ok hclause
        rw [Clause.placedLeaves, Clause.query, Query.placedLeaves]
        refine ((perm_combineOrAlone _ _ _ _).trans
          (ih path group hslot hinner (around ++ [.ofList path]))).trans
            (List.Perm.flatMap_left group fun m hm => .of_eq ?_)
        rw [Member.pathsBelow_of_some (hfits.2 m hm), List.map_cons, List.append_assoc,
          List.singleton_append]
    refine (perm_flatMap_of_forall₂ hslots).trans ?_
    rw [← List.flatMap_assoc]
    exact (perm_flatMap_members parent members).flatMap_right _

/-! ## The leaves of predicates -/

variable {glyph : Char}

/-- The leaves that a comparison is compiled to, under the paths of its field. -/
def leavesOf (glyph : Char) (c : Comparison) : List (List String × Query) :=
  (leaf glyph c).toOption.toList.flatMap (Clause.placedLeaves (pathsOf c.field))

theorem leavesOf_of_leaf {c : Comparison} {clause : Clause} (h : leaf glyph c = .ok clause) :
    leavesOf glyph c = clause.placedLeaves (pathsOf c.field) := by
  rw [leavesOf, h]
  exact List.flatMap_singleton _ _

namespace Query

/-- The query is put together by lists of clauses from leaves that ask something of the field. -/
inductive AsksOf (field : String) : Query → Prop where
  | leaf {q : Query} (h : q.field? = some field) : AsksOf field q
  | bool {must filter mustNot should : List Query}
      (h : ∀ q ∈ must ++ filter ++ mustNot ++ should, AsksOf field q) :
      AsksOf field (bool must filter mustNot should)

variable {field : String}

theorem asksOf_patterns (field before after : String) (values : List Literal) :
    ∀ q ∈ patterns field before after values, q.AsksOf field := by
  intro q hq
  obtain ⟨l, -, rfl⟩ := List.mem_map.mp hq
  exact .leaf rfl

theorem asksOf_must {qs : List Query} (h : ∀ q ∈ qs, q.AsksOf field) : (must qs).AsksOf field :=
  .bool (by simpa using h)

theorem asksOf_mustNot {qs : List Query} (h : ∀ q ∈ qs, q.AsksOf field) :
    (mustNot qs).AsksOf field :=
  .bool (by simpa using h)

theorem asksOf_should {qs : List Query} (h : ∀ q ∈ qs, q.AsksOf field) :
    (should qs).AsksOf field :=
  .bool (by simpa using h)

/-- No nested query is around a leaf of such a query but those that the query stands in. -/
theorem AsksOf.of_mem_placedLeaves {q leaf : Query} {around paths : List String}
    (h : q.AsksOf field) (hmem : (paths, leaf) ∈ q.placedLeaves around) :
    paths = around ∧ leaf.field? = some field := by
  induction h with
  | @leaf q h =>
    have hq : q.placedLeaves around = [(around, q)] := by
      cases q with
      | bool | nested => exact absurd h (by simp [field?])
      | _ => rfl
    rw [hq, List.mem_singleton] at hmem
    obtain ⟨rfl, rfl⟩ := Prod.mk.inj hmem
    exact ⟨rfl, h⟩
  | bool _ ih =>
    simp only [placedLeaves, placedLeavesOf_eq_flatMap, ← List.flatMap_append] at hmem
    obtain ⟨q, hq, hleaf⟩ := List.mem_flatMap.mp hmem
    exact ih q hq hleaf

end Query

theorem asksOf_equality (glyph : Char) (field : String) (l : Literal) :
    (equality glyph field l).query.AsksOf field := by
  rw [equality]
  split
  · exact .leaf rfl
  · split <;> exact .leaf rfl

theorem asksOf_inequality (glyph : Char) (field : String) (l : Literal) :
    (inequality glyph field l).query.AsksOf field := by
  have h := asksOf_equality glyph field l
  rw [inequality]
  cases hl : equality glyph field l with
  | positive q => rw [hl] at h; exact h
  | negative q => rw [hl] at h; exact Query.asksOf_must (List.forall_mem_singleton.mpr h)

/-- **The query of a comparison is made of leaves that ask something of its field.** -/
theorem asksOf_leaf {c : Comparison} {clause : Clause} (h : leaf glyph c = .ok clause) :
    clause.query.AsksOf c.field := by
  obtain ⟨op, field, values⟩ := c
  have hpresent : ∀ q ∈ [Query.present field], q.AsksOf field :=
    List.forall_mem_singleton.mpr (.leaf rfl)
  have hempty : (Query.term field "").AsksOf field := .leaf rfl
  cases op with
  | eq =>
    obtain ⟨l, -, rfl⟩ := map_ok h
    exact asksOf_equality glyph field l
  | ne =>
    obtain ⟨l, -, rfl⟩ := map_ok h
    exact asksOf_inequality glyph field l
  | gt | ge | lt | le | search =>
    obtain ⟨l, -, rfl⟩ := map_ok h
    exact .leaf rfl
  | sw | ew | w =>
    cases h
    exact Query.asksOf_should (Query.asksOf_patterns field _ _ values)
  | wo =>
    cases h
    exact Query.asksOf_mustNot (Query.asksOf_patterns field _ _ values)
  | isIn | out | n =>
    cases h
    exact .leaf rfl
  | nn =>
    cases h
    exact Query.asksOf_must hpresent
  | emp =>
    cases h
    exact Query.asksOf_should (List.forall_mem_cons.mpr
      ⟨hempty, List.forall_mem_singleton.mpr (Query.asksOf_mustNot hpresent)⟩)
  | nemp =>
    cases h
    exact Query.asksOf_must (List.forall_mem_cons.mpr
      ⟨Query.asksOf_mustNot (List.forall_mem_singleton.mpr hempty),
        List.forall_mem_singleton.mpr (Query.asksOf_must hpresent)⟩)

mutual

/-- **The leaves of a predicate are those of its comparisons**, each under its own paths. -/
theorem perm_memberOf : (p : Predicate) → {clause : Clause} → (memberOf glyph p).clause = .ok clause →
    (clause.placedLeaves (((memberOf glyph p).pathsBelow []).map String.ofList)).Perm
      (p.comparisons.flatMap (leavesOf glyph))
  | .compare c, clause, h => by
      have hpaths : ((memberOf glyph (.compare c)).pathsBelow []).map String.ofList
          = pathsOf c.field := by
        rw [← pathsBelow_eq, memberOf, Member.pathsBelow]
        exact congrArg _ (List.flatMap_singleton _ _)
      rw [hpaths, Predicate.comparisons, List.flatMap_singleton, leavesOf_of_leaf h]
  | .group conjunction ps, clause, h => by
      obtain ⟨clauses, hclauses, rfl⟩ := map_ok h
      exact ((perm_combine [] conjunction clauses).trans (perm_clausesBelow hclauses [])).trans
        (perm_membersOf ps (exists_clause hclauses))

theorem perm_membersOf : (ps : List Predicate) →
    (∀ m ∈ membersOf glyph ps, ∃ clause, m.clause = .ok clause) →
    ((membersOf glyph ps).flatMap fun m =>
      m.placedLeaves ([] ++ (m.pathsBelow []).map String.ofList)).Perm
        ((Predicate.comparisonsOfMembers ps).flatMap (leavesOf glyph))
  | [], _ => .nil
  | p :: ps, h => by
      rw [membersOf, List.forall_mem_cons] at h
      obtain ⟨⟨clause, hclause⟩, hrest⟩ := h
      rw [membersOf, List.flatMap_cons, Predicate.comparisonsOfMembers, List.flatMap_append,
        Member.placedLeaves_of_clause hclause, List.nil_append]
      exact (perm_memberOf p hclause).append (perm_membersOf ps hrest)

end

/-- The leaves of predicates side by side are those of their comparisons. -/
theorem perm_queryOf {ps : List Predicate} {q : Query} (h : queryOf glyph conjunction ps = .ok q) :
    (q.placedLeaves []).Perm ((Predicate.comparisonsOfMembers ps).flatMap (leavesOf glyph)) := by
  obtain ⟨clauses, hclauses, rfl⟩ := map_ok h
  exact ((perm_combineOrAlone [] conjunction _ clauses).trans (perm_clausesBelow hclauses [])).trans
    (perm_membersOf ps (exists_clause hclauses))

mutual

theorem exists_leaf_of_memberOf : (p : Predicate) →
    (∃ clause, (memberOf glyph p).clause = .ok clause) →
      ∀ c ∈ p.comparisons, ∃ clause, leaf glyph c = .ok clause
  | .compare c, h, d, hd => by
      rw [List.mem_singleton.mp hd]
      exact h
  | .group conjunction ps, ⟨clause, h⟩, c, hc => by
      obtain ⟨clauses, hclauses, -⟩ := map_ok h
      exact exists_leaf_of_membersOf ps (exists_clause hclauses) c hc

/-- Where predicates have clauses, so do all of their comparisons. -/
theorem exists_leaf_of_membersOf : (ps : List Predicate) →
    (∀ m ∈ membersOf glyph ps, ∃ clause, m.clause = .ok clause) →
      ∀ c ∈ Predicate.comparisonsOfMembers ps, ∃ clause, leaf glyph c = .ok clause
  | [], _, c, hc => absurd hc List.not_mem_nil
  | p :: ps, h, c, hc => by
      rw [membersOf, List.forall_mem_cons] at h
      rcases List.mem_append.mp hc with hc | hc
      · exact exists_leaf_of_memberOf p h.1 c hc
      · exact exists_leaf_of_membersOf ps h.2 c hc

end

theorem exists_ofPredicate {c : Comparison} (h : ∃ clause, leaf glyph c = .ok clause) :
    ∃ q, Query.ofPredicate glyph (.compare c) = .ok q := by
  have hclause : ∀ m ∈ membersOf glyph [.compare c], ∃ clause, m.clause = .ok clause :=
    List.forall_mem_singleton.mpr h
  obtain ⟨clauses, hclauses⟩ := exists_clausesBelow hclause
  exact ⟨_, by rw [Query.ofPredicate, queryOf, hclauses]; rfl⟩

/-- **Every leaf stands under exactly the paths of its field, and no leaf is lost or invented.** The
leaves of a statement are those that its comparisons have when each is compiled alone. -/
theorem placedLeaves_ofStatement {s : Statement} {q : Query}
    (h : Query.ofStatement glyph s = .ok q) :
    (∀ around leaf, (around, leaf) ∈ q.placedLeaves [] → leaf.field?.map pathsOf = some around)
      ∧ ∃ alone,
        s.comparisons.mapM (fun c => Query.ofPredicate glyph (.compare c)) = .ok alone
          ∧ q.leaves.Perm (alone.flatMap Query.leaves) := by
  rw [ofStatement_eq_queryOf] at h
  have hperm : (q.placedLeaves []).Perm (s.comparisons.flatMap (leavesOf glyph)) := perm_queryOf h
  obtain ⟨clauses, hclauses, -⟩ := map_ok h
  have hleaf := exists_leaf_of_membersOf s.predicates (exists_clause hclauses)
  refine ⟨fun around leaf hmem => ?_, ?_⟩
  · obtain ⟨c, hc, hmem⟩ := List.mem_flatMap.mp (hperm.mem_iff.mp hmem)
    obtain ⟨clause, hclause⟩ := hleaf c hc
    rw [leavesOf_of_leaf hclause] at hmem
    obtain ⟨haround, hfield⟩ := (asksOf_leaf hclause).of_mem_placedLeaves hmem
    rw [hfield, haround]
    rfl
  · obtain ⟨alone, halone⟩ := exists_mapM_ok fun c hc => exists_ofPredicate (hleaf c hc)
    refine ⟨alone, halone, ?_⟩
    -- compiled alone, a comparison has its own leaves and no others
    have heach : List.Forall₂ (fun c qc => (Query.placedLeaves [] qc).Perm (leavesOf glyph c))
        s.comparisons alone := by
      refine forall₂_of_mapM halone fun c _ qc hqc => ?_
      have hone := perm_queryOf hqc
      rwa [Predicate.comparisonsOfMembers, Predicate.comparisonsOfMembers, List.append_nil,
        Predicate.comparisons, List.flatMap_singleton] at hone
    have hall := hperm.trans (perm_flatMap_of_forall₂ heach).symm
    rw [Query.leaves]
    refine (hall.map Prod.snd).trans (.of_eq ?_)
    rw [List.map_flatMap]
    rfl

/-- Objects inside of objects, empty segments, and a group between members at one path. -/
def deep : Statement where
  table := "teams"
  predicates := [
    .compare ⟨.eq, "a.b.c", [.bare "1"]⟩,
    .group .or [.compare ⟨.ne, "a.b.c", [.bare "2"]⟩, .compare ⟨.emp, "a.", []⟩],
    .compare ⟨.gt, "a..d", [.bare "3"]⟩]

/-- The last comparison comes to stand behind the first, and the group has nested queries of its own. -/
theorem placedLeaves_deep :
    ∃ q, Query.ofStatement '*' deep = .ok q
      ∧ (q.placedLeaves []).map (fun l => (l.1, l.2.field?))
        = [(["a", "a.b"], some "a.b.c"), (["a"], some "a..d"), (["a", "a.b"], some "a.b.c"),
          (["a"], some "a."), (["a"], some "a.")]
      ∧ (∀ around leaf, (around, leaf) ∈ q.placedLeaves [] →
        leaf.field?.map pathsOf = some around)
      ∧ ∃ alone,
        deep.comparisons.mapM (fun c => Query.ofPredicate '*' (.compare c)) = .ok alone
          ∧ q.leaves.Perm (alone.flatMap Query.leaves) := by
  have hplaced : (Query.ofStatement '*' deep).toOption.map
        (fun q => (q.placedLeaves []).map fun l => (l.1, l.2.field?))
      = some [(["a", "a.b"], some "a.b.c"), (["a"], some "a..d"), (["a", "a.b"], some "a.b.c"),
          (["a"], some "a."), (["a"], some "a.")] := by
    decide +kernel
  obtain ⟨q, hq, hleaves⟩ := Option.map_eq_some_iff.mp hplaced
  have hok := ok_of_toOption hq
  exact ⟨q, hok, hleaves, placedLeaves_ofStatement hok⟩

end Rql.Search

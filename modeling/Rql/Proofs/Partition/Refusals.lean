import Rql.Proofs.Partition.Steps
import Rql.Proofs.Predicate.Truth

/-!
# What a query may be refused for

A refusal of a query comes from one of its steps: from the comparisons with the keys, from the order, or
from a value that does not fit the type of its column. The theorems here hold for every kind of reasons.
If each step refuses only for reasons of that kind, so does the whole (`refusesBy_query`). For the kind
that has no reasons at all this says that there is a plan.

Not every comparison can be refused for its values. Those of texts, such as `sw`, take the values as they
are, whatever the type of the column; `Operator.isTyped` names the others.
-/

namespace Rql

/-- The operator compares with values of the type that the column has. -/
def Operator.isTyped : Operator → Bool
  | .eq | .ne | .gt | .ge | .lt | .le | .isIn | .out => true
  | _ => false

namespace Partition

variable {kind : Error → Prop} {t : Table} {s : Statement} {index : Index} {c : Comparison}
  {cs : List Comparison}

/-! ## Values -/

/-- The only thing to refuse a value for is that it does not fit its column. -/
theorem refusesBy_columnBind {col : Column} {l : Literal} (h : kind (col.mismatch l.text)) :
    RefusesBy kind (col.bind l) := by
  have hmismatch : RefusesBy kind (.error (col.mismatch l.text) : Except Error Json) := .error h
  unfold Column.bind
  split_ifs
  · exact .ok _
  · exact .ok _
  · split
    · exact .ok _
    · exact hmismatch
  · exact .ok _
  · exact .ok _
  · exact hmismatch
  · exact .ok _

theorem refusesBy_bind {field : String} {l : Literal}
    (h : ∀ col, t.column? field = some col → kind (col.mismatch l.text)) :
    RefusesBy kind (t.bind field l) := by
  rw [Table.bind]
  cases hcol : t.column? field with
  | none => exact .ok _
  | some col => exact refusesBy_columnBind (h col hcol)

/-- The values of a comparison that have to fit their column are refused for reasons of one kind. -/
def ValuesRefusedBy (kind : Error → Prop) (t : Table) (c : Comparison) : Prop :=
  c.op.isTyped = true → ∀ l ∈ c.values, RefusesBy kind (t.bind c.field l)

theorem refusesBy_keyValue (hnone : c.values = [] → kind (.malformed (.noValue c)))
    (hvalues : ∀ l ∈ c.values, RefusesBy kind (t.bind c.field l)) :
    RefusesBy kind (keyValue t c) := by
  obtain ⟨op, field, values⟩ := c
  cases values with
  | nil => exact .error (hnone rfl)
  | cons l ls => exact hvalues l List.mem_cons_self

theorem refusesBy_sortCondition (hfits : fitsSortKey c = true) (hvalues : ValuesRefusedBy kind t c) :
    RefusesBy kind (sortCondition t c) := by
  obtain ⟨op, field, values⟩ := c
  rw [fitsSortKey, Bool.and_eq_true, beq_iff_eq] at hfits
  obtain ⟨hop, hlength⟩ := hfits
  obtain ⟨l, rfl⟩ := List.length_eq_one_iff.mp hlength
  cases op with
  | sw => exact .ok _
  | eq | gt | ge | lt | le => exact RefusesBy.map (hvalues rfl l List.mem_cons_self) _
  | _ => exact absurd hop Bool.false_ne_true

/-! ## The comparisons with the keys -/

theorem refusesBy_partitionComparison
    (hop : ∀ c ∈ cs, c.names index.partitionKey = true → c.op ≠ .eq →
      kind (.unsupportedOperator c.op c.field .partitionKeyEquality))
    (hcovers : covers cs index.partitionKey = false →
      kind (.invalidMetadata t.name .partitionKeyNotCovered)) :
    RefusesBy kind (partitionComparison t index cs) := by
  unfold partitionComparison
  dsimp only
  split
  · next c hfind =>
    obtain ⟨hmem, hnames⟩ := List.mem_filter.mp (List.mem_of_find?_eq_some hfind)
    exact .error (hop c hmem hnames (by simpa using List.find?_some hfind))
  · split
    · exact .ok _
    · next hnamed =>
      refine .error (hcovers ?_)
      rw [covers, List.any_eq_false]
      exact fun c hc => by simpa using List.filter_eq_nil_iff.mp hnamed c hc

theorem refusesBy_sortComparison
    (hop : ∀ key, index.sortKey = some key → ∀ c ∈ cs, c.names key = true → fitsSortKey c = false →
      kind (.unsupportedOperator c.op c.field .sortKeyOperators)) :
    RefusesBy kind (sortComparison index cs) := by
  unfold sortComparison
  split
  · exact .ok _
  · next key hkey =>
    dsimp only
    split
    · next c hfind =>
      obtain ⟨hmem, hnames⟩ := List.mem_filter.mp (List.mem_of_find?_eq_some hfind)
      exact .error (hop key hkey c hmem hnames (by simpa using List.find?_some hfind))
    · exact .ok _

/-! ## Filters -/

/-- What a predicate has no condition for: that there is no form of it, or an error of the kind. -/
def Obstacle.OfKind (kind : Error → Prop) : Obstacle → Prop
  | .noForm => True
  | .error e => kind e

namespace Condition

variable {glyph : Char}

theorem refusesBy_bindValue {field : String} {l : Literal} (h : RefusesBy kind (t.bind field l)) :
    RefusesBy (Obstacle.OfKind kind) (bindValue t field l) :=
  RefusesBy.mapError h

theorem refusesBy_equality {null : Condition}
    (hvalues : ∀ l ∈ c.values, RefusesBy kind (t.bind c.field l)) :
    RefusesBy (Obstacle.OfKind kind) (equality glyph t c null) := by
  obtain ⟨op, field, values⟩ := c
  cases values with
  | nil => exact .error trivial
  | cons l ls =>
    unfold equality
    refine (RefusesBy.ok l).bind fun _ h => ?_
    obtain rfl := Except.ok.inj h
    split
    · exact .error trivial
    · split
      · exact .ok _
      · exact (refusesBy_bindValue (hvalues l List.mem_cons_self)).bind fun _ _ => .ok _

theorem refusesBy_ofComparison (h : ValuesRefusedBy kind t c) :
    RefusesBy (Obstacle.OfKind kind) (ofComparison glyph t c) := by
  obtain ⟨op, field, values⟩ := c
  cases op with
  | eq | ne => exact refusesBy_equality (h rfl)
  | gt | ge | lt | le =>
    cases values with
    | nil => exact .error trivial
    | cons l ls =>
      exact (refusesBy_bindValue (h rfl l List.mem_cons_self)).bind fun _ _ => .ok _
  | isIn | out => exact (RefusesBy.mapM fun l hl => refusesBy_bindValue (h rfl l hl)).map _
  | sw | w | wo | n | nn => exact .ok _
  | ew | search | emp | nemp => exact .error trivial

theorem refusesBy_ofPredicates (ps : List Predicate)
    (h : ∀ c ∈ Predicate.comparisonsOfMembers ps, ValuesRefusedBy kind t c) :
    RefusesBy (Obstacle.OfKind kind) (ofPredicates glyph t ps) :=
  (compiles glyph t).refusesBy fun c hc => refusesBy_ofComparison (h c hc)

end Condition

theorem refusesBy_filter {glyph : Char} {conjunction : Conjunction} {ps : List Predicate}
    (h : ∀ c ∈ Predicate.comparisonsOfMembers ps, ValuesRefusedBy kind t c) :
    RefusesBy kind (Filter.ofPredicates glyph t conjunction ps) := by
  unfold Filter.ofPredicates
  split
  · exact .ok _
  · split
    · exact .ok _
    · exact .ok _
    · next e he => exact .error (Condition.refusesBy_ofPredicates ps h _ he)

/-! ## Queries -/

theorem mem_comparisons_of_mem_required (h : c ∈ required s) : c ∈ s.comparisons :=
  Statement.mem_comparisons_of_mem_conjuncts (mem_required.mp h)

theorem mem_of_mem_dropPositions {places : List Nat} {ps : List Predicate} {p : Predicate}
    (h : p ∈ dropPositions places ps) : p ∈ ps := by
  obtain ⟨entry, hentry, rfl⟩ := List.mem_map.mp h
  exact List.fst_mem_of_mem_zipIdx (List.mem_of_mem_filter hentry)

/-- What is left for a filter is part of the statement. -/
theorem forall_comparisons_dropPositions {P : Comparison → Prop} (h : ∀ c ∈ s.comparisons, P c)
    (places : List Nat) :
    ∀ c ∈ Predicate.comparisonsOfMembers (dropPositions places s.conjuncts), P c :=
  Predicate.forall_comparisonsOfMembers.mpr fun _ hp c hc =>
    h c (Statement.comparisons_subset_of_mem_conjuncts (mem_of_mem_dropPositions hp) hc)

/-- What a plan excludes comes from its statement. -/
theorem excluded_subset {glyph : Char} {p : Plan} (h : Plan.ofStatement glyph t s = .ok p) :
    Predicate.comparisonsOfMembers p.excluded ⊆ s.comparisons := by
  obtain ⟨primary, -, -, ⟨-, -, hscan⟩ | ⟨-, hquery⟩⟩ := ofStatement_ok h
  · obtain ⟨filter, -, rfl⟩ := scan_ok hscan
    exact List.Subset.refl _
  · obtain ⟨c, sort, hq⟩ := query_ok hquery
    rw [hq.excluded]
    exact forall_comparisons_dropPositions (fun c hc => hc) _

/-- **A query is refused only for what one of its steps is refused for.** -/
theorem refusesBy_query {glyph : Char}
    (hpartition : RefusesBy kind (partitionComparison t index (required s)))
    (hsort : RefusesBy kind (sortComparison index (required s)))
    (horder : ∀ narrowed, RefusesBy kind (resolveOrder index s.order.head? narrowed))
    (hnone : ∀ c ∈ required s, c.op = .eq → c.values = [] → kind (.malformed (.noValue c)))
    (hvalues : ∀ c ∈ s.comparisons, ValuesRefusedBy kind t c) :
    RefusesBy kind (Plan.query glyph t s (required s) index) := by
  unfold Plan.query
  refine hpartition.bind fun c hc => hsort.bind fun d hd => (horder d.isSome).bind fun order _ => ?_
  -- the comparison with the partition key is an equality
  obtain ⟨hfind, heq⟩ := partitionComparison_ok hc
  have hmem := List.mem_of_find?_eq_some hfind
  have hop : c.op = .eq := heq c hmem (List.find?_some hfind)
  have hkey : RefusesBy kind (keyValue t c) :=
    refusesBy_keyValue (hnone c hmem hop)
      (hvalues c (mem_comparisons_of_mem_required hmem) (by rw [hop]; rfl))
  have hcondition : RefusesBy kind (KeyCondition.ofComparisons t index c d) := by
    unfold KeyCondition.ofComparisons
    cases d with
    | none => exact (RefusesBy.ok none).bind fun _ _ => hkey.bind fun _ _ => .ok _
    | some d =>
      obtain ⟨hd', hfits⟩ := sortComparison_ok hd
      obtain ⟨key, hindex, hfind⟩ := Option.bind_eq_some_iff.mp hd'.symm
      have hmem := List.mem_of_find?_eq_some hfind
      have hsortKey := refusesBy_sortCondition
        (hfits key hindex d hmem (List.find?_some hfind))
        (hvalues d (mem_comparisons_of_mem_required hmem))
      exact (hsortKey.map some).bind fun _ _ => hkey.bind fun _ _ => .ok _
  exact hcondition.bind fun _ _ =>
    (refusesBy_filter (forall_comparisons_dropPositions hvalues _)).bind fun _ _ => .ok _

end Partition

end Rql

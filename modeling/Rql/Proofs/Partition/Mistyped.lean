import Rql.Proofs.Partition.Accounting
import Rql.Proofs.Partition.Meaning
import Rql.Proofs.Partition.Refusals
import Rql.Request.Statement

/-!
# Values that do not fit their column

The values that go into a key condition are looked at when the condition is made. All others are looked at
only while a filter is made, and a filter goes over the comparisons from left to right and stops at the
first that it can do nothing with (`refusal?_ofPredicates`). If that is a comparison with a value that does
not fit its column, the statement is refused. If it is a comparison that the store knows no form of, there
is no filter, and nobody looks at the values behind it.

So a value that does not fit is refused unless it stands behind a comparison without a form
(`exists_filter_iff`). Where every comparison has a form it is refused in whatever order the predicates
stand; otherwise their order decides (`unread_of_mistyped`).
-/

namespace Rql.Partition

variable {glyph : Char} {t : Table} {c d : Comparison} {cs : List Comparison}

/-! ## Comparisons with values that do not fit -/

/-- The store knows a form of the comparison, whatever its values are to the column. -/
def hasForm (glyph : Char) (c : Comparison) : Bool :=
  match c.op with
  | .ew | .search | .emp | .nemp => false
  | .eq | .ne => c.values.all fun l => !l.hasWildcard glyph
  | _ => true

/-- The operator compares the field with the value. Equality asks something else of null and of
patterns. -/
def comparesWith (glyph : Char) (op : Operator) (l : Literal) : Bool :=
  match op with
  | .eq | .ne => !l.isNull && !l.hasWildcard glyph
  | op => op.isTyped

/-- The comparison compares its field with a value that does not fit the column. -/
def Mistyped (glyph : Char) (t : Table) (c : Comparison) : Prop :=
  ∃ l ∈ c.values, comparesWith glyph c.op l = true ∧ ∃ e, t.bind c.field l = .error e

theorem not_mistyped_iff :
    ¬Mistyped glyph t c ↔ ∀ l ∈ c.values, comparesWith glyph c.op l = true →
      ∃ value, t.bind c.field l = .ok value := by
  simp only [Mistyped, not_exists, not_and, ← refusal?_eq_some_iff, ← refusal?_eq_none_iff]
  simp only [Option.eq_none_iff_forall_ne_some, ne_eq]

/-- A comparison has a condition if the store knows a form of it and its values fit. -/
theorem native_iff : Native glyph t c ↔ hasForm glyph c = true ∧ ¬Mistyped glyph t c := by
  rw [not_mistyped_iff]
  obtain ⟨op, field, values⟩ := c
  cases op with
  | eq | ne =>
    simp only [Native, hasForm, comparesWith, List.all_eq_true, Bool.and_eq_true,
      Bool.not_eq_true']
    constructor
    · intro h
      exact ⟨fun l hl => (h l hl).1, fun l hl hcompares => (h l hl).2 hcompares.1⟩
    · rintro ⟨hform, hfits⟩ l hl
      exact ⟨hform l hl, fun hn => hfits l hl ⟨hn, hform l hl⟩⟩
  | _ => simp [Native, hasForm, comparesWith, Operator.isTyped]

theorem hasForm_of_mistyped (ha : c.hasArity = true) (h : Mistyped glyph t c) :
    hasForm glyph c = true := by
  obtain ⟨op, field, values⟩ := c
  obtain ⟨l, hl, hcompares, -⟩ := h
  cases op with
  | eq | ne =>
    obtain ⟨l', rfl⟩ := eq_singleton_of_hasArity ha rfl
    obtain rfl := List.mem_singleton.mp hl
    have hcompares : l.isNull = false ∧ l.hasWildcard glyph = false := by
      simpa [comparesWith] using hcompares
    simp [hasForm, hcompares.2]
  | gt | ge | lt | le | isIn | out => rfl
  | _ => exact absurd hcompares Bool.false_ne_true

namespace Condition

/-! ## The first comparison without a condition -/

theorem bindValue_ne_noForm (field : String) (l : Literal) :
    RefusesBy (· ≠ .noForm) (bindValue t field l) :=
  RefusesBy.mapError fun _ _ h => nomatch h

/-- A comparison that has a form is refused for a value, if at all. -/
theorem refusesBy_of_hasForm (ha : c.hasArity = true) (h : hasForm glyph c = true) :
    RefusesBy (· ≠ .noForm) (ofComparison glyph t c) := by
  obtain ⟨op, field, values⟩ := c
  cases op with
  | eq | ne =>
    obtain ⟨l, rfl⟩ := eq_singleton_of_hasArity ha rfl
    have hg : ¬l.hasWildcard glyph = true := by simpa [hasForm] using h
    show RefusesBy _ (equality glyph t ⟨_, field, [l]⟩ _)
    rw [equality_singleton, if_neg hg]
    split
    · exact .ok _
    · exact (bindValue_ne_noForm field l).map _
  | gt | ge | lt | le =>
    obtain ⟨l, rfl⟩ := eq_singleton_of_hasArity ha rfl
    rw [ofComparison_range glyph t rfl]
    exact (bindValue_ne_noForm field l).map _
  | isIn | out => exact (RefusesBy.mapM fun l _ => bindValue_ne_noForm field l).map _
  | sw | w | wo | n | nn => exact .ok _
  | ew | search | emp | nemp => exact absurd h Bool.false_ne_true

theorem ofComparison_of_hasForm_eq_false (ha : c.hasArity = true) (h : hasForm glyph c = false) :
    ofComparison glyph t c = .error .noForm := by
  obtain ⟨op, field, values⟩ := c
  cases op with
  | eq | ne =>
    obtain ⟨l, rfl⟩ := eq_singleton_of_hasArity ha rfl
    have hg : l.hasWildcard glyph = true := by simpa [hasForm] using h
    show equality glyph t ⟨_, field, [l]⟩ _ = _
    rw [equality_singleton, if_pos hg]
  | ew | search | emp | nemp => rfl
  | _ => exact absurd h (by simp [hasForm])

/-- What stands in the way of a condition is a missing form, or else a value. -/
theorem obstacle_of_refusal {o : Obstacle} (ha : c.hasArity = true)
    (h : ofComparison glyph t c = .error o) :
    o = .noForm ∧ hasForm glyph c = false ∨ o ≠ .noForm ∧ Mistyped glyph t c := by
  cases hform : hasForm glyph c with
  | false =>
    rw [ofComparison_of_hasForm_eq_false ha hform] at h
    exact .inl ⟨(Except.error.inj h).symm, rfl⟩
  | true =>
    refine .inr ⟨refusesBy_of_hasForm ha hform o h, ?_⟩
    by_contra hfits
    obtain ⟨cond, hcond⟩ := (exists_ofComparison_iff ha).mpr (native_iff.mpr ⟨hform, hfits⟩)
    rw [hcond] at h
    exact absurd h (by simp)

/-- **The first comparison without a condition decides for all of them.** -/
theorem refusal?_ofPredicates (ps : List Predicate) : refusal? (ofPredicates glyph t ps)
    = (Predicate.comparisonsOfMembers ps).findSome? fun c => refusal? (ofComparison glyph t c) :=
  (compiles glyph t).refusal?_members ps

/-- What the first comparison without a condition is, and that all before it have theirs. -/
theorem exists_first_of_refusal {ps : List Predicate} {o : Obstacle}
    (ha : ∀ c ∈ Predicate.comparisonsOfMembers ps, c.hasArity = true)
    (h : ofPredicates glyph t ps = .error o) :
    ∃ front c back, Predicate.comparisonsOfMembers ps = front ++ c :: back
      ∧ (∀ b ∈ front, Native glyph t b)
      ∧ (o = .noForm ∧ hasForm glyph c = false ∨ o ≠ .noForm ∧ Mistyped glyph t c) := by
  rw [← refusal?_eq_some_iff, refusal?_ofPredicates] at h
  obtain ⟨front, c, back, hsplit, hc, hfront⟩ := List.findSome?_eq_some_iff.mp h
  rw [hsplit] at ha
  refine ⟨front, c, back, hsplit, fun b hb => ?_, ?_⟩
  · exact (exists_ofComparison_iff (ha b (List.mem_append_left _ hb))).mp
      (refusal?_eq_none_iff.mp (hfront b hb))
  · exact obstacle_of_refusal (ha c (List.mem_append_right _ List.mem_cons_self))
      (refusal?_eq_some_iff.mp hc)

end Condition

/-! ## Filters -/

/-- Among these comparisons nobody looks at the values of `d`: a comparison without a form stands before
it, and before that there are only comparisons with conditions. -/
def Unread (glyph : Char) (t : Table) (cs : List Comparison) (d : Comparison) : Prop :=
  ∃ front c back, cs = front ++ c :: back ∧ (∀ b ∈ front, Native glyph t b)
    ∧ hasForm glyph c = false ∧ d ∈ back

section

variable {conjunction : Conjunction} {ps : List Predicate}

/-- A missing form is no refusal. -/
theorem refusal?_filter {e : Error} :
    Filter.ofPredicates glyph t conjunction ps = .error e
      ↔ Condition.ofPredicates glyph t ps = .error (.error e) := by
  cases ps with
  | nil => simp [Filter.ofPredicates, Condition.ofPredicates]
  | cons p ps =>
    rw [Filter.ofPredicates]
    · cases Condition.ofPredicates glyph t (p :: ps) with
      | error o => cases o <;> simp
      | ok parts => simp
    · exact List.cons_ne_nil p ps

/-- A comparison without a condition leaves no filter. -/
theorem filter_eq_none {filter : Option Filter}
    (ha : ∀ c ∈ Predicate.comparisonsOfMembers ps, c.hasArity = true)
    (h : Filter.ofPredicates glyph t conjunction ps = .ok filter)
    (hd : d ∈ Predicate.comparisonsOfMembers ps) (hm : Mistyped glyph t d) :
    filter = none ∧ Condition.ofPredicates glyph t ps = .error .noForm := by
  have hnot : ∀ parts, Condition.ofPredicates glyph t ps ≠ .ok parts := by
    intro parts hparts
    have hnone := refusal?_eq_none_iff.mpr ⟨parts, hparts⟩
    rw [Condition.refusal?_ofPredicates, List.findSome?_eq_none_iff] at hnone
    have hnative := (Condition.exists_ofComparison_iff (ha d hd)).mp
      (refusal?_eq_none_iff.mp (hnone d hd))
    exact (native_iff.mp hnative).2 hm
  constructor
  · cases filter with
    | none => rfl
    | some f =>
      obtain ⟨-, parts, hparts, -⟩ := Filter.ofPredicates_eq_some_iff.mp h
      exact absurd hparts (hnot parts)
  · match hps : Condition.ofPredicates glyph t ps with
    | .ok parts => exact absurd hps (hnot parts)
    | .error .noForm => rfl
    | .error (.error e) =>
      rw [refusal?_filter.mpr hps] at h
      exact absurd h (by simp)

theorem unread_of_filter {filter : Option Filter}
    (ha : ∀ c ∈ Predicate.comparisonsOfMembers ps, c.hasArity = true)
    (h : Filter.ofPredicates glyph t conjunction ps = .ok filter)
    (hd : d ∈ Predicate.comparisonsOfMembers ps) (hm : Mistyped glyph t d) :
    Unread glyph t (Predicate.comparisonsOfMembers ps) d := by
  obtain ⟨front, c, back, hsplit, hfront, ⟨-, hform⟩ | ⟨hne, -⟩⟩ :=
    Condition.exists_first_of_refusal ha (filter_eq_none ha h hd hm).2
  · refine ⟨front, c, back, hsplit, hfront, hform, ?_⟩
    have hdform := hasForm_of_mistyped (ha d hd) hm
    rw [hsplit] at hd
    rcases List.mem_append.mp hd with hd | hd
    · exact absurd hm (native_iff.mp (hfront d hd)).2
    · rcases List.mem_cons.mp hd with rfl | hd
      · exact absurd (hform.symm.trans hdform) Bool.false_ne_true
      · exact hd
  · exact absurd rfl hne

theorem noForm_of_unread (ha : ∀ c ∈ Predicate.comparisonsOfMembers ps, c.hasArity = true)
    (h : Unread glyph t (Predicate.comparisonsOfMembers ps) d) :
    Condition.ofPredicates glyph t ps = .error .noForm := by
  obtain ⟨front, c, back, hsplit, hfront, hform, -⟩ := h
  rw [hsplit] at ha
  rw [← refusal?_eq_some_iff, Condition.refusal?_ofPredicates]
  refine List.findSome?_eq_some_iff.mpr ⟨front, c, back, hsplit, ?_, fun b hb => ?_⟩
  · exact refusal?_eq_some_iff.mpr (Condition.ofComparison_of_hasForm_eq_false
      (ha c (List.mem_append_right _ List.mem_cons_self)) hform)
  · exact refusal?_eq_none_iff.mpr
      ((Condition.exists_ofComparison_iff (ha b (List.mem_append_left _ hb))).mpr (hfront b hb))

/-- **A value that does not fit is refused unless it stands behind a comparison without a form.** -/
theorem exists_filter_iff (ha : ∀ c ∈ Predicate.comparisonsOfMembers ps, c.hasArity = true) :
    (∃ filter, Filter.ofPredicates glyph t conjunction ps = .ok filter)
      ↔ ∀ d ∈ Predicate.comparisonsOfMembers ps, Mistyped glyph t d →
          Unread glyph t (Predicate.comparisonsOfMembers ps) d := by
  constructor
  · rintro ⟨filter, h⟩ d hd hm
    exact unread_of_filter ha h hd hm
  · intro h
    cases hfilter : Filter.ofPredicates glyph t conjunction ps with
    | ok filter => exact ⟨filter, rfl⟩
    | error e =>
      -- the first comparison in the way has a value that does not fit, so it would have to be unread
      have herror := refusal?_filter.mp hfilter
      obtain ⟨front, c, back, hsplit, -, ⟨ho, -⟩ | ⟨-, hm⟩⟩ :=
        Condition.exists_first_of_refusal ha herror
      · exact absurd ho (by simp)
      · have hc : c ∈ Predicate.comparisonsOfMembers ps := by
          rw [hsplit]
          exact List.mem_append_right _ List.mem_cons_self
        rw [noForm_of_unread ha (h c hc hm)] at herror
        exact absurd herror (by simp)

end

/-! ## Plans -/

/-- What a key condition states has a value that fits. -/
theorem Absorbs.not_mistyped {index : Index} {ps : List Predicate} {k : KeyCondition}
    {absorbed : List (Nat × Comparison)} (h : Absorbs t index ps k absorbed) :
    ∀ a ∈ absorbed, ¬Mistyped glyph t a.2 := by
  have hpartition : ∀ {c : Comparison}, k.StatesPartition t index c → ¬Mistyped glyph t c := by
    intro c hstates
    obtain ⟨l, hl, hbind⟩ := hstates.value
    rw [not_mistyped_iff, hl, List.forall_mem_singleton]
    exact fun _ => ⟨_, hbind⟩
  cases h with
  | partition _ hstates _ _ =>
    exact List.forall_mem_singleton.mpr (hpartition hstates)
  | both _ hstates _ _ _ hsc =>
    refine List.forall_mem_cons.mpr ⟨hpartition hstates, List.forall_mem_singleton.mpr ?_⟩
    obtain ⟨l, hl, hvalue⟩ := hsc.value
    rw [not_mistyped_iff, hl, List.forall_mem_singleton]
    intro hcompares
    -- the start of a text is not compared with
    split at hvalue
    · next hop =>
      rw [hop] at hcompares
      exact absurd hcompares Bool.false_ne_true
    · exact ⟨_, hvalue⟩

/-- A query hands a comparison with a value that does not fit on to the filter. -/
theorem Queried.mem_excluded {s : Statement} {index : Index} {p : Plan} {sort : Option Comparison}
    (hq : Queried glyph t s index p c sort) (ha : s.hasArities = true) (hd : d ∈ s.comparisons)
    (hm : Mistyped glyph t d) : d ∈ Predicate.comparisonsOfMembers p.excluded := by
  obtain ⟨absorbed, k, -, habs, hplaces⟩ := hq.absorbs ha
  have hw : Without (· ∈ absorbed.map Prod.fst) 0 s.conjuncts p.excluded := by
    rw [hq.excluded, hplaces]
    exact without_dropPositions _ _
  have hpartition := (partitionComparison_ok hq.partition).1
  have hand : s.conjunction = .and :=
    Statement.conjunction_of_mem_conjuncts (mem_required.mp (List.mem_of_find?_eq_some hpartition))
  by_contra hnot
  let other : Predicate → Bool := fun q => q.comparisons.all (· != d)
  have hgone : ∀ m q, 0 + m ∈ absorbed.map Prod.fst → s.conjuncts[m]? = some q →
      other q = true := by
    intro m q hmem hq'
    rw [Nat.zero_add] at hmem
    obtain ⟨a, ha', rfl⟩ := List.mem_map.mp hmem
    rw [habs.getElem? a ha'] at hq'
    have hne : a.2 ≠ d := fun he => habs.not_mistyped a ha' (he ▸ hm)
    simp [← Option.some.inj hq', other, Predicate.comparisons, hne]
  have hrest : p.excluded.all other = true := by
    simp only [other, List.all_eq_true, bne_iff_ne]
    exact Predicate.forall_comparisonsOfMembers.mp fun e he hed => hnot (hed ▸ he)
  have hall := (hw.all_eq_true other).mpr ⟨hgone, hrest⟩
  simp only [other, List.all_eq_true, bne_iff_ne] at hall
  rw [← Statement.comparisonsOfMembers_conjuncts hand] at hd
  exact Predicate.forall_comparisonsOfMembers.mpr hall d hd rfl

/-- **An accepted plan has not looked at values that do not fit.** They stand behind a comparison without
a form, and there is no filter. -/
theorem unread_of_plan {s : Statement} {p : Plan} (ha : s.hasArities = true)
    (h : Plan.ofStatement glyph t s = .ok p) (hd : d ∈ s.comparisons) (hm : Mistyped glyph t d) :
    p.filter = none ∧ Unread glyph t (Predicate.comparisonsOfMembers p.excluded) d := by
  have hall := List.all_eq_true.mp ha
  obtain ⟨primary, -, -, ⟨-, -, hscan⟩ | ⟨-, hquery⟩⟩ := ofStatement_ok h
  · obtain ⟨filter, hfilter, rfl⟩ := scan_ok hscan
    exact ⟨(filter_eq_none hall hfilter hd hm).1, unread_of_filter hall hfilter hd hm⟩
  · obtain ⟨c, sort, hq⟩ := query_ok hquery
    have harities : ∀ c ∈ Predicate.comparisonsOfMembers p.excluded, c.hasArity = true :=
      fun c hc => hall c (excluded_subset h hc)
    have hmem := hq.mem_excluded ha hd hm
    exact ⟨(filter_eq_none harities hq.filter hmem hm).1,
      unread_of_filter harities hq.filter hmem hm⟩

/-- **Where the value of `d` does not fit, a plan has not looked at `d`.** If every comparison has a form,
all of them are looked at, and there is no plan in whatever order the predicates stand. -/
theorem unread_of_mistyped {s : Statement} (ha : s.hasArities = true) (hd : d ∈ s.comparisons)
    (hm : Mistyped glyph t d) :
    (∀ p, Plan.ofStatement glyph t s = .ok p →
        p.filter = none ∧ Unread glyph t (Predicate.comparisonsOfMembers p.excluded) d)
      ∧ ((∀ c ∈ s.comparisons, hasForm glyph c = true) → ∀ s' : Statement,
          s'.predicates.Perm s.predicates → ∃ e, Plan.ofStatement glyph t s' = .error e) := by
  refine ⟨fun p h => unread_of_plan ha h hd hm, fun hforms s' hperm => ?_⟩
  have hsame : ∀ c, c ∈ s'.comparisons ↔ c ∈ s.comparisons := fun c =>
    (Predicate.comparisonsOfMembers_perm hperm).mem_iff
  cases h : Plan.ofStatement glyph t s' with
  | error e => exact ⟨e, rfl⟩
  | ok p =>
    have ha' : s'.hasArities = true :=
      List.all_eq_true.mpr fun c hc => List.all_eq_true.mp ha c ((hsame c).mp hc)
    obtain ⟨-, front, c, back, hsplit, -, hform, -⟩ := unread_of_plan ha' h ((hsame d).mpr hd) hm
    have hc : c ∈ Predicate.comparisonsOfMembers p.excluded := by
      rw [hsplit]
      exact List.mem_append_right _ List.mem_cons_self
    have hcs := (hsame c).mp (excluded_subset h hc)
    exact absurd (hform.symm.trans (hforms c hcs)) Bool.false_ne_true

/-- A table with a column for numbers. -/
def players : Table where
  name := "players"
  backend := .partitionKey
  columns := [{ name := "rank", type := "N" }]
  indexes := [.ofPrimaryKeys "team" none]

/-- A rank that is no number. -/
def topRank : Comparison :=
  ⟨.gt, "rank", [.bare "top"]⟩

/-- The rank stands behind an ending, of which the store knows no form. -/
def rankBehindEnding : Statement where
  table := "players"
  predicates := [.compare ⟨.eq, "team", [.bare "1"]⟩, .compare ⟨.ew, "name", [.bare "a"]⟩,
    .compare topRank]

/-- The same predicates with the rank in front. -/
def rankBeforeEnding : Statement where
  table := "players"
  predicates := [.compare ⟨.eq, "team", [.bare "1"]⟩, .compare topRank,
    .compare ⟨.ew, "name", [.bare "a"]⟩]

/-- A beginning has a form. -/
def rankBehindBeginning : Statement where
  table := "players"
  predicates := [.compare ⟨.eq, "team", [.bare "1"]⟩, .compare ⟨.sw, "name", [.bare "a"]⟩,
    .compare topRank]

theorem mistyped_topRank : Mistyped '*' players topRank :=
  ⟨.bare "top", List.mem_cons_self, rfl, .malformed (.typeMismatch "top" "N" "rank"), rfl⟩

/-- Whether the rank is refused depends on where it stands. -/
theorem accepted_topRank :
    QueryString.statement {} players "eq(team,1)&ew(name,a)&gt(rank,top)" = .ok rankBehindEnding
      ∧ QueryString.statement {} players "eq(team,1)&gt(rank,top)&ew(name,a)" = .ok rankBeforeEnding
      ∧ rankBehindEnding.predicates.Perm rankBeforeEnding.predicates
      ∧ rankBehindEnding.hasArities = true ∧ topRank ∈ rankBehindEnding.comparisons
      ∧ Mistyped '*' players topRank
      ∧ (∃ p, Plan.ofStatement '*' players rankBehindEnding = .ok p)
      ∧ Plan.ofStatement '*' players rankBeforeEnding
        = .error (.malformed (.typeMismatch "top" "N" "rank")) := by
  have hbehind : QueryString.statement {} players "eq(team,1)&ew(name,a)&gt(rank,top)"
      = .ok rankBehindEnding := ok_of_toOption (by decide +kernel)
  have hbefore : QueryString.statement {} players "eq(team,1)&gt(rank,top)&ew(name,a)"
      = .ok rankBeforeEnding := ok_of_toOption (by decide +kernel)
  have hperm : rankBehindEnding.predicates.Perm rankBeforeEnding.predicates :=
    (List.Perm.swap _ _ []).cons _
  exact ⟨hbehind, hbefore, hperm, rfl, by decide, mistyped_topRank, ⟨_, rfl⟩, rfl⟩

/-- Behind the ending the rank is not looked at, behind the beginning it is refused in any order. -/
theorem unread_topRank :
    (rankBehindEnding.hasArities = true ∧ topRank ∈ rankBehindEnding.comparisons
      ∧ Mistyped '*' players topRank
      ∧ ∃ p, Plan.ofStatement '*' players rankBehindEnding = .ok p ∧ p.filter = none
        ∧ Unread '*' players (Predicate.comparisonsOfMembers p.excluded) topRank)
    ∧ rankBehindBeginning.hasArities = true ∧ topRank ∈ rankBehindBeginning.comparisons
      ∧ ∀ s' : Statement, s'.predicates.Perm rankBehindBeginning.predicates →
        ∃ e, Plan.ofStatement '*' players s' = .error e := by
  have hplan : ∃ p, Plan.ofStatement '*' players rankBehindEnding = .ok p := ⟨_, rfl⟩
  obtain ⟨p, hp⟩ := hplan
  have hending : topRank ∈ rankBehindEnding.comparisons := by decide
  have hbeginning : topRank ∈ rankBehindBeginning.comparisons := by decide
  have hforms : ∀ c ∈ rankBehindBeginning.comparisons, hasForm '*' c = true := by decide
  obtain ⟨hfilter, hunread⟩ := (unread_of_mistyped rfl hending mistyped_topRank).1 p hp
  exact ⟨⟨rfl, hending, mistyped_topRank, p, hp, hfilter, hunread⟩, rfl, hbeginning,
    (unread_of_mistyped rfl hbeginning mistyped_topRank).2 hforms⟩

end Rql.Partition

import Rql.Partition.Plan
import Rql.Proofs.Predicate.Compilation

/-!
# What an accepted plan went through

A plan is made by steps that may each refuse the statement. The theorems here say, once for each step,
all that follows if it did not; everything else about accepted plans is derived from them and does not
look into the steps again.

`ofStatement_ok` is the one for the whole: the plan is either a scan of a table none of whose partition
keys is named, or a query of the chosen index.
-/

namespace Rql.Partition

/-- The comparisons that every row has to satisfy. -/
def required (s : Statement) : List Comparison :=
  s.conjuncts.filterMap Predicate.comparison?

theorem mem_required {s : Statement} {c : Comparison} :
    c ∈ required s ↔ Predicate.compare c ∈ s.conjuncts := by
  rw [required, List.mem_filterMap]
  constructor
  · rintro ⟨p, hp, hc⟩
    cases p with
    | compare d => cases hc; exact hp
    | group _ _ => cases hc
  · intro h
    exact ⟨_, h, rfl⟩

/-! ## The comparisons with the keys -/

theorem partitionComparison_ok {t : Table} {index : Index} {cs : List Comparison} {c : Comparison}
    (h : partitionComparison t index cs = .ok c) :
    cs.find? (Comparison.names index.partitionKey) = some c
      ∧ ∀ d ∈ cs, d.names index.partitionKey = true → d.op = .eq := by
  unfold partitionComparison at h
  dsimp only at h
  split at h
  · exact absurd h (by simp)
  · rename_i hnone
    have heq : ∀ d ∈ cs, d.names index.partitionKey = true → d.op = .eq := by
      intro d hd hn
      have := List.find?_eq_none.mp hnone d (List.mem_filter.mpr ⟨hd, hn⟩)
      simpa using this
    split at h
    · rename_i c' rest hfilter
      have hc : c' = c := Except.ok.inj h
      subst hc
      refine ⟨?_, heq⟩
      rw [← List.head?_filter, hfilter, List.head?_cons]
    · exact absurd h (by simp)

theorem sortComparison_ok {index : Index} {cs : List Comparison} {sort : Option Comparison}
    (h : sortComparison index cs = .ok sort) :
    sort = index.sortKey.bind (fun key => cs.find? (Comparison.names key))
      ∧ ∀ key, index.sortKey = some key → ∀ d ∈ cs, d.names key = true → fitsSortKey d = true := by
  unfold sortComparison at h
  split at h
  · rename_i hnone
    rw [hnone]
    exact ⟨(Except.ok.inj h).symm, fun key hkey => absurd hkey (by simp)⟩
  · rename_i key hkey
    dsimp only at h
    split at h
    · exact absurd h (by simp)
    · rename_i hfind
      refine ⟨?_, ?_⟩
      · rw [hkey, Option.bind_some, ← List.head?_filter]
        exact (Except.ok.inj h).symm
      · intro key' hkey' d hd hn
        rw [hkey] at hkey'
        have hk : key = key' := Option.some.inj hkey'
        subst hk
        have := List.find?_eq_none.mp hfind d (List.mem_filter.mpr ⟨hd, hn⟩)
        simpa using this

theorem keyValue_ok {t : Table} {c : Comparison} {value : Json} (h : keyValue t c = .ok value) :
    ∃ l, c.value? = some l ∧ t.bind c.field l = .ok value := by
  unfold keyValue at h
  split at h
  · rename_i l hl
    exact ⟨l, hl, h⟩
  · exact absurd h (by simp)

theorem sortCondition_ok {t : Table} {c : Comparison} {sc : SortCondition}
    (h : sortCondition t c = .ok sc) :
    sc.field = c.field ∧ sc.op = c.op ∧ ∃ l, c.value? = some l
      ∧ if c.op = .sw then sc.value = .string l.text else t.bind c.field l = .ok sc.value := by
  unfold sortCondition at h
  split at h
  · rename_i l hop hl
    have hsc := Except.ok.inj h
    subst hsc
    exact ⟨rfl, hop.symm, l, hl, by rw [if_pos hop]⟩
  · rename_i hsw
    obtain ⟨value, hv, hsc⟩ := map_ok h
    subst hsc
    obtain ⟨l, hl, hbind⟩ := keyValue_ok hv
    refine ⟨rfl, rfl, l, hl, ?_⟩
    rw [if_neg (fun hop => hsw l hop hl)]
    exact hbind

theorem ofComparisons_ok {t : Table} {index : Index} {c : Comparison} {sort : Option Comparison}
    {k : KeyCondition} (h : KeyCondition.ofComparisons t index c sort = .ok k) :
    k.partitionKey = index.partitionKey ∧ keyValue t c = .ok k.partitionValue
      ∧ match sort with
        | none => k.sortKey = none
        | some d => ∃ sc, k.sortKey = some sc ∧ sortCondition t d = .ok sc := by
  unfold KeyCondition.ofComparisons at h
  cases sort with
  | none =>
    obtain ⟨sortKey, hs, h⟩ := bind_ok h
    obtain ⟨value, hv, h⟩ := bind_ok h
    have hk := Except.ok.inj h
    subst hk
    exact ⟨rfl, hv, (Except.ok.inj hs).symm⟩
  | some d =>
    obtain ⟨sortKey, hs, h⟩ := bind_ok h
    obtain ⟨value, hv, h⟩ := bind_ok h
    obtain ⟨sc, hsc, heq⟩ := map_ok hs
    have hk := Except.ok.inj h
    subst hk
    exact ⟨rfl, hv, sc, heq.symm, hsc⟩

/-! ## Conditions of predicates -/

namespace Condition

theorem compiles (glyph : Char) (t : Table) :
    Predicate.Compiles (ofComparison glyph t) Condition.group (ofPredicate glyph t)
      (ofPredicates glyph t) where
  compare _ := rfl
  group c members := by
    rw [ofPredicate]
    cases ofPredicates glyph t members <;> rfl
  nil := rfl
  cons p ps := by
    rw [ofPredicates]
    cases ofPredicate glyph t p with
    | error e => rfl
    | ok part => cases ofPredicates glyph t ps <;> rfl

end Condition

/-! ## Whole plans -/

/-- The places of the conjuncts that go into the key condition. -/
def absorbedPlaces (index : Index) (s : Statement) : List Nat :=
  [some index.partitionKey, index.sortKey].filterMap fun key =>
    key.bind fun field => positionOf field s.conjuncts

theorem scan_ok {glyph : Char} {t : Table} {s : Statement} {primary : Index} {p : Plan}
    (h : Plan.scan glyph t s primary = .ok p) :
    ∃ filter, Filter.ofPredicates glyph t s.conjunction s.predicates = .ok filter
      ∧ p = { index := primary, access := .scan, keyCondition := none, excluded := s.predicates,
              conjunction := s.conjunction, filter, order := none, limit := s.page.maxRows,
              marker := s.page.marker } := by
  obtain ⟨filter, hf, h⟩ := bind_ok h
  exact ⟨filter, hf, (Except.ok.inj h).symm⟩

/-- The steps of a query that did not refuse: `c` is the comparison with the partition key, `d` the one
with the sort key, if there is one. -/
structure Queried (glyph : Char) (t : Table) (s : Statement) (index : Index) (p : Plan)
    (c : Comparison) (d : Option Comparison) : Prop where
  partition : partitionComparison t index (required s) = .ok c
  sort : sortComparison index (required s) = .ok d
  order : resolveOrder index s.order.head? d.isSome = .ok p.order
  /-- The key condition states the two comparisons. -/
  condition : ∃ k, p.keyCondition = some k ∧ KeyCondition.ofComparisons t index c d = .ok k
  /-- All other conjuncts are left. -/
  excluded : p.excluded = dropPositions (absorbedPlaces index s) s.conjuncts
  filter : Filter.ofPredicates glyph t .and p.excluded = .ok p.filter
  index_eq : p.index = index
  access : p.access = .query
  conjunction : p.conjunction = .and
  limit : p.limit = s.page.maxRows
  marker : p.marker = s.page.marker

theorem query_ok {glyph : Char} {t : Table} {s : Statement} {index : Index} {p : Plan}
    (h : Plan.query glyph t s (required s) index = .ok p) :
    ∃ c d, Queried glyph t s index p c d := by
  obtain ⟨c, hc, h⟩ := bind_ok h
  obtain ⟨d, hd, h⟩ := bind_ok h
  obtain ⟨order, ho, h⟩ := bind_ok h
  obtain ⟨k, hk, h⟩ := bind_ok h
  obtain ⟨filter, hf, h⟩ := bind_ok h
  have hp := Except.ok.inj h
  subst hp
  exact ⟨c, d, hc, hd, ho, ⟨k, rfl, hk⟩, rfl, hf, rfl, rfl, rfl, rfl, rfl⟩

/-- **Every accepted plan is a scan or a query.** -/
theorem ofStatement_ok {glyph : Char} {t : Table} {s : Statement} {p : Plan}
    (h : Plan.ofStatement glyph t s = .ok p) :
    ∃ primary, t.primaryIndex? = some primary ∧ s.order.length ≤ 1
      ∧ ((candidates t (required s) = [] ∧ s.order = [] ∧ Plan.scan glyph t s primary = .ok p)
        ∨ (candidates t (required s) ≠ [] ∧ Plan.query glyph t s (required s)
            (chooseIndex t (required s) s.order.head? primary) = .ok p)) := by
  unfold Plan.ofStatement at h
  split at h
  · exact absurd h (by simp)
  · exact absurd h (by simp)
  · rename_i primary hprimary horders
    refine ⟨primary, hprimary, ?_, ?_⟩
    · match hs : s.order with
      | [] => simp
      | [_] => simp
      | _ :: second :: rest => exact absurd hs (by simpa using horders _ second rest)
    · change (if (candidates t (required s)).isEmpty then _ else _) = _ at h
      by_cases hc : (candidates t (required s)).isEmpty = true
      · rw [if_pos hc] at h
        refine Or.inl ⟨List.isEmpty_iff.mp hc, ?_⟩
        cases ho : s.order with
        | nil => rw [ho] at h; exact ⟨rfl, h⟩
        | cons o rest => rw [ho] at h; exact absurd h (by simp)
      · rw [if_neg hc] at h
        exact Or.inr ⟨fun he => hc (List.isEmpty_iff.mpr he), h⟩

/-- The filter of a plan is that of what it excludes. -/
theorem filter_ok {glyph : Char} {t : Table} {s : Statement} {p : Plan}
    (h : Plan.ofStatement glyph t s = .ok p) :
    Filter.ofPredicates glyph t p.conjunction p.excluded = .ok p.filter := by
  obtain ⟨primary, -, -, ⟨-, -, hscan⟩ | ⟨-, hquery⟩⟩ := ofStatement_ok h
  · obtain ⟨filter, hfilter, rfl⟩ := scan_ok hscan
    exact hfilter
  · obtain ⟨c, d, hq⟩ := query_ok hquery
    rw [hq.conjunction]
    exact hq.filter

end Rql.Partition

import Rql.Proofs.Partition.Steps
import Rql.Proofs.Predicate.Truth

/-!
# Plans account for every conjunct

A query states one or two of the conjuncts in its key condition and hands on the rest. What could go
wrong is that a conjunct is stated and handed on, or neither: a lost conjunct gives rows that were not
asked for, without any error.

`Accounts` says where every conjunct of a statement went. The conjuncts that the key condition states
are told by their places, so that of two equal comparisons only the first goes; an index whose two
keys have one name states the same place twice. `ofStatement_accounts` is the result for all plans, with
what follows for rows: the key condition and the excluded predicates together say what the statement
says.
-/

namespace Rql.Partition

/-! ## Lists without some of their places -/

/-- `rest` is `xs` without the members at the places where `gone` holds, where the places are counted
from `n`. -/
inductive Without {α : Type} (gone : Nat → Prop) : Nat → List α → List α → Prop where
  | nil {n : Nat} : Without gone n [] []
  | drop {n : Nat} {x : α} {xs rest : List α} :
      gone n → Without gone (n + 1) xs rest → Without gone n (x :: xs) rest
  | keep {n : Nat} {x : α} {xs rest : List α} :
      ¬gone n → Without gone (n + 1) xs rest → Without gone n (x :: xs) (x :: rest)

/-- Taking members out splits what all of them have to satisfy. -/
theorem Without.all_eq_true {α : Type} {gone : Nat → Prop} {n : Nat} {xs rest : List α}
    (h : Without gone n xs rest) (f : α → Bool) :
    xs.all f = true ↔
      (∀ m x, gone (n + m) → xs[m]? = some x → f x = true) ∧ rest.all f = true := by
  induction h with
  | nil => simp
  | @drop n x xs rest hg _ ih =>
    rw [List.all_cons, Bool.and_eq_true, ih]
    constructor
    · rintro ⟨hx, hgone, hrest⟩
      refine ⟨fun m y hm hy => ?_, hrest⟩
      cases m with
      | zero => rw [← Option.some.inj hy]; exact hx
      | succ m => exact hgone m y (by rwa [Nat.add_assoc, Nat.add_comm 1]) hy
    · rintro ⟨hgone, hrest⟩
      refine ⟨hgone 0 x hg rfl, fun m y hm hy => ?_, hrest⟩
      exact hgone (m + 1) y (by rwa [Nat.add_comm m, ← Nat.add_assoc]) hy
  | @keep n x xs rest hg _ ih =>
    rw [List.all_cons, List.all_cons, Bool.and_eq_true, Bool.and_eq_true, ih]
    constructor
    · rintro ⟨hx, hgone, hrest⟩
      refine ⟨fun m y hm hy => ?_, hx, hrest⟩
      cases m with
      | zero => exact absurd hm hg
      | succ m => exact hgone m y (by rwa [Nat.add_assoc, Nat.add_comm 1]) hy
    · rintro ⟨hgone, hx, hrest⟩
      refine ⟨hx, fun m y hm hy => ?_, hrest⟩
      exact hgone (m + 1) y (by rwa [Nat.add_comm m, ← Nat.add_assoc]) hy

theorem without_filter_zipIdx {α : Type} (places : List Nat) :
    ∀ (xs : List α) (n : Nat),
      Without (· ∈ places) n xs
        (((xs.zipIdx n).filter fun (_, m) => !places.contains m).map (·.1)) := by
  intro xs
  induction xs with
  | nil => intro n; exact .nil
  | cons x xs ih =>
    intro n
    rw [List.zipIdx_cons]
    by_cases hn : n ∈ places
    · rw [List.filter_cons_of_neg (by simpa using hn)]
      exact .drop hn (ih (n + 1))
    · rw [List.filter_cons_of_pos (by simpa using hn), List.map_cons]
      exact .keep hn (ih (n + 1))

theorem without_dropPositions (places : List Nat) (ps : List Predicate) :
    Without (· ∈ places) 0 ps (dropPositions places ps) :=
  without_filter_zipIdx places ps 0

/-! ## The first comparison with a field -/

/-- Among the predicates, the one at place `n` is `c`, and it is the first comparison with the
field. -/
structure FirstNaming (field : String) (ps : List Predicate) (n : Nat) (c : Comparison) : Prop where
  here : ps[n]? = some (.compare c)
  names : c.names field = true
  first : ∀ m d, m < n → ps[m]? = some (.compare d) → d.names field = false

theorem comparison?_eq_some {p : Predicate} {c : Comparison} (h : p.comparison? = some c) :
    p = .compare c := by
  cases p with
  | compare d => exact congrArg Predicate.compare (Option.some.inj h)
  | group _ _ => exact absurd h (by simp [Predicate.comparison?])

theorem firstNaming_of_positionOf {field : String} {ps : List Predicate} {n : Nat} {c : Comparison}
    (hpos : positionOf field ps = some n) (hc : ps[n]? = some (.compare c)) :
    FirstNaming field ps n c := by
  obtain ⟨hn, hnames, hfirst⟩ := List.findIdx?_eq_some_iff_getElem.mp hpos
  have here : ps[n] = .compare c := by
    rw [List.getElem?_eq_getElem hn] at hc
    exact Option.some.inj hc
  refine ⟨hc, ?_, ?_⟩
  · rw [here] at hnames
    exact hnames
  · intro m d hm hd
    obtain ⟨_, hd'⟩ := List.getElem?_eq_some_iff.mp hd
    have hnot := hfirst m hm
    rw [hd'] at hnot
    exact Bool.eq_false_iff.mpr hnot

/-- The comparison that goes into a key condition is the one at the place that is taken out. -/
theorem positionOf_of_find? {field : String} {s : Statement} {c : Comparison}
    (h : (required s).find? (Comparison.names field) = some c) :
    ∃ n, positionOf field s.conjuncts = some n ∧ FirstNaming field s.conjuncts n c := by
  rw [required, List.find?_filterMap, List.find?_eq_bind_findIdx?_getElem?] at h
  obtain ⟨p, hp, hc⟩ := Option.bind_eq_some_iff.mp h
  obtain ⟨n, hpos, hn⟩ := Option.bind_eq_some_iff.mp hp
  rw [comparison?_eq_some hc] at hn
  exact ⟨n, hpos, firstNaming_of_positionOf hpos hn⟩

/-- Where no comparison names a field, nothing is taken out for it. -/
theorem positionOf_of_find?_eq_none {field : String} {s : Statement}
    (h : (required s).find? (Comparison.names field) = none) :
    positionOf field s.conjuncts = none
      ∧ ∀ d, Predicate.compare d ∈ s.conjuncts → d.names field = false := by
  have hnone : ∀ d, Predicate.compare d ∈ s.conjuncts → d.names field = false := by
    intro d hd
    exact Bool.eq_false_iff.mpr (List.find?_eq_none.mp h d (mem_required.mpr hd))
  refine ⟨List.findIdx?_eq_none_iff.mpr ?_, hnone⟩
  intro p hp
  cases p with
  | compare d => exact hnone d hp
  | group _ _ => rfl

/-! ## Where the conjuncts went -/

/-- The condition on the partition key is the equality `c`. -/
structure KeyCondition.StatesPartition (t : Table) (index : Index) (k : KeyCondition)
    (c : Comparison) : Prop where
  key : k.partitionKey = index.partitionKey
  eq : c.op = .eq
  value : ∃ l, c.values = [l] ∧ t.bind c.field l = .ok k.partitionValue

/-- The condition on the sort key is the comparison `c`. The start of a text is a text as it stands;
any other value is the one that the column of the field gives it. -/
structure SortCondition.States (t : Table) (sc : SortCondition) (c : Comparison) : Prop where
  field : sc.field = c.field
  op : sc.op = c.op
  fits : c.op.isSortKeyOperator = true
  value : ∃ l, c.values = [l]
    ∧ if c.op = .sw then sc.value = .string l.text else t.bind c.field l = .ok sc.value

/-- The comparisons that a key condition states, each with its place among the conjuncts. -/
inductive Absorbs (t : Table) (index : Index) (ps : List Predicate) (k : KeyCondition) :
    List (Nat × Comparison) → Prop where
  /-- Just the partition key: there is no sort key, or no comparison names it. -/
  | partition {n : Nat} {c : Comparison} :
      FirstNaming index.partitionKey ps n c → k.StatesPartition t index c →
      k.sortKey = none →
      (∀ key, index.sortKey = some key → ∀ d, .compare d ∈ ps → d.names key = false) →
      Absorbs t index ps k [(n, c)]
  /-- Partition key and sort key. -/
  | both {n m : Nat} {c d : Comparison} {key : String} {sc : SortCondition} :
      FirstNaming index.partitionKey ps n c → k.StatesPartition t index c →
      index.sortKey = some key → FirstNaming key ps m d →
      k.sortKey = some sc → sc.States t d →
      Absorbs t index ps k [(n, c), (m, d)]

/-- Where the predicates of a statement went: those of a query into the key condition, as told by
`absorbed`, or among the excluded ones; those of a scan all among the excluded ones. -/
def Plan.Accounts (t : Table) (s : Statement) (p : Plan) (absorbed : List (Nat × Comparison)) :
    Prop :=
  match p.access with
  | .query =>
    (∃ k, p.keyCondition = some k ∧ Absorbs t p.index s.conjuncts k absorbed)
      ∧ Without (· ∈ absorbed.map Prod.fst) 0 s.conjuncts p.excluded
      ∧ p.conjunction = .and
  | .scan =>
    absorbed = [] ∧ p.keyCondition = none ∧ p.excluded = s.predicates
      ∧ p.conjunction = s.conjunction

/-- An absorbed comparison is the conjunct at its place. -/
theorem Absorbs.getElem? {t : Table} {index : Index} {ps : List Predicate} {k : KeyCondition}
    {absorbed : List (Nat × Comparison)} (h : Absorbs t index ps k absorbed) :
    ∀ a ∈ absorbed, ps[a.1]? = some (.compare a.2) := by
  cases h with
  | partition hc _ _ _ =>
    intro a ha
    rw [List.mem_singleton.mp ha]
    exact hc.here
  | both hc _ _ hd _ _ =>
    intro a ha
    rcases List.mem_cons.mp ha with h | h
    · rw [h]; exact hc.here
    · rw [List.mem_singleton.mp h]; exact hd.here

theorem states_of_hasArity {t : Table} {index : Index} {c : Comparison} {k : KeyCondition}
    (ha : c.hasArity = true) (hkey : k.partitionKey = index.partitionKey) (heq : c.op = .eq)
    (hvalue : keyValue t c = .ok k.partitionValue) : k.StatesPartition t index c := by
  obtain ⟨l, hl, hbind⟩ := keyValue_ok hvalue
  obtain ⟨l', hl'⟩ := eq_singleton_of_hasArity ha (by rw [heq]; rfl)
  rw [Comparison.value?, hl'] at hl
  refine ⟨hkey, heq, l, ?_, hbind⟩
  rw [hl', ← Option.some.inj hl]

theorem sortStates_of_fits {t : Table} {c : Comparison} {sc : SortCondition}
    (hfits : fitsSortKey c = true) (h : sortCondition t c = .ok sc) : sc.States t c := by
  obtain ⟨hfield, hop, l, hl, hvalue⟩ := sortCondition_ok h
  rw [fitsSortKey, Bool.and_eq_true, beq_iff_eq] at hfits
  obtain ⟨l', hl'⟩ := List.length_eq_one_iff.mp hfits.2
  rw [Comparison.value?, hl'] at hl
  refine ⟨hfield, hop, hfits.1, l, ?_, hvalue⟩
  rw [hl', ← Option.some.inj hl]

/-- Besides the place of the comparison with the partition key, only that of the comparison with the sort
key is taken out, and only if there is one. -/
theorem absorbedPlaces_cases {index : Index} {s : Statement} {n : Nat} {d : Option Comparison}
    (hn : positionOf index.partitionKey s.conjuncts = some n)
    (hd : d = index.sortKey.bind fun key => (required s).find? (Comparison.names key)) :
    (d = none
        ∧ (∀ key, index.sortKey = some key →
          ∀ c, Predicate.compare c ∈ s.conjuncts → c.names key = false)
        ∧ absorbedPlaces index s = [n])
      ∨ ∃ key c m, d = some c ∧ index.sortKey = some key ∧ c ∈ required s
        ∧ FirstNaming key s.conjuncts m c ∧ absorbedPlaces index s = [n, m] := by
  cases hi : index.sortKey with
  | none =>
    rw [hi, Option.bind_none] at hd
    refine .inl ⟨hd, fun key hkey => absurd hkey (by simp), ?_⟩
    simp [absorbedPlaces, hi, hn]
  | some key =>
    rw [hi, Option.bind_some] at hd
    cases hf : (required s).find? (Comparison.names key) with
    | none =>
      obtain ⟨hpos, hnone⟩ := positionOf_of_find?_eq_none hf
      refine .inl ⟨hd.trans hf, fun key' hkey => ?_, ?_⟩
      · rw [← Option.some.inj hkey]
        exact hnone
      · simp [absorbedPlaces, hi, hn, hpos]
    | some c =>
      obtain ⟨m, hm, hc⟩ := positionOf_of_find? hf
      refine .inr ⟨key, c, m, hd.trans hf, rfl, List.mem_of_find?_eq_some hf, hc, ?_⟩
      simp [absorbedPlaces, hi, hn, hm]

/-- **A query absorbs one or two comparisons and hands on all other conjuncts.** -/
theorem Queried.absorbs {glyph : Char} {t : Table} {s : Statement} {index : Index} {p : Plan}
    {c : Comparison} {d : Option Comparison} (hq : Queried glyph t s index p c d)
    (ha : s.hasArities = true) :
    ∃ absorbed k, p.keyCondition = some k ∧ Absorbs t index s.conjuncts k absorbed
      ∧ absorbedPlaces index s = absorbed.map Prod.fst := by
  obtain ⟨k, hk, hcond⟩ := hq.condition
  obtain ⟨hkey, hvalue, hsort⟩ := ofComparisons_ok hcond
  obtain ⟨hfind, heqs⟩ := partitionComparison_ok hq.partition
  obtain ⟨hd, hfits⟩ := sortComparison_ok hq.sort
  obtain ⟨n, hn, hc⟩ := positionOf_of_find? hfind
  have hmem : c ∈ s.comparisons :=
    Statement.mem_comparisons_of_mem_conjuncts (List.mem_of_getElem? hc.here)
  have hstates : k.StatesPartition t index c :=
    states_of_hasArity (List.all_eq_true.mp ha c hmem) hkey
      (heqs c (List.mem_of_find?_eq_some hfind) hc.names) hvalue
  rcases absorbedPlaces_cases hn hd with
    ⟨rfl, hnone, hplaces⟩ | ⟨key, c', m, rfl, hi, hmem', hc', hplaces⟩
  · exact ⟨[(n, c)], k, hk, .partition hc hstates hsort hnone, hplaces⟩
  · obtain ⟨sc, hsc, hcond'⟩ := hsort
    have hstates' : sc.States t c' := sortStates_of_fits (hfits key hi c' hmem' hc'.names) hcond'
    exact ⟨[(n, c), (m, c')], k, hk, .both hc hstates hi hc' hsc hstates', hplaces⟩

/-- What goes into a key condition and what is left of the conjuncts say what all of them say. -/
theorem all_of_absorbs {t : Table} {index : Index} {ps rest : List Predicate} {k : KeyCondition}
    {absorbed : List (Nat × Comparison)} (ha : Absorbs t index ps k absorbed)
    (hw : Without (· ∈ absorbed.map Prod.fst) 0 ps rest) (v : Comparison → Bool) :
    ps.all (Predicate.holds v)
      = (absorbed.all (fun a => v a.2) && rest.all (Predicate.holds v)) := by
  have hgone : (∀ m x, 0 + m ∈ absorbed.map Prod.fst → ps[m]? = some x → x.holds v = true)
      ↔ absorbed.all (fun a => v a.2) = true := by
    rw [List.all_eq_true]
    constructor
    · intro h a hmem
      exact h a.1 (.compare a.2) (List.mem_map.mpr ⟨a, hmem, (Nat.zero_add _).symm⟩)
        (ha.getElem? a hmem)
    · intro h m x hm hx
      rw [Nat.zero_add] at hm
      obtain ⟨a, hmem, rfl⟩ := List.mem_map.mp hm
      rw [ha.getElem? a hmem] at hx
      rw [← Option.some.inj hx]
      exact h a hmem
  rw [Bool.eq_iff_iff, hw.all_eq_true, Bool.and_eq_true, hgone]

/-- **Planning loses and invents nothing.** Every accepted plan accounts for the predicates of its
statement, and what it absorbs and what it excludes say together what the statement says. -/
theorem ofStatement_accounts {glyph : Char} {t : Table} {s : Statement} {p : Plan}
    (ha : s.hasArities = true) (h : Plan.ofStatement glyph t s = .ok p) :
    ∃ absorbed, p.Accounts t s absorbed ∧ ∀ v : Comparison → Bool,
      s.holds v = (absorbed.all (fun a => v a.2)
        && Predicate.holdTogether v p.conjunction p.excluded) := by
  obtain ⟨primary, -, -, ⟨-, -, hscan⟩ | ⟨hcand, hquery⟩⟩ := ofStatement_ok h
  · obtain ⟨filter, -, rfl⟩ := scan_ok hscan
    exact ⟨[], ⟨rfl, rfl, rfl, rfl⟩, fun v => rfl⟩
  · obtain ⟨c, d, hq⟩ := query_ok hquery
    obtain ⟨absorbed, k, hk, habs, hplaces⟩ := hq.absorbs ha
    have hw : Without (· ∈ absorbed.map Prod.fst) 0 s.conjuncts p.excluded := by
      rw [hq.excluded, hplaces]
      exact without_dropPositions _ _
    refine ⟨absorbed, ?_, fun v => ?_⟩
    · rw [Plan.Accounts, hq.access]
      exact ⟨⟨k, hk, hq.index_eq ▸ habs⟩, hw, hq.conjunction⟩
    · -- a query has a conjunct, so the conjunction of the statement is `and`
      have hand : s.conjunction = .and := by
        cases hconj : s.conjunction with
        | and => rfl
        | or =>
          exfalso
          apply hcand
          rw [required, Statement.conjuncts_or hconj]
          simp [candidates, covers]
      rw [hq.conjunction, Predicate.holdTogether_and, ← Statement.all_conjuncts v hand]
      exact all_of_absorbs habs hw v

/-- A table with two indexes on one partition key. -/
def orders : Table where
  name := "orders"
  backend := .partitionKey
  indexes := [.ofPrimaryKeys "hk" (some "sk"), .ofKeys "by_rank" .localSecondary "hk" (some "rank")]

/-- One comparison stands twice, once inside a group. -/
def repeated : Statement where
  table := "orders"
  predicates := [
    .compare ⟨.eq, "HK", [.bare "1"]⟩,
    .group .and [.compare ⟨.gt, "rank", [.bare "7"]⟩, .compare ⟨.eq, "HK", [.bare "1"]⟩],
    .group .or [.compare ⟨.eq, "hk", [.bare "2"]⟩]]

/-- The second of two equal comparisons is excluded. -/
theorem accounts_repeated :
    ∃ p, repeated.hasArities = true ∧ Plan.ofStatement '*' orders repeated = .ok p
      ∧ p.excluded = [.compare ⟨.eq, "HK", [.bare "1"]⟩,
          .group .or [.compare ⟨.eq, "hk", [.bare "2"]⟩]]
      ∧ ∃ absorbed, p.Accounts orders repeated absorbed ∧ ∀ v : Comparison → Bool,
          repeated.holds v = (absorbed.all (fun a => v a.2)
            && Predicate.holdTogether v p.conjunction p.excluded) := by
  have hex : (Plan.ofStatement '*' orders repeated).toOption.map Plan.excluded
      = some [.compare ⟨.eq, "HK", [.bare "1"]⟩,
          .group .or [.compare ⟨.eq, "hk", [.bare "2"]⟩]] := by decide +kernel
  obtain ⟨p, hp, hpe⟩ := Option.map_eq_some_iff.mp hex
  have hplan := ok_of_toOption hp
  exact ⟨p, rfl, hplan, hpe, ofStatement_accounts rfl hplan⟩

end Rql.Partition

import Rql.Proofs.Partition.Selection

/-!
# The rule of the choice

The choice of an index, told without a scan of the candidates. A conjunct may name the partition key of an
index, so that its rows can be got at; the index serves the statement if besides its sort key is the field
that the rows are ordered by, or is named where no order is asked for. `Chosen` is the rule: of the indexes
that serve the last one, or else of those that can be got at the last one, in whose place the primary index
stands if the two have one partition key.

The rule leaves no choice (`Chosen.unique`), and it is what the planner does (`chosen_iff`). A plan has the
index of the rule and scans the table exactly if no index can be got at (`ofStatement_chosen`). The rule
looks at no index that cannot be got at, so such an index may be put in anywhere and no plan or refusal
changes.
-/

namespace Rql.Partition

variable {t : Table} {s : Statement} {i j primary : Index} {glyph : Char}

/-! ## The last of several -/

/-- `x` is the last of the entries with a property. -/
inductive IsLast {α : Type} (P : α → Prop) : List α → α → Prop where
  | intro {before after : List α} {x : α} :
      P x → (∀ y ∈ after, ¬P y) → IsLast P (before ++ x :: after) x

theorem isLast_iff_getLast? {α : Type} {p : α → Bool} {xs : List α} {x : α} :
    IsLast (fun y => p y = true) xs x ↔ (xs.filter p).getLast? = some x := by
  constructor
  · rintro ⟨hx, hafter⟩
    have hnone := List.filter_eq_nil_iff.mpr hafter
    rw [List.filter_append, List.filter_cons_of_pos hx, hnone, List.getLast?_concat]
  · intro h
    obtain ⟨ys, hys⟩ := List.getLast?_eq_some_iff.mp h
    obtain ⟨front, behind, rfl, -, hbehind⟩ := List.filter_eq_append_iff.mp hys
    obtain ⟨between, after, rfl, -, hx, hafter⟩ := List.filter_eq_cons_iff.mp hbehind
    rw [← List.append_assoc]
    exact .intro hx (List.filter_eq_nil_iff.mp hafter)

namespace IsLast

variable {α : Type} {P : α → Prop} {xs : List α} {x y : α}

theorem holds (h : IsLast P xs x) : P x := by
  cases h with
  | intro hx _ => exact hx

theorem mem (h : IsLast P xs x) : x ∈ xs := by
  cases h with
  | intro _ _ => exact List.mem_append_right _ List.mem_cons_self

theorem unique (hx : IsLast P xs x) (hy : IsLast P xs y) : x = y := by
  classical
  have hP : P = fun z => decide (P z) = true := by simp
  rw [hP, isLast_iff_getLast?] at hx hy
  exact Option.some.inj (hx.symm.trans hy)

end IsLast

/-! ## The rule -/

/-- A conjunct compares the field. -/
def Named (s : Statement) (field : String) : Prop :=
  ∃ c, Predicate.compare c ∈ s.conjuncts ∧ c.names field = true

/-- What the sort key of an index may be good for. -/
inductive SortsFor (s : Statement) (key : String) : Prop where
  /-- The rows are ordered by it. -/
  | ordered {o : Order} : s.order.head? = some o → Text.sameName o.field key = true → SortsFor s key
  /-- No order is asked for, and a conjunct narrows the rows by it. -/
  | narrowed : s.order = [] → Named s key → SortsFor s key

/-- A conjunct names the partition key, and the sort key is good for something. -/
def Serves (s : Statement) (i : Index) : Prop :=
  Named s i.partitionKey ∧ ∃ key, i.sortKey = some key ∧ SortsFor s key

/-- The index that is to be taken. -/
inductive Chosen (t : Table) (s : Statement) (primary : Index) : Index → Prop where
  | serving {i : Index} : IsLast (Serves s) t.indexes i → Chosen t s primary i
  | named {i : Index} : (∀ j ∈ t.indexes, ¬Serves s j) →
      IsLast (fun j => Named s j.partitionKey) t.indexes i →
      Text.sameName i.partitionKey primary.partitionKey = false → Chosen t s primary i
  /-- There is no index to be got at, or the primary index has the partition key of the last one. -/
  | primary : (∀ j ∈ t.indexes, ¬Serves s j) →
      (∀ j, IsLast (fun j => Named s j.partitionKey) t.indexes j →
        Text.sameName j.partitionKey primary.partitionKey = true) → Chosen t s primary primary

/-- **The rule leaves no choice.** -/
theorem Chosen.unique (hi : Chosen t s primary i) (hj : Chosen t s primary j) : i = j := by
  cases hi with
  | serving hi =>
    cases hj with
    | serving hj => exact hi.unique hj
    | named hnone _ _ => exact absurd hi.holds (hnone i hi.mem)
    | primary hnone _ => exact absurd hi.holds (hnone i hi.mem)
  | named hnone hi hother =>
    cases hj with
    | serving hj => exact absurd hj.holds (hnone j hj.mem)
    | named _ hj _ => exact hi.unique hj
    | primary _ hall => exact absurd (hall i hi) (Bool.eq_false_iff.mp hother)
  | primary hnone hall =>
    cases hj with
    | serving hj => exact absurd hj.holds (hnone j hj.mem)
    | named _ hj hother => exact absurd (hall j hj) (Bool.eq_false_iff.mp hother)
    | primary _ _ => rfl

/-! ## What the planner looks at -/

theorem covers_required_iff {field : String} : covers (required s) field = true ↔ Named s field := by
  rw [covers, List.any_eq_true]
  constructor
  · rintro ⟨c, hc, hnames⟩
    exact ⟨c, mem_required.mp hc, hnames⟩
  · rintro ⟨c, hc, hnames⟩
    exact ⟨c, mem_required.mpr hc, hnames⟩

theorem serves_iff : (covers (required s) i.partitionKey
    && serves (required s) s.order.head? i) = true ↔ Serves s i := by
  rw [Bool.and_eq_true, covers_required_iff, Serves]
  refine and_congr_right fun _ => ?_
  cases hkey : i.sortKey with
  | none => simp [serves, hkey]
  | some key =>
    have hone : (∃ k, some key = some k ∧ SortsFor s k) ↔ SortsFor s key := by simp
    rw [hone]
    cases ho : s.order with
    | nil =>
      simp only [serves, hkey, List.head?_nil, covers_required_iff]
      constructor
      · exact .narrowed ho
      · rintro (⟨horder, -⟩ | ⟨-, hnamed⟩)
        · rw [ho] at horder
          exact absurd horder (by simp)
        · exact hnamed
    | cons o rest =>
      simp only [serves, hkey, List.head?_cons]
      constructor
      · exact .ordered (by rw [ho, List.head?_cons])
      · rintro (⟨horder, hsame⟩ | ⟨hnil, -⟩)
        · rw [ho, List.head?_cons] at horder
          rwa [Option.some.inj horder]
        · rw [ho] at hnil
          exact absurd hnil (List.cons_ne_nil o rest)

theorem getLast?_candidates :
    (candidates t (required s)).getLast? = some i
      ↔ IsLast (fun j => Named s j.partitionKey) t.indexes i := by
  have hcovers : (fun j : Index => Named s j.partitionKey)
      = fun j => covers (required s) j.partitionKey = true :=
    funext fun j => propext covers_required_iff.symm
  rw [hcovers, isLast_iff_getLast?, candidates]

theorem lastServing_iff :
    lastServing (required s) s.order.head? (candidates t (required s)) = some i
      ↔ IsLast (Serves s) t.indexes i := by
  have hserves : Serves s = fun j =>
      (serves (required s) s.order.head? j && covers (required s) j.partitionKey) = true :=
    funext fun j => propext (by rw [Bool.and_comm, serves_iff])
  rw [hserves, isLast_iff_getLast?, lastServing_eq, candidates, List.filter_filter]

theorem lastServing_eq_none_iff :
    lastServing (required s) s.order.head? (candidates t (required s)) = none
      ↔ ∀ j ∈ t.indexes, ¬Serves s j := by
  rw [lastServing_eq, candidates, List.filter_filter, List.getLast?_eq_none_iff,
    List.filter_eq_nil_iff]
  refine forall₂_congr fun j _ => not_congr ?_
  rw [Bool.and_comm, serves_iff]

theorem candidates_eq_nil_iff :
    candidates t (required s) = [] ↔ ∀ j ∈ t.indexes, ¬Named s j.partitionKey := by
  rw [candidates, List.filter_eq_nil_iff]
  exact forall₂_congr fun j _ => not_congr covers_required_iff

/-- **The planner follows the rule.** -/
theorem chosen_chooseIndex :
    Chosen t s primary (chooseIndex t (required s) s.order.head? primary) := by
  rw [chooseIndex]
  cases hserving : lastServing (required s) s.order.head? (candidates t (required s)) with
  | some k => exact .serving (lastServing_iff.mp hserving)
  | none =>
    have hnone := lastServing_eq_none_iff.mp hserving
    cases hfound : (candidates t (required s)).getLast? with
    | none =>
      refine .primary hnone fun j hj => ?_
      rw [getLast?_candidates.mpr hj] at hfound
      exact absurd hfound (by simp)
    | some k =>
      have hlast := getLast?_candidates.mp hfound
      dsimp only
      by_cases hsame : Text.sameName k.partitionKey primary.partitionKey = true
      · rw [if_pos hsame]
        exact .primary hnone fun j hj => by rw [hj.unique hlast]; exact hsame
      · rw [if_neg hsame]
        exact .named hnone hlast (Bool.eq_false_iff.mpr hsame)

/-- **The rule is what the planner does.** -/
theorem chosen_iff :
    Chosen t s primary i ↔ i = chooseIndex t (required s) s.order.head? primary := by
  constructor
  · intro h
    exact h.unique chosen_chooseIndex
  · rintro rfl
    exact chosen_chooseIndex

/-! ## Indexes that are not looked at -/

/-- An index that is not primary and whose partition key no conjunct names is not looked at. -/
theorem ofStatement_insert {before after : List Index} (ht : t.indexes = before ++ after)
    (hp : t.primaryIndex? = some primary) (hj : j.isPrimary = false)
    (hnamed : ¬Named s j.partitionKey) :
    Plan.ofStatement glyph { t with indexes := before ++ j :: after } s
      = Plan.ofStatement glyph t s := by
  have hprimary : ({ t with indexes := before ++ j :: after } : Table).primaryIndex?
      = t.primaryIndex? := by
    rw [Table.primaryIndex?, Table.primaryIndex?, ht, List.find?_append, List.find?_append,
      List.find?_cons, hj]
  by_cases ho : s.order.length ≤ 1
  · have hskip : (j :: after).filter (fun i => covers (required s) i.partitionKey)
        = after.filter fun i => covers (required s) i.partitionKey :=
      List.filter_cons_of_neg fun h => hnamed (covers_required_iff.mp h)
    have hcandidates : candidates { t with indexes := before ++ j :: after } (required s)
        = candidates t (required s) := by
      rw [candidates, candidates, ht, List.filter_append, List.filter_append, hskip]
    have hchoice : choice { t with indexes := before ++ j :: after } s primary
        = choice t s primary := by
      rw [choice, choice, chooseIndex, chooseIndex, hcandidates]
    rw [ofStatement_eq (hprimary.trans hp) ho, ofStatement_eq hp ho, planOver_indexes, hchoice]
  · -- a second order is refused before any index is looked at
    obtain ⟨first, second, rest, hs⟩ : ∃ first second rest, s.order = first :: second :: rest := by
      cases hs : s.order with
      | nil => simp [hs] at ho
      | cons first tail =>
        cases tail with
        | nil => simp [hs] at ho
        | cons second rest => exact ⟨first, second, rest, rfl⟩
    rw [Plan.ofStatement, Plan.ofStatement, hprimary, hp, hs]

/-- **A plan has the index of the rule**, and it is a scan exactly if no conjunct names a partition key.
An index whose partition key is not named changes neither plan nor refusal, wherever it stands. -/
theorem ofStatement_chosen (glyph : Char) (s : Statement) (hp : t.primaryIndex? = some primary) :
    (∀ p, Plan.ofStatement glyph t s = .ok p →
        (∀ i, Chosen t s primary i ↔ i = p.index)
          ∧ (p.access = .scan ↔ ∀ i ∈ t.indexes, ¬Named s i.partitionKey))
      ∧ ∀ before after j, t.indexes = before ++ after → j.isPrimary = false →
          ¬Named s j.partitionKey →
          Plan.ofStatement glyph { t with indexes := before ++ j :: after } s
            = Plan.ofStatement glyph t s := by
  refine ⟨fun p h => ?_, fun before after j ht hj hnamed => ofStatement_insert ht hp hj hnamed⟩
  obtain ⟨primary', hp', -, ⟨hnil, -, hscan⟩ | ⟨hne, hquery⟩⟩ := ofStatement_ok h
  all_goals obtain rfl := Option.some.inj (hp.symm.trans hp')
  · obtain ⟨filter, -, rfl⟩ := scan_ok hscan
    have hchosen : chooseIndex t (required s) s.order.head? primary = primary := by
      rw [chooseIndex, hnil]
      rfl
    refine ⟨fun i => ?_, fun _ => candidates_eq_nil_iff.mp hnil, fun _ => rfl⟩
    rw [chosen_iff, hchosen]
  · obtain ⟨c, d, hq⟩ := query_ok hquery
    refine ⟨fun i => ?_, fun hscan => ?_, fun hnone => ?_⟩
    · rw [chosen_iff, hq.index_eq]
    · rw [hq.access] at hscan
      exact absurd hscan (by simp)
    · exact absurd (candidates_eq_nil_iff.mpr hnone) hne

/-- A table with an index that shares the partition key of the primary one, and one on another key. -/
def crates : Table where
  name := "crates"
  backend := .partitionKey
  columns := [{ name := "weight", type := "N" }]
  indexes := [.ofPrimaryKeys "depot" (some "number"),
    .ofKeys "by_weight" .localSecondary "depot" (some "weight"),
    .ofKeys "by_state" .globalSecondary "state" none]

/-- An index on a key of its own. -/
def byOwner : Index := .ofKeys "by_owner" .globalSecondary "owner" (some "weight")

/-- The heavy crates of a depot that are on their way. -/
def heavyCrates : Statement where
  table := "crates"
  predicates := [.compare ⟨.eq, "state", [.bare "sent"]⟩, .compare ⟨.eq, "DEPOT", [.bare "7"]⟩,
    .group .and [.compare ⟨.ge, "weight", [.bare "30"]⟩]]

/-- The index that serves is taken, not the last one that is named. One on a field that is not named may
stand in front of it. -/
theorem chosen_heavyCrates :
    crates.primaryIndex? = some (.ofPrimaryKeys "depot" (some "number"))
      ∧ ∃ p, Plan.ofStatement '*' crates heavyCrates = .ok p
        ∧ p.index.name = "by_weight" ∧ p.access = .query
        ∧ (∀ i, Chosen crates heavyCrates (.ofPrimaryKeys "depot" (some "number")) i ↔ i = p.index)
        ∧ Plan.ofStatement '*'
            { crates with indexes := crates.indexes.take 1 ++ byOwner :: crates.indexes.drop 1 }
            heavyCrates = .ok p := by
  have hp : crates.primaryIndex? = some (.ofPrimaryKeys "depot" (some "number")) := rfl
  have howner : ¬Named heavyCrates byOwner.partitionKey := by
    rw [← covers_required_iff]
    decide
  obtain ⟨p, hplan, hname, haccess⟩ : ∃ p, Plan.ofStatement '*' crates heavyCrates = .ok p
      ∧ p.index.name = "by_weight" ∧ p.access = .query := ⟨_, rfl, rfl, rfl⟩
  have hrule := ofStatement_chosen '*' heavyCrates hp
  refine ⟨hp, p, hplan, hname, haccess, (hrule.1 p hplan).1, ?_⟩
  have hinsert := hrule.2 (crates.indexes.take 1) (crates.indexes.drop 1) byOwner
    (List.take_append_drop 1 crates.indexes).symm rfl howner
  exact hinsert.trans hplan

end Rql.Partition

import Rql.Proofs.Partition.Refusals
import Rql.Proofs.Partition.Selection

/-!
# Orders are honoured or refused

A partition comes in the order of the sort key of its index and in no other. A request for an order can
so be met only by an index that sorts on the field, and only if a conjunct names the partition key of
that index. `sortsFor` says which indexes these are, and `lastSorting` picks the last of them.

An order enters a plan in three places: how many fields it may have, which index is taken, and whether
that index sorts on the field. The result, `ofStatement_order`, is about all three together: with such
an index a request is never refused for its order, and a plan uses the last one; without one there is no
plan. The primary index might come in between, as it replaces an index of no use. It cannot, since
whatever is taken is a candidate itself (`chooseIndex_mem`).
-/

namespace Rql.Partition

variable {t : Table} {s : Statement} {index primary : Index} {o : Order}

/-- The index sorts on the field, and a conjunct names its partition key. -/
def sortsFor (s : Statement) (field : String) (i : Index) : Bool :=
  covers (required s) i.partitionKey && i.sortsOn field

/-- The last index of the table that gives the rows of a statement in the order of a field. -/
def lastSorting (t : Table) (s : Statement) (field : String) : Option Index :=
  (t.indexes.filter (sortsFor s field)).getLast?

/-! ## The index that is taken -/

theorem serves_order (cs : List Comparison) (o : Order) (i : Index) :
    serves cs (some o) i = i.sortsOn o.field := by
  rw [Index.sortsOn]
  cases hk : i.sortKey with
  | none => simp only [serves, hk, Option.any_none]
  | some key => simp only [serves, hk, Option.any_some, Text.sameName_comm o.field key]

/-- **The candidate that serves an order last is the last index that gives it.** -/
theorem lastServing_candidates (t : Table) (s : Statement) (o : Order) :
    lastServing (required s) (some o) (candidates t (required s)) = lastSorting t s o.field := by
  rw [lastServing_eq, candidates, List.filter_filter, lastSorting]
  congr 2
  funext i
  rw [serves_order, sortsFor, Bool.and_comm]

theorem chooseIndex_of_lastSorting (h : lastSorting t s o.field = some index) :
    chooseIndex t (required s) (some o) primary = index := by
  rw [chooseIndex, lastServing_candidates, h]

/-- An index that is taken and sorts on the field is the last one that does. -/
theorem lastSorting_of_chooseIndex (hp : t.primaryIndex? = some primary)
    (hc : candidates t (required s) ≠ [])
    (h : (chooseIndex t (required s) (some o) primary).sortsOn o.field = true) :
    lastSorting t s o.field = some (chooseIndex t (required s) (some o) primary) := by
  cases hlast : lastSorting t s o.field with
  | some i => rw [chooseIndex_of_lastSorting hlast]
  | none =>
    obtain ⟨hmem, hcov⟩ := List.mem_filter.mp (chooseIndex_mem (some o) hp hc)
    have hnone := List.filter_eq_nil_iff.mp (List.getLast?_eq_none_iff.mp hlast) _ hmem
    rw [sortsFor, hcov, h] at hnone
    exact absurd rfl hnone

/-! ## The order of a plan -/

theorem resolveOrder_some {narrowed : Bool} {order : Option Order}
    (h : resolveOrder index (some o) narrowed = .ok order) :
    index.sortsOn o.field = true ∧ order = some o := by
  rw [Index.sortsOn]
  cases hk : index.sortKey with
  | none =>
    simp only [resolveOrder, hk] at h
    exact absurd h (by simp)
  | some key =>
    simp only [resolveOrder, hk] at h
    split at h
    · rename_i hsame
      rw [Text.sameName_comm] at hsame
      exact ⟨hsame, (Except.ok.inj h).symm⟩
    · exact absurd h (by simp)

theorem resolveOrder_of_sortsOn (narrowed : Bool) (h : index.sortsOn o.field = true) :
    resolveOrder index (some o) narrowed = .ok (some o) := by
  rw [Index.sortsOn] at h
  cases hk : index.sortKey with
  | none =>
    rw [hk] at h
    exact absurd h (by simp)
  | some key =>
    rw [hk, Option.any_some, Text.sameName_comm] at h
    simp only [resolveOrder, hk, h, if_true]

theorem resolveOrder_none (index : Index) (narrowed : Bool) :
    resolveOrder index none narrowed
      = .ok (if narrowed then index.sortKey.map (⟨·, .asc⟩) else none) := by
  cases hk : index.sortKey with
  | none => cases narrowed <;> simp only [resolveOrder, hk] <;> rfl
  | some key => simp only [resolveOrder, hk]; rfl

/-! ## What a request may be refused for -/

/-- The error is not about the order. -/
def AllowsOrder (e : Error) : Prop :=
  ∀ field limit, e ≠ .unsupportedSort field limit

/-- **An index that sorts on the field is never refused for the order.** -/
theorem allowsOrder_query (glyph : Char) (t : Table) (ho : s.order = [o])
    (h : index.sortsOn o.field = true) :
    RefusesBy AllowsOrder (Plan.query glyph t s (required s) index) := by
  refine refusesBy_query ?_ ?_ ?_ ?_ ?_
  · exact refusesBy_partitionComparison (fun _ _ _ _ _ _ => Error.noConfusion)
      fun _ _ _ => Error.noConfusion
  · exact refusesBy_sortComparison fun _ _ _ _ _ _ _ _ => Error.noConfusion
  · intro narrowed
    rw [ho, List.head?_cons, resolveOrder_of_sortsOn narrowed h]
    exact .ok _
  · exact fun _ _ _ _ _ _ => Error.noConfusion
  · exact fun _ _ _ _ _ => refusesBy_bind fun _ _ _ _ => Error.noConfusion

/-! ## Requests with an order -/

theorem exists_lastSorting (h : ∃ i ∈ t.indexes, sortsFor s o.field i = true) :
    ∃ i, lastSorting t s o.field = some i := by
  obtain ⟨i, hi, hsorts⟩ := h
  have hne := List.ne_nil_of_mem (List.mem_filter.mpr ⟨hi, hsorts⟩)
  exact ⟨_, List.getLast?_eq_some_getLast hne⟩

theorem lastSorting_mem (h : lastSorting t s o.field = some index) :
    index ∈ candidates t (required s) ∧ index.sortsOn o.field = true := by
  obtain ⟨hindex, hsorts⟩ := List.mem_filter.mp (List.mem_of_getLast? h)
  rw [sortsFor, Bool.and_eq_true] at hsorts
  exact ⟨List.mem_filter.mpr ⟨hindex, hsorts.1⟩, hsorts.2⟩

variable {glyph : Char} {p : Plan}

theorem ofStatement_of_lastSorting (hp : t.primaryIndex? = some primary) (ho : s.order = [o])
    (h : lastSorting t s o.field = some index) :
    Plan.ofStatement glyph t s = Plan.query glyph t s (required s) index := by
  have hc : (candidates t (required s)).isEmpty = false :=
    List.isEmpty_eq_false_iff.mpr (List.ne_nil_of_mem (lastSorting_mem h).1)
  rw [Plan.ofStatement, hp, ho]
  show (if (candidates t (required s)).isEmpty then _
    else Plan.query glyph t s (required s)
      (chooseIndex t (required s) (some o) primary)) = _
  rw [hc, if_neg Bool.false_ne_true, chooseIndex_of_lastSorting h]

/-- What becomes of a request for one order. -/
structure Honours (glyph : Char) (t : Table) (s : Statement) (o : Order) : Prop where
  /-- A plan gives exactly the order that was asked for, from an index that sorts on the field. -/
  honoured : ∀ p, Plan.ofStatement glyph t s = .ok p →
    p.access = .query ∧ p.index.sortsOn o.field = true ∧ p.order = some o
  /-- Of several such indexes it uses the last. -/
  last : ∀ p, Plan.ofStatement glyph t s = .ok p → lastSorting t s o.field = some p.index
  /-- Without such an index there is no plan. -/
  refused : (∀ i ∈ t.indexes, sortsFor s o.field i = false) →
    ∃ e, Plan.ofStatement glyph t s = .error e
  /-- With one, the order is no reason to refuse the request. -/
  allowed : (∃ i ∈ t.indexes, sortsFor s o.field i = true) →
    RefusesBy AllowsOrder (Plan.ofStatement glyph t s)

/-- **A plan gives the order from the last index that has it.** -/
theorem order_of_ofStatement (ho : s.order = [o]) (h : Plan.ofStatement glyph t s = .ok p) :
    (p.access = .query ∧ p.index.sortsOn o.field = true ∧ p.order = some o)
      ∧ lastSorting t s o.field = some p.index := by
  obtain ⟨primary, hp, -, ⟨-, hnone, -⟩ | ⟨hc, hquery⟩⟩ := ofStatement_ok h
  · rw [ho] at hnone
    exact absurd hnone (List.cons_ne_nil o [])
  · obtain ⟨c, d, hq⟩ := query_ok hquery
    have horder := hq.order
    rw [ho, List.head?_cons] at horder
    obtain ⟨hsorts, hres⟩ := resolveOrder_some horder
    rw [hq.index_eq, ho, List.head?_cons]
    exact ⟨⟨hq.access, hsorts, hres⟩, lastSorting_of_chooseIndex hp hc hsorts⟩

theorem honours (hp : t.primaryIndex? = some primary) (ho : s.order = [o]) :
    Honours glyph t s o where
  honoured p h := (order_of_ofStatement ho h).1
  last p h := (order_of_ofStatement ho h).2
  refused h := by
    cases hplan : Plan.ofStatement glyph t s with
    | error e => exact ⟨e, rfl⟩
    | ok p =>
      have hlast := List.mem_filter.mp (List.mem_of_getLast? (order_of_ofStatement ho hplan).2)
      exact absurd hlast.2 (by rw [h _ hlast.1]; exact Bool.false_ne_true)
  allowed h := by
    obtain ⟨i, hi⟩ := exists_lastSorting h
    rw [ofStatement_of_lastSorting hp ho hi]
    exact allowsOrder_query glyph t ho (lastSorting_mem hi).2

/-! ## Requests without an order -/

/-- The condition of a plan on the sort key. -/
def Plan.sortCondition? (p : Plan) : Option SortCondition :=
  p.keyCondition.bind KeyCondition.sortKey

/-- The order of a plan where none was asked for. -/
structure Plan.InOwnOrder (p : Plan) : Prop where
  /-- An index that is narrowed by its sort key gives its rows in ascending order of this key. -/
  narrowed : ∀ sc, p.sortCondition? = some sc →
    ∃ key, p.index.sortKey = some key ∧ p.order = some ⟨key, .asc⟩
  /-- Nothing else has an order. -/
  free : p.sortCondition? = none → p.order = none

theorem inOwnOrder_of_queried {c : Comparison} {d : Option Comparison}
    (hq : Queried glyph t s index p c d) (ho : s.order = []) : p.InOwnOrder := by
  obtain ⟨k, hk, hcond⟩ := hq.condition
  obtain ⟨-, -, hsort⟩ := ofComparisons_ok hcond
  have horder := hq.order
  rw [ho, List.head?_nil, resolveOrder_none] at horder
  have hcondition : p.sortCondition? = k.sortKey := by
    rw [Plan.sortCondition?, hk, Option.bind_some]
  cases d with
  | none =>
    have hnone : k.sortKey = none := hsort
    refine ⟨fun sc hsc => ?_, fun _ => (Except.ok.inj horder).symm⟩
    rw [hcondition, hnone] at hsc
    exact absurd hsc (by simp)
  | some d =>
    obtain ⟨sc, hsc, -⟩ := hsort
    -- a comparison was absorbed, so the index has a sort key that it names
    obtain ⟨key, hkey, -⟩ := Option.bind_eq_some_iff.mp (sortComparison_ok hq.sort).1.symm
    rw [hkey] at horder
    refine ⟨fun _ _ => ⟨key, hq.index_eq ▸ hkey, (Except.ok.inj horder).symm⟩, fun hnone => ?_⟩
    rw [hcondition, hsc] at hnone
    exact absurd hnone (by simp)

theorem inOwnOrder (ho : s.order = []) (h : Plan.ofStatement glyph t s = .ok p) :
    p.InOwnOrder := by
  obtain ⟨primary, -, -, ⟨-, -, hscan⟩ | ⟨-, hquery⟩⟩ := ofStatement_ok h
  · obtain ⟨filter, -, rfl⟩ := scan_ok hscan
    exact ⟨fun sc hsc => absurd hsc (by simp [Plan.sortCondition?]), fun _ => rfl⟩
  · obtain ⟨c, d, hq⟩ := query_ok hquery
    exact inOwnOrder_of_queried hq ho

/-- **An order that is asked for is honoured exactly or refused**: several orders always, one order
unless an index has it. Where none is asked for, rows have the order of the sort key that narrows them. -/
theorem ofStatement_order (hp : t.primaryIndex? = some primary) :
    (∀ first second rest, s.order = first :: second :: rest →
        Plan.ofStatement glyph t s = .error (.unsupportedSort second.field .singleKey))
      ∧ (∀ o, s.order = [o] → Honours glyph t s o)
      ∧ (s.order = [] → ∀ p, Plan.ofStatement glyph t s = .ok p → p.InOwnOrder) := by
  refine ⟨fun first second rest ho => ?_, fun o ho => honours hp ho, fun ho p h => inOwnOrder ho h⟩
  rw [Plan.ofStatement, hp, ho]

/-- Three indexes sort on one field. -/
def shipments : Table where
  name := "shipments"
  backend := .partitionKey
  indexes := [.ofPrimaryKeys "id" none, .ofKeys "by_state" .globalSecondary "state" (some "sent"),
    .ofKeys "by_owner" .globalSecondary "owner" (some "Sent"),
    .ofKeys "by_day" .globalSecondary "day" (some "sent")]

/-- The partition keys of the primary index and of two that sort on the field are named. -/
def latestFirst : Statement where
  table := "shipments"
  predicates := [.compare ⟨.eq, "owner", [.bare "ann"]⟩, .compare ⟨.eq, "id", [.bare "7"]⟩,
    .compare ⟨.eq, "state", [.bare "open"]⟩]
  order := [⟨"SENT", .desc⟩]

/-- The last of the two is used, although it comes first among the predicates. -/
theorem order_latestFirst :
    ∃ p, shipments.primaryIndex? = some (.ofPrimaryKeys "id" none)
      ∧ Plan.ofStatement '*' shipments latestFirst = .ok p
      ∧ p.index.name = "by_owner" ∧ p.order = some ⟨"SENT", .desc⟩
      ∧ Honours '*' shipments latestFirst ⟨"SENT", .desc⟩ := by
  have hp : shipments.primaryIndex? = some (.ofPrimaryKeys "id" none) := rfl
  have hname : (Plan.ofStatement '*' shipments latestFirst).toOption.map (·.index.name)
      = some "by_owner" := by decide +kernel
  obtain ⟨p, hplan, hindex⟩ := Option.map_eq_some_iff.mp hname
  have hok := ok_of_toOption hplan
  have honours : Honours '*' shipments latestFirst ⟨"SENT", .desc⟩ :=
    (ofStatement_order hp).2.1 _ rfl
  exact ⟨p, hp, hok, hindex, (honours.honoured p hok).2.2, honours⟩

end Rql.Partition

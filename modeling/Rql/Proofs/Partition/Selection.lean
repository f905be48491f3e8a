import Rql.Proofs.Lists
import Rql.Proofs.Partition.Steps
import Rql.Proofs.Predicate.Truth

/-!
# The index that is taken

Whatever index is taken for a query, a conjunct names its partition key (`chooseIndex_mem`). That is not
quite plain, since the primary index may replace one of no further use without being looked at again.

`choice` is the outcome of all that goes before the first comparison with a key: the index to query, or
none if the table is scanned. A statement with at most one order is carried out by it and nothing else
(`ofStatement_eq`), and the other indexes of the table have no part in that (`planOver_indexes`).
-/

namespace Rql.Partition

variable {t : Table} {s : Statement} {index primary : Index}

theorem lastServing_eq (cs : List Comparison) (order : Option Order) (is : List Index) :
    lastServing cs order is = (is.filter (serves cs order)).getLast? := by
  rw [lastServing, foldl_found, Option.or_none]

theorem covers_congr {cs : List Comparison} {a b : String} (h : Text.sameName a b = true) :
    covers cs a = covers cs b := by
  have hnames : Comparison.names a = Comparison.names b := by
    funext c
    rw [Bool.eq_iff_iff]
    exact ⟨fun hc => Text.sameName_trans hc h,
      fun hc => Text.sameName_trans hc (Text.sameName_comm a b ▸ h)⟩
  rw [covers, covers, hnames]

theorem primary_mem (h : t.primaryIndex? = some primary) : primary ∈ t.indexes :=
  List.mem_of_find?_eq_some h

/-- **The index that is taken is a candidate**, the primary index included. -/
theorem chooseIndex_mem {cs : List Comparison} (order : Option Order)
    (hp : t.primaryIndex? = some primary) (hc : candidates t cs ≠ []) :
    chooseIndex t cs order primary ∈ candidates t cs := by
  rw [chooseIndex, lastServing_eq]
  cases hserving : ((candidates t cs).filter (serves cs order)).getLast? with
  | some i => exact List.mem_of_mem_filter (List.mem_of_getLast? hserving)
  | none =>
    cases hlast : (candidates t cs).getLast? with
    | none => exact absurd (List.getLast?_eq_none_iff.mp hlast) hc
    | some i =>
      have hi := List.mem_of_getLast? hlast
      dsimp only
      split
      · -- the primary index has a partition key that is named as well
        rename_i hsame
        refine List.mem_filter.mpr ⟨primary_mem hp, ?_⟩
        rw [← covers_congr hsame]
        exact (List.mem_filter.mp hi).2
      · exact hi

theorem covers_chooseIndex {cs : List Comparison} (order : Option Order)
    (hp : t.primaryIndex? = some primary) (hc : candidates t cs ≠ []) :
    covers cs (chooseIndex t cs order primary).partitionKey = true :=
  (List.mem_filter.mp (chooseIndex_mem order hp hc)).2

/-- The index that a statement queries; none if no conjunct names a partition key. -/
def choice (t : Table) (s : Statement) (primary : Index) : Option Index :=
  if (candidates t (required s)).isEmpty then none
  else some (chooseIndex t (required s) s.order.head? primary)

/-- Whatever is chosen, a conjunct names its partition key. -/
theorem covers_of_choice (hp : t.primaryIndex? = some primary)
    (hi : choice t s primary = some index) : covers (required s) index.partitionKey = true := by
  rw [choice] at hi
  split at hi
  · exact absurd hi (by simp)
  · next hcandidates =>
    rw [← Option.some.inj hi]
    exact covers_chooseIndex s.order.head? hp fun he => hcandidates (List.isEmpty_iff.mpr he)

/-- The plan by way of the index that was chosen. -/
def planOver (glyph : Char) (t : Table) (s : Statement) (primary : Index) :
    Option Index → Except Error Plan
  | some i => Plan.query glyph t s (required s) i
  | none =>
    match s.order.head? with
    | some o => .error (.unsupportedSort o.field .scan)
    | none => Plan.scan glyph t s primary

theorem ofStatement_eq {glyph : Char} (hp : t.primaryIndex? = some primary)
    (ho : s.order.length ≤ 1) :
    Plan.ofStatement glyph t s = planOver glyph t s primary (choice t s primary) := by
  have hchoice : planOver glyph t s primary (choice t s primary)
      = if (candidates t (required s)).isEmpty then planOver glyph t s primary none
        else Plan.query glyph t s (required s)
          (chooseIndex t (required s) s.order.head? primary) := by
    rw [choice]
    split <;> rfl
  rw [hchoice, Plan.ofStatement, hp]
  match hs : s.order with
  | [] => simp only [planOver, hs]; rfl
  | [o] => simp only [planOver, hs]; rfl
  | _ :: _ :: _ => simp [hs] at ho

/-! ## What does not depend on the indexes -/

section Indexes

variable {glyph : Char} {is : List Index}

namespace Condition

theorem ofPredicates_indexes (qs : List Predicate) :
    ofPredicates glyph { t with indexes := is } qs = ofPredicates glyph t qs := by
  have hleaf : ofComparison glyph { t with indexes := is } = ofComparison glyph t := rfl
  have h := compiles glyph { t with indexes := is }
  rw [hleaf] at h
  exact h.members_eq (compiles glyph t) qs

end Condition

theorem filter_indexes (c : Conjunction) (qs : List Predicate) :
    Filter.ofPredicates glyph { t with indexes := is } c qs = Filter.ofPredicates glyph t c qs := by
  cases qs with
  | nil => rfl
  | cons q qs =>
    rw [Filter.ofPredicates, Condition.ofPredicates_indexes]
    · rfl
    · exact List.cons_ne_nil q qs

theorem planOver_indexes (chosen : Option Index) :
    planOver glyph { t with indexes := is } s primary chosen = planOver glyph t s primary chosen := by
  cases chosen with
  | none =>
    rw [planOver, planOver, Plan.scan, Plan.scan, filter_indexes]
  | some i =>
    rw [planOver, planOver, Plan.query, Plan.query]
    simp only [filter_indexes]
    rfl

end Indexes

end Rql.Partition

import Rql.Proofs.Lists
import Rql.Proofs.Predicate.Truth
import Rql.Proofs.Sql.Steps

/-!
# What a statement is refused for

A compilation goes over the comparisons from left to right and then over the order, and stops at the
first that it can do nothing with. For a comparison that is one whose field names no column, or else a
full-text search; for an order it is one whose field names no column.

`refused_at_first` says which error a statement with as many values as its operators take is refused
with, and that there is no other reason to refuse one.
-/

namespace Rql

/-- A column of the table has this name, whatever the case of its letters. -/
def Table.Has (t : Table) (field : String) : Prop :=
  ∃ c ∈ t.columns, Text.sameName c.name field = true

namespace Sql

variable {d : Dialect} {glyph : Char} {t : Table} {c : Comparison} {s : Statement} {e : Error}

/-- The comparison has a form in SQL. -/
structure Fits (t : Table) (c : Comparison) : Prop where
  has : t.Has c.field
  op : c.op ≠ .search

/-- What a comparison is refused with. Its field is looked at first. -/
inductive RefusedWith (t : Table) (c : Comparison) : Error → Prop
  | unknown (h : ¬t.Has c.field) : RefusedWith t c (.unknownField t.name c.field)
  | search (h : t.Has c.field) (hop : c.op = .search) :
      RefusedWith t c (.unsupportedOperator .search c.field .noFullText)

theorem not_fits_iff : ¬Fits t c ↔ ¬t.Has c.field ∨ c.op = .search := by
  constructor
  · intro h
    by_contra hnot
    obtain ⟨hhas, hop⟩ := not_or.mp hnot
    exact h ⟨not_not.mp hhas, hop⟩
  · rintro (h | h) hfits
    · exact h hfits.has
    · exact hfits.op h

/-! ## One field, one comparison -/

theorem column?_isSome_iff {field : String} : (t.column? field).isSome ↔ t.Has field := by
  rw [Table.column?, List.find?_isSome]
  rfl

theorem exists_column_iff {field : String} : (∃ col, column t field = .ok col) ↔ t.Has field := by
  rw [← column?_isSome_iff, column]
  cases t.column? field <;> simp

theorem column_eq_error_iff {field : String} :
    column t field = .error e ↔ ¬t.Has field ∧ e = .unknownField t.name field := by
  rw [← column?_isSome_iff, column]
  cases t.column? field <;> simp [eq_comm]

namespace Condition

/-- On a column every operator but the full-text search has a condition. -/
theorem exists_ofColumn (glyph : Char) (col : ColumnRef) (ha : c.hasArity = true)
    (hop : c.op ≠ .search) : ∃ cond, ofColumn glyph col c = .ok cond := by
  obtain ⟨op, field, values⟩ := c
  cases op with
  | eq | ne | gt | ge | lt | le =>
    obtain ⟨l, rfl⟩ := eq_singleton_of_hasArity ha rfl
    exact ⟨_, rfl⟩
  | search => exact absurd rfl hop
  | _ => exact ⟨_, rfl⟩

theorem ofColumn_search (hop : c.op = .search) (col : ColumnRef) :
    ofColumn glyph col c = .error (.unsupportedOperator .search c.field .noFullText) := by
  rw [ofColumn, hop]

theorem ofComparison_of_fits (glyph : Char) (ha : c.hasArity = true) (h : Fits t c) :
    ∃ cond, ofComparison glyph t c = .ok cond := by
  obtain ⟨col, hcol⟩ := exists_column_iff.mpr h.has
  obtain ⟨cond, hcond⟩ := exists_ofColumn glyph col ha h.op
  rw [ofComparison_eq, hcol]
  exact ⟨cond, hcond⟩

theorem ofComparison_of_refusedWith (h : RefusedWith t c e) :
    ofComparison glyph t c = .error e := by
  rw [ofComparison_eq]
  cases h with
  | unknown h =>
    rw [column_eq_error_iff.mpr ⟨h, rfl⟩]
    rfl
  | search h hop =>
    obtain ⟨col, hcol⟩ := exists_column_iff.mpr h
    rw [hcol]
    exact ofColumn_search hop col

/-- A comparison fits, or there is something to refuse it with. -/
theorem fits_or_refusedWith (t : Table) (c : Comparison) : Fits t c ∨ ∃ e, RefusedWith t c e := by
  by_cases hhas : t.Has c.field
  · by_cases hop : c.op = .search
    · exact .inr ⟨_, .search hhas hop⟩
    · exact .inl ⟨hhas, hop⟩
  · exact .inr ⟨_, .unknown hhas⟩

theorem refusal?_eq_none_iff_fits (ha : c.hasArity = true) :
    refusal? (ofComparison glyph t c) = none ↔ Fits t c := by
  rw [refusal?_eq_none_iff]
  constructor
  · -- a comparison that does not fit would have been refused
    rintro ⟨cond, hcond⟩
    rcases fits_or_refusedWith t c with hfits | ⟨e, he⟩
    · exact hfits
    · rw [ofComparison_of_refusedWith he] at hcond
      exact absurd hcond (by simp)
  · exact ofComparison_of_fits glyph ha

theorem refusal?_eq_some_iff_refusedWith (ha : c.hasArity = true) :
    refusal? (ofComparison glyph t c) = some e ↔ RefusedWith t c e := by
  rw [refusal?_eq_some_iff]
  constructor
  · intro h
    rcases fits_or_refusedWith t c with hfits | ⟨e', he'⟩
    · obtain ⟨cond, hcond⟩ := ofComparison_of_fits glyph ha hfits
      rw [hcond] at h
      exact absurd h (by simp)
    · rw [ofComparison_of_refusedWith he'] at h
      rw [← Except.error.inj h]
      exact he'
  · exact ofComparison_of_refusedWith

/-! ## Filters -/

/-- **The first comparison without a condition decides for all of them.** -/
theorem refusal?_ofPredicates (ps : List Predicate) : refusal? (ofPredicates glyph t ps)
    = (Predicate.comparisonsOfMembers ps).findSome? fun c => refusal? (ofComparison glyph t c) :=
  (compiles glyph t).refusal?_members ps

/-- Putting the conditions together refuses nothing. -/
theorem refusal?_ofStatement : refusal? (ofStatement glyph t s)
    = s.comparisons.findSome? fun c => refusal? (ofComparison glyph t c) := by
  rw [Statement.comparisons, ← refusal?_ofPredicates, ofStatement]
  split
  · next h => rw [h]; rfl
  · next h => rw [h]; rfl
  · next h => rw [h]; rfl

end Condition

theorem Query.refusal?_filterOfStatement : refusal? (filterOfStatement d glyph t s)
    = s.comparisons.findSome? fun c => refusal? (Condition.ofComparison glyph t c) := by
  rw [filterOfStatement, refusal?_map, Condition.refusal?_ofStatement]

/-! ## Orders -/

namespace Select

theorem refusal?_requestedOrder (orders : List Order) : refusal? (requestedOrder t orders)
    = orders.findSome? fun o => refusal? (column t o.field) := by
  rw [requestedOrder, refusal?_mapM]
  simp only [refusal?_map]

/-- The filter goes before the order. -/
theorem refusal?_ofStatement : refusal? (ofStatement glyph t s)
    = (refusal? (Condition.ofStatement glyph t s)).or (refusal? (requestedOrder t s.order)) := by
  rw [ofStatement]
  cases Condition.ofStatement glyph t s with
  | error e => rfl
  | ok filter => exact refusal?_bind_pure fun requested => ⟨_, rfl⟩

end Select

theorem Query.refusal?_ofStatement : refusal? (ofStatement d glyph t s)
    = (refusal? (filterOfStatement d glyph t s)).or
        (s.order.findSome? fun o => refusal? (column t o.field)) := by
  rw [ofStatement, refusal?_map, Select.refusal?_ofStatement, Select.refusal?_requestedOrder,
    filterOfStatement, refusal?_map]

/-! ## Statements -/

section

variable (ha : s.hasArities = true)

include ha

theorem Query.exists_filterOfStatement_iff :
    (∃ q, filterOfStatement d glyph t s = .ok q) ↔ ∀ c ∈ s.comparisons, Fits t c := by
  rw [← refusal?_eq_none_iff, refusal?_filterOfStatement, List.findSome?_eq_none_iff]
  exact forall₂_congr fun c hc =>
    Condition.refusal?_eq_none_iff_fits (List.all_eq_true.mp ha c hc)

theorem Query.exists_ofStatement_iff :
    (∃ q, ofStatement d glyph t s = .ok q)
      ↔ (∀ c ∈ s.comparisons, Fits t c) ∧ ∀ o ∈ s.order, t.Has o.field := by
  rw [← refusal?_eq_none_iff, refusal?_ofStatement, Option.or_eq_none_iff, refusal?_eq_none_iff,
    exists_filterOfStatement_iff ha, List.findSome?_eq_none_iff]
  exact and_congr_right fun _ => forall₂_congr fun o _ =>
    refusal?_eq_none_iff.trans exists_column_iff

theorem Query.filterOfStatement_eq_error_iff :
    filterOfStatement d glyph t s = .error e
      ↔ ∃ front c back, s.comparisons = front ++ c :: back ∧ (∀ b ∈ front, Fits t b)
        ∧ RefusedWith t c e := by
  have harity : ∀ c ∈ s.comparisons, c.hasArity = true := List.all_eq_true.mp ha
  rw [← refusal?_eq_some_iff, refusal?_filterOfStatement]
  exact findSome?_eq_some_iff_first
    (fun c hc => Condition.refusal?_eq_none_iff_fits (harity c hc))
    (fun c hc => Condition.refusal?_eq_some_iff_refusedWith (harity c hc))

theorem Query.ofStatement_eq_error_iff :
    ofStatement d glyph t s = .error e
      ↔ filterOfStatement d glyph t s = .error e
        ∨ (∀ c ∈ s.comparisons, Fits t c) ∧ ∃ front o back, s.order = front ++ o :: back
          ∧ (∀ p ∈ front, t.Has p.field) ∧ ¬t.Has o.field ∧ e = .unknownField t.name o.field := by
  rw [← refusal?_eq_some_iff, refusal?_ofStatement, Option.or_eq_some_iff, refusal?_eq_some_iff,
    refusal?_eq_none_iff, exists_filterOfStatement_iff ha]
  refine or_congr_right (and_congr_right fun _ => ?_)
  -- with the filter out of the way the orders are looked at one after the other
  have hhas : ∀ o ∈ s.order, refusal? (column t o.field) = none ↔ t.Has o.field :=
    fun _ _ => refusal?_eq_none_iff.trans exists_column_iff
  have hunknown : ∀ o ∈ s.order, refusal? (column t o.field) = some e
      ↔ ¬t.Has o.field ∧ e = .unknownField t.name o.field :=
    fun _ _ => refusal?_eq_some_iff.trans column_eq_error_iff
  exact findSome?_eq_some_iff_first hhas hunknown

end

/-- **A statement is refused for its first offender, and for nothing else.** A filter is refused if and
only if some comparison names no column or is a full-text search, with the error of the first such
comparison from left to right. A query is refused for its filter or, if that is none of the reasons, for
the first order whose field names no column. -/
theorem refused_at_first (d : Dialect) (glyph : Char) (t : Table) {s : Statement}
    (ha : s.hasArities = true) :
    ((∃ e, Query.filterOfStatement d glyph t s = .error e)
        ↔ ∃ c ∈ s.comparisons, ¬t.Has c.field ∨ c.op = .search)
      ∧ (∀ e, Query.filterOfStatement d glyph t s = .error e
        ↔ ∃ front c back, s.comparisons = front ++ c :: back ∧ (∀ b ∈ front, Fits t b)
          ∧ RefusedWith t c e)
      ∧ ((∃ e, Query.ofStatement d glyph t s = .error e)
        ↔ (∃ e, Query.filterOfStatement d glyph t s = .error e) ∨ ∃ o ∈ s.order, ¬t.Has o.field)
      ∧ ∀ e, Query.ofStatement d glyph t s = .error e
        ↔ Query.filterOfStatement d glyph t s = .error e
          ∨ (∀ c ∈ s.comparisons, Fits t c) ∧ ∃ front o back, s.order = front ++ o :: back
            ∧ (∀ p ∈ front, t.Has p.field) ∧ ¬t.Has o.field
            ∧ e = .unknownField t.name o.field := by
  have hfilter : (∃ e, Query.filterOfStatement d glyph t s = .error e)
      ↔ ∃ c ∈ s.comparisons, ¬t.Has c.field ∨ c.op = .search := by
    rw [exists_error_iff, Query.exists_filterOfStatement_iff ha]
    simp only [not_forall, not_fits_iff, exists_prop]
  refine ⟨hfilter, fun e => Query.filterOfStatement_eq_error_iff ha, ?_,
    fun e => Query.ofStatement_eq_error_iff ha⟩
  -- a query is accepted if every comparison fits and every order has its column
  rw [exists_error_iff, exists_error_iff, Query.exists_ofStatement_iff ha,
    Query.exists_filterOfStatement_iff ha, not_and_or]
  simp only [not_forall, exists_prop]

/-- A table with two columns. -/
def letters : Table where
  name := "letters"
  backend := .sql .ansi
  columns := [{ name := "Sender" }, { name := "pages" }]

/-- A full-text search inside of a group, and behind it fields that name no column. -/
def misfits : Statement where
  table := "letters"
  predicates := [
    .compare ⟨.eq, "SENDER", [.bare "ann"]⟩,
    .group .or [
      .group .and [.compare ⟨.search, "pages", [.bare "ten"]⟩],
      .compare ⟨.eq, "zip", [.bare "1"]⟩]]
  order := [⟨"street", .asc⟩]

/-- The search comes before the fields without column. -/
theorem refused_misfits : misfits.hasArities = true
    ∧ Query.filterOfStatement .ansi '*' letters misfits
      = .error (.unsupportedOperator .search "pages" .noFullText)
    ∧ Query.ofStatement .ansi '*' letters misfits
      = .error (.unsupportedOperator .search "pages" .noFullText) := by
  obtain ⟨-, hfirst, -, hquery⟩ := refused_at_first .ansi '*' letters (s := misfits) rfl
  have hsender : letters.Has "SENDER" := ⟨{ name := "Sender" }, by decide, by decide⟩
  have hpages : letters.Has "pages" := ⟨{ name := "pages" }, by decide, by decide⟩
  have hfilter := (hfirst _).mpr ⟨[_], ⟨.search, "pages", [.bare "ten"]⟩, [_], rfl,
    List.forall_mem_singleton.mpr ⟨hsender, by decide⟩, .search hpages rfl⟩
  exact ⟨rfl, hfilter, (hquery _).mpr (.inl hfilter)⟩

end Sql

end Rql

import Rql.Proofs.Sql.Spelling
import Rql.Proofs.Sql.Steps

/-!
# Literals stay out of the text

Two statements are alike if they differ in their literals alone, and not in the kind of those that are
compared for equality: there null, a pattern and a plain value are written in different ways.
`sql_eq_of_alike` says that alike statements are compiled to the same text, or refused with the same
error. Whatever characters the literals hold, a database gets to see them as values only.

The proof follows the tree. The text of a group is made of the texts of its members, so it is enough
that texts agree; the conditions themselves do not, since they hold the values.
-/

namespace Rql

/-! ## Statements that differ in literals -/

/-- What decides how equality with a literal is written. -/
inductive Literal.Kind where
  | null
  /-- A value with wildcards. -/
  | pattern
  | plain
deriving DecidableEq, Repr

/-- The kind of the literal. Null is null, whatever the glyph. -/
def Literal.kind (glyph : Char) (l : Literal) : Literal.Kind :=
  if l.isNull then .null else if l.hasWildcard glyph then .pattern else .plain

/-- The comparisons differ in their literals alone. -/
structure Comparison.Alike (glyph : Char) (c c' : Comparison) : Prop where
  op : c.op = c'.op
  field : c.field = c'.field
  length : c.values.length = c'.values.length
  kinds : c.op = .eq ∨ c.op = .ne →
    c.values.map (Literal.kind glyph) = c'.values.map (Literal.kind glyph)

namespace Predicate

mutual

/-- The predicates differ in literals alone. -/
def Alike (glyph : Char) : Predicate → Predicate → Prop
  | .compare c, .compare c' => c.Alike glyph c'
  | .group c members, .group c' members' => c = c' ∧ AlikeMembers glyph members members'
  | .compare _, .group .. | .group .., .compare _ => False

/-- The members differ in literals alone. -/
def AlikeMembers (glyph : Char) : List Predicate → List Predicate → Prop
  | [], [] => True
  | p :: ps, p' :: ps' => Alike glyph p p' ∧ AlikeMembers glyph ps ps'
  | [], _ :: _ | _ :: _, [] => False

end

end Predicate

/-- The statements differ in literals alone. -/
structure Statement.Alike (glyph : Char) (s s' : Statement) : Prop where
  conjunction : s.conjunction = s'.conjunction
  predicates : Predicate.AlikeMembers glyph s.predicates s'.predicates
  order : s.order = s'.order
  page : s.page = s'.page

namespace Sql

variable {d : Dialect} {glyph : Char} {t : Table}

namespace Condition

/-! ## Texts of conditions -/

/-- The text of several conditions, in parentheses unless there is just one. -/
def enclosed (c : Conjunction) : List String → String
  | [s] => s
  | texts => "(" ++ Text.join c.keyword texts ++ ")"

theorem render_group (d : Dialect) (c : Conjunction) (parts : List Condition) :
    (Condition.group c parts).render d = "(" ++ Text.join c.keyword (parts.map (render d)) ++ ")" := by
  rw [render, renderParts_eq_join]

theorem render_combine (d : Dialect) (c : Conjunction) (parts : List Condition) :
    (combine c parts).render d = enclosed c (parts.map (render d)) := by
  match parts with
  | [] => exact render_group d c []
  | [part] => rfl
  | part :: part' :: rest => exact render_group d c (part :: part' :: rest)

/-- Only the number of values shows. -/
theorem placeholders_congr {values values' : List Json} (h : values.length = values'.length) :
    placeholders values = placeholders values' := by
  rw [placeholders, placeholders, List.map_const', List.map_const', h]

theorem render_patterns (d : Dialect) (c : Conjunction) (col : ColumnRef) (relation : Relation)
    (before after : String) {values values' : List Literal}
    (h : values.length = values'.length) :
    (combine c (patterns col relation before after values)).render d
      = (combine c (patterns col relation before after values')).render d := by
  have hmap : ∀ ls : List Literal, (patterns col relation before after ls).map (render d)
      = List.replicate ls.length (col.render d ++ " " ++ relation.symbol ++ " ?") := by
    intro ls
    rw [patterns, List.map_map, ← List.map_const']
    rfl
  rw [render_combine, render_combine, hmap, hmap, h]

theorem render_equality (d : Dialect) (col : ColumnRef) (equal : Bool) {l l' : Literal}
    (h : l.kind glyph = l'.kind glyph) :
    (equality glyph col equal l).render d = (equality glyph col equal l').render d := by
  have hform : ∀ l : Literal, (equality glyph col equal l).render d
      = match l.kind glyph with
        | .null => (if equal then isNull col else isNotNull col).render d
        | .pattern => (test col (if equal then .like else .notLike) .null).render d
        | .plain => (test col (if equal then .eq else .ne) .null).render d := by
    intro l
    rw [equality, Literal.kind]
    by_cases hn : l.isNull = true
    · rw [if_pos hn, if_pos hn]
    · by_cases hg : l.hasWildcard glyph = true
      · rw [if_neg hn, if_neg hn, if_pos hg, if_pos hg]
        rfl
      · rw [if_neg hn, if_neg hn, if_neg hg, if_neg hg]
        rfl
  -- the kind alone decides the text, and the kinds are the same
  rw [hform, hform, h]

theorem firstValue_congr {c c' : Comparison} (h : c.Alike glyph c') :
    (∃ e, firstValue c = .error e ∧ firstValue c' = .error e)
      ∨ ∃ l l', firstValue c = .ok l ∧ firstValue c' = .ok l'
        ∧ (c.op = .eq ∨ c.op = .ne → l.kind glyph = l'.kind glyph) := by
  obtain ⟨op, field, values⟩ := c
  obtain ⟨op', field', values'⟩ := c'
  obtain ⟨rfl, rfl, hlen, hkinds⟩ := h
  cases values with
  | nil =>
    -- without values there is nothing left to differ in, not even in the error
    cases values' with
    | nil => exact .inl ⟨_, rfl, rfl⟩
    | cons l' rest' => exact absurd hlen (by simp)
  | cons l rest =>
    cases values' with
    | nil => exact absurd hlen (by simp)
    | cons l' rest' => exact .inr ⟨l, l', rfl, rfl, fun hop => (List.cons.inj (hkinds hop)).1⟩

/-- **Alike comparisons have the same text.** -/
theorem render_ofColumn (d : Dialect) (col : ColumnRef) {c c' : Comparison}
    (h : c.Alike glyph c') :
    (ofColumn glyph col c).map (render d) = (ofColumn glyph col c').map (render d) := by
  have hfirst := firstValue_congr h
  have hlen := h.length
  obtain ⟨op, field, values⟩ := c
  obtain ⟨op', field', values'⟩ := c'
  obtain ⟨rfl, rfl, -, -⟩ := h
  have hplaces : placeholders (values.map Literal.toJson)
      = placeholders (values'.map Literal.toJson) :=
    placeholders_congr (by rw [List.length_map, List.length_map]; exact hlen)
  cases op with
  | eq | ne =>
    simp only [ofColumn]
    rcases hfirst with ⟨e, he, he'⟩ | ⟨l, l', hl, hl', hkind⟩
    · rw [he, he']
    · rw [hl, hl']
      exact congrArg Except.ok (render_equality d col _ (hkind (by simp)))
  | gt | ge | lt | le =>
    simp only [ofColumn]
    rcases hfirst with ⟨e, he, he'⟩ | ⟨l, l', hl, hl', -⟩
    · rw [he, he']
    · rw [hl, hl']
      rfl
  | isIn | out => exact congrArg (fun s => Except.ok (_ ++ s)) hplaces
  | sw | ew | w | wo => exact congrArg Except.ok (render_patterns d _ col _ _ _ hlen)
  | n | nn | emp | nemp | search => rfl

theorem render_ofComparison (d : Dialect) (t : Table) {c c' : Comparison}
    (h : c.Alike glyph c') :
    (ofComparison glyph t c).map (render d) = (ofComparison glyph t c').map (render d) := by
  rw [ofComparison, ofComparison, h.field]
  cases column t c'.field with
  | error e => rfl
  | ok col => exact render_ofColumn d col h

mutual

theorem render_ofPredicate (d : Dialect) (t : Table) : (p p' : Predicate) → p.Alike glyph p' →
    (ofPredicate glyph t p).map (render d) = (ofPredicate glyph t p').map (render d)
  | .compare c, .compare c', h => by
      rw [Predicate.Alike] at h
      exact render_ofComparison d t h
  | .group c members, .group c' members', h => by
      rw [Predicate.Alike] at h
      obtain ⟨rfl, hmembers⟩ := h
      rw [ofPredicate, ofPredicate]
      rcases map_eq_map (render_ofPredicates d t members members' hmembers) with
        ⟨e, he, he'⟩ | ⟨parts, parts', hp, hp', htexts⟩
      · rw [he, he']
      · rw [hp, hp']
        show Except.ok (render d (.group c parts)) = Except.ok (render d (.group c parts'))
        rw [render_group, render_group, htexts]
  | .compare _, .group .., h | .group .., .compare _, h => by
      rw [Predicate.Alike] at h
      exact h.elim

/-- **Alike predicates have the same texts**, or the same error. -/
theorem render_ofPredicates (d : Dialect) (t : Table) : (ps ps' : List Predicate) →
    Predicate.AlikeMembers glyph ps ps' →
      (ofPredicates glyph t ps).map (List.map (render d))
        = (ofPredicates glyph t ps').map (List.map (render d))
  | [], [], _ => rfl
  | p :: ps, p' :: ps', h => by
      rw [Predicate.AlikeMembers] at h
      rw [ofPredicates, ofPredicates]
      rcases map_eq_map (render_ofPredicate d t p p' h.1) with
        ⟨e, he, he'⟩ | ⟨part, part', hp, hp', htext⟩
      · rw [he, he']
      · rw [hp, hp']
        rcases map_eq_map (render_ofPredicates d t ps ps' h.2) with
          ⟨e, he, he'⟩ | ⟨rest, rest', hr, hr', htexts⟩
        · rw [he, he']
        · rw [hr, hr']
          show Except.ok (List.map (render d) (part :: rest)) = .ok (List.map (render d) (part' :: rest'))
          rw [List.map_cons, List.map_cons, htext, htexts]
  | [], _ :: _, h | _ :: _, [], h => by
      rw [Predicate.AlikeMembers] at h
      exact h.elim

end

theorem render_ofStatement (d : Dialect) (t : Table) {s s' : Statement} (h : s.Alike glyph s') :
    (ofStatement glyph t s).map (Option.map (render d))
      = (ofStatement glyph t s').map (Option.map (render d)) := by
  rw [ofStatement, ofStatement, h.conjunction]
  rcases map_eq_map (render_ofPredicates d t _ _ h.predicates) with
    ⟨e, he, he'⟩ | ⟨parts, parts', hp, hp', htexts⟩
  · rw [he, he']
  · rw [hp, hp']
    cases parts with
    | nil =>
      cases parts' with
      | nil => rfl
      | cons part' rest' => exact absurd htexts (by simp)
    | cons part rest =>
      cases parts' with
      | nil => exact absurd htexts (by simp)
      | cons part' rest' =>
        show Except.ok (some (render d (combine _ (part :: rest))))
          = Except.ok (some (render d (combine _ (part' :: rest'))))
        rw [render_combine, render_combine, htexts]

end Condition

/-! ## Texts of queries -/

/-- Of its filter a query shows nothing but the text. -/
theorem Select.render_congr {q q' : Select} (htable : q.table = q'.table)
    (hfilter : q.filter.map (Condition.render d) = q'.filter.map (Condition.render d))
    (horder : q.order = q'.order) (hlimit : q.limit = q'.limit) (hoffset : q.offset = q'.offset) :
    q.render d = q'.render d := by
  -- whether there is a filter at all can be told from its text
  have hsome : q.filter.isSome = q'.filter.isSome := by
    rw [← Option.isSome_map, hfilter, Option.isSome_map]
  unfold render renderFilter
  rw [htable, hfilter, hsome, horder, hlimit, hoffset]

theorem map_sql_of_alike (d : Dialect) (t : Table) {s s' : Statement} (h : s.Alike glyph s') :
    (Query.ofStatement d glyph t s).map Query.sql
      = (Query.ofStatement d glyph t s').map Query.sql := by
  simp only [Query.ofStatement, Select.ofStatement, h.order, h.page]
  rcases map_eq_map (Condition.render_ofStatement d t h) with
    ⟨e, he, he'⟩ | ⟨filter, filter', hf, hf', htext⟩
  · rw [he, he']
  · rw [hf, hf']
    cases Select.requestedOrder t s'.order with
    | error e => rfl
    | ok requested => exact congrArg Except.ok (Select.render_congr rfl htext rfl rfl rfl)

/-- **Literals never influence the text.** Statements that differ in literals alone are refused with
the same error or have queries with the same text. -/
theorem sql_eq_of_alike (d : Dialect) (t : Table) {s s' : Statement} (h : s.Alike glyph s') :
    (∃ e, Query.ofStatement d glyph t s = .error e ∧ Query.ofStatement d glyph t s' = .error e)
      ∨ ∃ q q', Query.ofStatement d glyph t s = .ok q ∧ Query.ofStatement d glyph t s' = .ok q'
        ∧ q.sql = q'.sql :=
  map_eq_map (map_sql_of_alike d t h)

/-- A table with two columns. -/
def people : Table where
  name := "people"
  backend := .sql .postgres
  columns := [{ name := "name" }, { name := "age" }]

/-- A search for a name and an age. -/
def byNameAndAge (name age : Literal) : Statement where
  table := "people"
  predicates := [
    .compare ⟨.eq, "name", [name]⟩,
    .group .or [.compare ⟨.isIn, "age", [age, .bare "30"]⟩, .compare ⟨.sw, "name", [age]⟩]]

/-- Quotes, keywords and question marks do no more than a plain name does. -/
theorem sql_eq_search :
    (byNameAndAge (.bare "ann") (.bare "20")).Alike '*' (byNameAndAge (.ofQuoted "' OR \"a\" = ?") (.bare "%--"))
      ∧ ∃ q q',
        Query.ofStatement .postgres '*' people (byNameAndAge (.bare "ann") (.bare "20")) = .ok q
        ∧ Query.ofStatement .postgres '*' people
            (byNameAndAge (.ofQuoted "' OR \"a\" = ?") (.bare "%--")) = .ok q'
        ∧ q.sql = q'.sql := by
  have halike : (byNameAndAge (.bare "ann") (.bare "20")).Alike '*'
      (byNameAndAge (.ofQuoted "' OR \"a\" = ?") (.bare "%--")) := by
    refine ⟨rfl, ?_, rfl, rfl⟩
    simp only [byNameAndAge, Predicate.AlikeMembers, Predicate.Alike, and_true, true_and]
    refine ⟨⟨rfl, rfl, rfl, fun _ => by decide⟩, ⟨rfl, rfl, rfl, ?_⟩, ⟨rfl, rfl, rfl, ?_⟩⟩ <;>
      simp
  have hok : (Query.ofStatement .postgres '*' people
      (byNameAndAge (.bare "ann") (.bare "20"))).toOption.isSome = true := by decide +kernel
  refine ⟨halike, ?_⟩
  rcases sql_eq_of_alike .postgres people halike with ⟨e, he, -⟩ | hq
  · rw [he] at hok
    exact absurd hok Bool.false_ne_true
  · exact hq

end Sql

end Rql

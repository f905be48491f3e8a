import Mathlib.Data.List.Nodup
import Rql.Proofs.Lists
import Rql.Proofs.Partition.Meaning
import Rql.Proofs.Partition.Refusals

/-!
# The placeholders of plans

The texts of a plan hold nothing that comes from a query: fixed words, and placeholders that the tables
beside the texts explain. A store refuses a text with a placeholder that no table explains, and it also
refuses an entry that no text asks for.

`Uses` says of a text which placeholders stand in it: those of names as a set, since a field may occur more
than once, and those of values one by one, since their numbers go on from text to text. As a text is put
together from smaller ones the names come together and the numbers follow on (`Uses.append`), down to the
whole filter (`uses_expression`).

`Closed` compares that with the tables. The texts of a key condition and of a filter are closed each for
itself, and so are both together, as they have no placeholder in common (`Closed.append`). The main result
is `enclosed_of_plan`.
-/

namespace Rql.Partition

open Sql (isStop)

/-! ## Words -/

/-- The words that stand for themselves in a text. -/
def fixedWords : List String :=
  ["AND", "OR", "NOT", "IN", "(", ")", ",", "=", "<>", ">", ">=", "<", "<=", "begins_with", "contains",
    "attribute_exists", "attribute_not_exists"]

/-- The word is the placeholder of a name. -/
def isNameMark (word : String) : Bool :=
  word.toList.head? == some '#'

/-- The word is the placeholder of a value. -/
def isValueMark (word : String) : Bool :=
  word.toList.head? == some ':'

/-- The text is put together from fixed words. -/
def isFixed (s : String) : Bool :=
  (words s).all fixedWords.contains

/-- Fixed words that keep the words beside them apart: the text starts and ends with a stop. -/
def isFixedSeparator (s : String) : Bool :=
  isFixed s && s.toList.head?.any isStop && s.toList.getLast?.any isStop

theorem plain_of_mem_fixedWords {w : String} (h : w ∈ fixedWords) :
    isPlain w = true ∧ isNameMark w = false ∧ isValueMark w = false := by
  revert w
  decide

namespace Condition

theorem placeholders_append (next m n : Nat) :
    placeholders next (m + n) = placeholders next m ++ placeholders (next + m) n := by
  rw [placeholders, placeholders, placeholders, ← List.map_append, List.range'_append_1]

/-- The placeholders in a text: `used` are those of names, and those of values have the numbers from
`next` on, `count` of them, in the order in which they stand. -/
structure Uses (used : List String) (next count : Nat) (s : String) : Prop where
  fixed : ∀ w ∈ words s, isPlain w = true → w ∈ fixedWords
  names : ∀ w, w ∈ (words s).filter isNameMark ↔ w ∈ used
  values : (words s).filter isValueMark = placeholders next count

section

variable {used used' : List String} {next count count' : Nat} {s s' : String}

theorem Uses.append (h : Uses used next count s) (h' : Uses used' (next + count) count' s')
    (ha : Apart s s') : Uses (used ++ used') next (count + count') (s ++ s') := by
  have hwords := words_append ha
  refine ⟨?_, ?_, ?_⟩
  · rw [hwords]
    exact List.forall_mem_append.mpr ⟨h.fixed, h'.fixed⟩
  · intro w
    rw [hwords, List.filter_append, List.mem_append, List.mem_append, h.names, h'.names]
  · rw [hwords, List.filter_append, h.values, h'.values, placeholders_append]

theorem Uses.congr (h : Uses used next count s) (he : ∀ w, w ∈ used ↔ w ∈ used') :
    Uses used' next count s :=
  ⟨h.fixed, fun w => (h.names w).trans (he w), h.values⟩

theorem uses_fixed (next : Nat) (h : isFixed s = true) : Uses [] next 0 s := by
  have hfixed : ∀ w ∈ words s, w ∈ fixedWords := fun w hw =>
    List.contains_iff_mem.mp (List.all_eq_true.mp h w hw)
  refine ⟨fun w hw _ => hfixed w hw, fun w => ?_, ?_⟩
  · rw [List.mem_filter]
    refine iff_of_false (fun hw => ?_) List.not_mem_nil
    exact absurd ((plain_of_mem_fixedWords (hfixed w hw.1)).2.1.symm.trans hw.2) Bool.false_ne_true
  · refine List.filter_eq_nil_iff.mpr fun w hw => ?_
    rw [(plain_of_mem_fixedWords (hfixed w hw)).2.2]
    exact Bool.false_ne_true

/-- A placeholder alone. -/
theorem uses_alone {mark : String} (hwords : words mark = [mark]) (hplain : isPlain mark = false)
    (hvalues : [mark].filter isValueMark = placeholders next count) :
    Uses ([mark].filter isNameMark) next count mark := by
  refine ⟨?_, fun w => by rw [hwords], by rw [hwords, hvalues]⟩
  rw [hwords, List.forall_mem_singleton, hplain]
  exact fun h => absurd h Bool.false_ne_true

theorem uses_nameIn (fields : List String) (field : String) (next : Nat) :
    Uses [nameIn fields field] next 0 (nameIn fields field) := by
  have hmarks : isNameMark (nameIn fields field) = true ∧ isValueMark (nameIn fields field) = false
      ∧ isPlain (nameIn fields field) = false := by
    simp [isNameMark, isValueMark, isPlain, nameIn, namePlaceholder]
  have halone : Uses ([nameIn fields field].filter isNameMark) next 0 (nameIn fields field) :=
    uses_alone (words_namePlaceholder _) hmarks.2.2 (List.filter_cons_of_neg (by simp [hmarks.2.1]))
  rwa [List.filter_cons_of_pos hmarks.1] at halone

theorem uses_valuePlaceholder (next : Nat) : Uses [] next 1 (valuePlaceholder next) := by
  have hmarks : isNameMark (valuePlaceholder next) = false
      ∧ isValueMark (valuePlaceholder next) = true ∧ isPlain (valuePlaceholder next) = false := by
    simp [isNameMark, isValueMark, isPlain, valuePlaceholder]
  have halone : Uses ([valuePlaceholder next].filter isNameMark) next 1 (valuePlaceholder next) :=
    uses_alone (words_valuePlaceholder next) hmarks.2.2 (List.filter_cons_of_pos hmarks.2.1)
  rwa [List.filter_cons_of_neg (by simp [hmarks.1])] at halone

/-! ## Texts put together -/

/-- Fixed words that end with a stop may stand before any text. -/
theorem Uses.behind {front : String} (h : Uses used next count s)
    (hfront : isFixed front = true ∧ front.toList.getLast?.any isStop = true) :
    Uses used next count (front ++ s) := by
  have h' : Uses used (next + 0) count s := h
  have happend := (uses_fixed next hfront.1).append h' (apart_of_last hfront.2 s)
  rwa [List.nil_append, Nat.zero_add] at happend

theorem Uses.between (h : Uses used next count s) {sep : String} (hsep : isFixedSeparator sep = true)
    (h' : Uses used' (next + count) count' s') :
    Uses (used ++ used') next (count + count') (s ++ sep ++ s') := by
  simp only [isFixedSeparator, Bool.and_eq_true] at hsep
  obtain ⟨⟨hfixed, hhead⟩, hlast⟩ := hsep
  rw [String.append_assoc]
  exact h.append (h'.behind ⟨hfixed, hlast⟩) (apart_of_separator s hhead s')

theorem Uses.close (h : Uses used next count s) : Uses used next count (s ++ ")") := by
  have happend := h.append (uses_fixed (next + count) (by decide : isFixed ")" = true))
    (apart_of_head s (by decide))
  rwa [List.append_nil, Nat.add_zero] at happend

theorem Uses.enclose (h : Uses used next count s) : Uses used next count ("(" ++ s ++ ")") :=
  (h.behind (by decide)).close

/-- A text for each of the values, with a separator between them. -/
theorem uses_join {sep : String} (hsep : isFixedSeparator sep = true) {text : String → String}
    (h : ∀ n, Uses used n 1 (text (valuePlaceholder n))) (count next : Nat) :
    Uses used next (count + 1) (Text.join sep ((placeholders next (count + 1)).map text)) := by
  induction count generalizing next with
  | zero => exact h next
  | succ count ih =>
    have hcons : placeholders next (count + 1 + 1)
        = valuePlaceholder next :: placeholders (next + 1) (count + 1) := rfl
    have hrest : placeholders (next + 1) (count + 1)
        = valuePlaceholder (next + 1) :: placeholders (next + 1 + 1) count := rfl
    have hbetween := (h next).between hsep (ih (next + 1))
    rw [hrest, List.map_cons] at hbetween
    rw [hcons, hrest, List.map_cons, List.map_cons, Text.join_cons_cons, Nat.add_comm (count + 1)]
    exact hbetween.congr fun w => by rw [List.mem_append, or_self]

theorem isFixedSeparator_keyword (c : Conjunction) : isFixedSeparator c.keyword = true := by
  cases c <;> decide

theorem isFixedSeparator_comma : isFixedSeparator ", " = true := by
  decide

theorem uses_wrap (c : Conjunction) {text : String → String}
    (h : ∀ n, Uses used n 1 (text (valuePlaceholder n))) (count next : Nat) :
    Uses used next (count + 1) (wrap c ((placeholders next (count + 1)).map text)) := by
  have hjoin := uses_join (isFixedSeparator_keyword c) h count next
  cases count with
  | zero => exact hjoin
  | succ count => exact hjoin.enclose

theorem uses_call {function : String} (hfunction : isFixed (function ++ "(") = true
      ∧ (function ++ "(").toList.getLast?.any isStop = true) (fields : List String) (field : String)
    (n : Nat) :
    Uses [nameIn fields field] n 1 (call function (nameIn fields field) (valuePlaceholder n)) :=
  (((uses_nameIn fields field n).behind hfunction).between isFixedSeparator_comma
    (uses_valuePlaceholder n)).close

theorem uses_renderIn (fields : List String) (field : String) (count next : Nat) :
    Uses [nameIn fields field] next (count + 1)
      (renderIn (nameIn fields field) (placeholders next (count + 1))) := by
  have hjoin : Uses [] next (count + 1)
      (Text.join ", " ((placeholders next (count + 1)).map id)) :=
    uses_join isFixedSeparator_comma uses_valuePlaceholder count next
  rw [List.map_id] at hjoin
  have hin : isFixedSeparator " IN (" = true := by decide
  have hmarks : Uses [] (next + 0) (count + 1)
      (Text.join ", " (placeholders next (count + 1))) := hjoin
  have hbetween := ((uses_nameIn fields field next).between hin hmarks).close
  rwa [List.append_nil, Nat.zero_add] at hbetween

end

/-! ## Conditions -/

mutual

/-- Every list of values in the condition has an entry. -/
def filled : Condition → Bool
  | .absent _ | .present _ | .test .. => true
  | .beginsWith _ texts | .contains _ texts | .lacks _ texts => !texts.isEmpty
  | .isIn _ values | .notIn _ values => !values.isEmpty
  | .group _ parts => filledParts parts

/-- The parts are all filled. -/
def filledParts : List Condition → Bool
  | [] => true
  | part :: rest => filled part && filledParts rest

end

/-- A condition of functions that are called with each of its texts. -/
theorem uses_calls (c : Conjunction) {text : String → String} {name : String}
    (h : ∀ n, Uses [name] n 1 (text (valuePlaceholder n))) {texts : List String}
    (hne : (!texts.isEmpty) = true) (next : Nat) :
    Uses [name] next (texts.map Json.string).length
      (wrap c ((placeholders next texts.length).map text)) := by
  obtain ⟨count, hcount⟩ := exists_length_of_filled hne
  rw [List.length_map, hcount]
  exact uses_wrap c h count next

theorem uses_list (fields : List String) (field : String) {values : List Json}
    (hne : (!values.isEmpty) = true) (next : Nat) :
    Uses [nameIn fields field] next values.length
      (renderIn (nameIn fields field) (placeholders next values.length)) := by
  obtain ⟨count, hcount⟩ := exists_length_of_filled hne
  rw [hcount]
  exact uses_renderIn fields field count next

mutual

/-- **A condition uses the placeholders of its fields, and one for each of its values.** -/
theorem uses_render (fields : List String) : (cond : Condition) → cond.filled = true →
    (next : Nat) →
      Uses (cond.fields.map (nameIn fields)) next cond.values.length (cond.render fields next)
  | .absent field, _, next => ((uses_nameIn fields field next).behind (by decide)).close
  | .present field, _, next => ((uses_nameIn fields field next).behind (by decide)).close
  | .test field op value, _, next => by
      have hsymbol : isFixed (symbol op) = true := by cases op <;> decide
      have hblank : isFixedSeparator " " = true := by decide
      have hsign := (uses_nameIn fields field next).between hblank (uses_fixed next hsymbol)
      exact hsign.between hblank (uses_valuePlaceholder next)
  | .beginsWith field texts, h, next => by
      rw [filled] at h
      exact uses_calls .or (uses_call (by decide) fields field) h next
  | .contains field texts, h, next => by
      rw [filled] at h
      exact uses_calls .or (uses_call (by decide) fields field) h next
  | .lacks field texts, h, next => by
      rw [filled] at h
      have hnot : isFixed "NOT " = true ∧ "NOT ".toList.getLast?.any isStop = true := by decide
      exact uses_calls .and (fun n => (uses_call (by decide) fields field n).behind hnot) h next
  | .isIn field values, h, next => by
      rw [filled] at h
      exact uses_list fields field h next
  | .notIn field values, h, next => by
      rw [filled] at h
      exact ((uses_list fields field h next).behind (by decide)).close
  | .group conjunction parts, h, next => by
      rw [filled] at h
      exact (uses_renderParts fields conjunction parts h next).enclose

/-- The numbers of the parts follow on. -/
theorem uses_renderParts (fields : List String) (c : Conjunction) : (parts : List Condition) →
    filledParts parts = true → (next : Nat) →
      Uses ((fieldsOfParts parts).map (nameIn fields)) next (valuesOfParts parts).length
        (renderParts fields c next parts)
  | [], _, next => uses_fixed next (by decide : isFixed "" = true)
  | [part], h, next => by
      rw [filledParts, Bool.and_eq_true] at h
      rw [fieldsOfParts, fieldsOfParts, List.append_nil, valuesOfParts, valuesOfParts,
        List.append_nil]
      exact uses_render fields part h.1 next
  | part :: part' :: rest, h, next => by
      rw [filledParts, Bool.and_eq_true] at h
      rw [fieldsOfParts, List.map_append, valuesOfParts, List.length_append]
      exact (uses_render fields part h.1 next).between (isFixedSeparator_keyword c)
        (uses_renderParts fields c (part' :: rest) h.2 (next + part.values.length))

end

/-! ## Conditions of predicates -/

variable {glyph : Char} {t : Table}

theorem filled_ofComparison {c : Comparison} {cond : Condition} (ha : c.hasArity = true)
    (h : ofComparison glyph t c = .ok cond) : cond.filled = true ∧ cond.fields = [c.field] := by
  obtain ⟨op, field, values⟩ := c
  have hfilled : ∀ {α : Type} {xs : List α}, xs.length = values.length → op.arity = .atLeast 1 →
      (!xs.isEmpty) = true := by
    intro α xs hlength hop
    have hne := ne_nil_of_hasArity ha hop
    cases xs with
    | nil => exact absurd (List.length_eq_zero_iff.mp hlength.symm) hne
    | cons x xs => rfl
  cases op with
  | eq | ne =>
    obtain ⟨l, rfl⟩ := eq_singleton_of_hasArity ha rfl
    obtain ⟨-, ⟨-, rfl⟩ | ⟨-, value, -, rfl⟩⟩ := equality_ok_iff.mp h <;> exact ⟨rfl, rfl⟩
  | gt | ge | lt | le =>
    obtain ⟨l, rfl⟩ := eq_singleton_of_hasArity ha rfl
    rw [ofComparison_range glyph t rfl] at h
    obtain ⟨value, -, rfl⟩ := map_ok h
    exact ⟨rfl, rfl⟩
  | isIn | out =>
    obtain ⟨bound, hbound, rfl⟩ := map_ok h
    have hlength := (forall₂_of_mapM hbound fun _ _ _ _ => trivial).length_eq
    exact ⟨hfilled hlength.symm rfl, rfl⟩
  | sw | w | wo =>
    cases h
    exact ⟨hfilled (List.length_map _) rfl, rfl⟩
  | n | nn =>
    cases h
    exact ⟨rfl, rfl⟩
  | ew | search | emp | nemp => exact absurd h (by simp [ofComparison])

mutual

/-- The condition of a predicate names the fields of its comparisons, and no list of values in it is
empty. -/
theorem filled_ofPredicate : (p : Predicate) → (∀ c ∈ p.comparisons, c.hasArity = true) →
    {cond : Condition} → ofPredicate glyph t p = .ok cond →
      cond.filled = true ∧ cond.fields = p.comparisons.map Comparison.field
  | .compare c, ha, _, h => filled_ofComparison (ha c (List.mem_singleton.mpr rfl)) h
  | .group c members, ha, _, h => by
      obtain ⟨parts, hparts, rfl⟩ := (compiles glyph t).group_ok h
      exact filled_ofPredicates members ha hparts

theorem filled_ofPredicates : (ps : List Predicate) →
    (∀ c ∈ Predicate.comparisonsOfMembers ps, c.hasArity = true) → {parts : List Condition} →
      ofPredicates glyph t ps = .ok parts → filledParts parts = true
        ∧ fieldsOfParts parts = (Predicate.comparisonsOfMembers ps).map Comparison.field
  | [], _, _, h => by
      cases h
      exact ⟨rfl, rfl⟩
  | p :: ps, ha, _, h => by
      rw [Predicate.comparisonsOfMembers, List.forall_mem_append] at ha
      obtain ⟨part, rest, hpart, hrest, rfl⟩ := (compiles glyph t).cons_ok h
      obtain ⟨hfilled, hfields⟩ := filled_ofPredicate p ha.1 hpart
      obtain ⟨hfilled', hfields'⟩ := filled_ofPredicates ps ha.2 hrest
      rw [filledParts, hfilled, hfilled', fieldsOfParts, hfields, hfields',
        Predicate.comparisonsOfMembers, List.map_append]
      exact ⟨rfl, rfl⟩

end

end Condition

/-! ## Tables of placeholders -/

section

variable {α : Type} {mark : Nat → String}

theorem map_snd_numbered (mark : Nat → String) (xs : List α) :
    (numbered mark xs).map Prod.snd = xs := by
  rw [numbered, List.map_map]
  exact List.zipIdx_map_fst 0 xs

theorem map_fst_numbered (mark : Nat → String) (xs : List α) :
    (numbered mark xs).map Prod.fst = (List.range xs.length).map mark := by
  rw [numbered, List.map_map, List.range_eq_range', ← List.zipIdx_map_snd 0 xs, List.map_map]
  rfl

theorem nodup_numbered (hmark : Function.Injective mark) (xs : List α) :
    ((numbered mark xs).map Prod.fst).Nodup := by
  rw [map_fst_numbered]
  exact List.Nodup.map hmark List.nodup_range

end

namespace Filter

theorem nodup_addField {names : List String} (h : names.Nodup) (field : String) :
    (addField names field).Nodup := by
  rw [addField]
  split
  · exact h
  · next hnot =>
    rw [List.contains_iff_mem] at hnot
    exact List.nodup_append.mpr ⟨h, List.nodup_singleton field,
      fun a ha b hb he => hnot (List.mem_singleton.mp hb ▸ he ▸ ha)⟩

/-- No field has two placeholders. -/
theorem nodup_fields (f : Filter) : f.fields.Nodup := by
  have h : ∀ {names : List String} (fields : List String), names.Nodup →
      (fields.foldl addField names).Nodup := by
    intro names fields
    induction fields generalizing names with
    | nil => exact id
    | cons field fields ih => exact fun h => ih (nodup_addField h field)
  exact h _ List.nodup_nil

theorem mem_fields (f : Filter) {field : String} :
    field ∈ f.fields ↔ field ∈ Condition.fieldsOfParts f.parts := by
  rw [fields, mem_foldl_addField]
  simp only [List.not_mem_nil, false_or]

/-- The placeholders of names are those of the fields. -/
theorem mem_names_iff (f : Filter) {w : String} :
    w ∈ f.names.map Prod.fst
      ↔ w ∈ (Condition.fieldsOfParts f.parts).map (Condition.nameIn f.fields) := by
  show w ∈ (numbered Condition.namePlaceholder f.fields).map Prod.fst ↔ _
  rw [map_fst_numbered, List.mem_map, List.mem_map]
  constructor
  · rintro ⟨n, hn, rfl⟩
    have hlt := List.mem_range.mp hn
    refine ⟨f.fields[n], f.mem_fields.mp (List.getElem_mem hlt), ?_⟩
    rw [Condition.nameIn, f.nodup_fields.idxOf_getElem n hlt]
  · rintro ⟨field, hfield, rfl⟩
    have hlt := List.idxOf_lt_length_of_mem (f.mem_fields.mpr hfield)
    exact ⟨f.fields.idxOf field, List.mem_range.mpr hlt, rfl⟩

theorem map_fst_values (f : Filter) :
    f.values.map Prod.fst = Condition.placeholders 0 f.boundValues.length := by
  show (numbered Condition.valuePlaceholder f.boundValues).map Prod.fst = _
  rw [map_fst_numbered, Condition.placeholders, List.range_eq_range']

/-- **A filter uses each placeholder of its tables and no other**, those of values once each. -/
theorem uses_expression (f : Filter) (h : Condition.filledParts f.parts = true) :
    Condition.Uses (f.names.map Prod.fst) 0 f.boundValues.length f.expression :=
  (Condition.uses_renderParts f.fields f.conjunction f.parts h 0).congr fun _ =>
    f.mem_names_iff.symm

end Filter

/-! ## Texts and their tables -/

/-- The placeholders among the words are those of the tables, which have one entry for each, and all other
words are fixed. -/
structure Closed (ws names values : List String) : Prop where
  fixed : ∀ w ∈ ws, isPlain w = true → w ∈ fixedWords
  names_iff : ∀ w, w ∈ ws.filter isNameMark ↔ w ∈ names
  values_iff : ∀ w, w ∈ ws.filter isValueMark ↔ w ∈ values
  nodup_names : names.Nodup
  nodup_values : values.Nodup

theorem Closed.nil : Closed [] [] [] :=
  ⟨List.forall_mem_nil _, fun _ => Iff.rfl, fun _ => Iff.rfl, List.nodup_nil, List.nodup_nil⟩

/-- Texts whose tables have no placeholder in common. -/
theorem Closed.append {ws names values ws' names' values' : List String} (h : Closed ws names values)
    (h' : Closed ws' names' values') (hnames : names.Disjoint names')
    (hvalues : values.Disjoint values') :
    Closed (ws ++ ws') (names ++ names') (values ++ values') := by
  refine ⟨List.forall_mem_append.mpr ⟨h.fixed, h'.fixed⟩, fun w => ?_, fun w => ?_,
    h.nodup_names.append h'.nodup_names hnames, h.nodup_values.append h'.nodup_values hvalues⟩
  · rw [List.filter_append, List.mem_append, List.mem_append, h.names_iff, h'.names_iff]
  · rw [List.filter_append, List.mem_append, List.mem_append, h.values_iff, h'.values_iff]

theorem Filter.closed_expression {f : Filter} (h : Condition.filledParts f.parts = true) :
    Closed (words f.expression) (f.names.map Prod.fst) (f.values.map Prod.fst) := by
  have huses := f.uses_expression h
  have hnames := nodup_numbered (append_toString_injective "#f") f.fields
  have hvalues := nodup_numbered (append_toString_injective ":v") f.boundValues
  refine ⟨huses.fixed, huses.names, fun w => ?_, hnames, hvalues⟩
  rw [huses.values, f.map_fst_values]

namespace KeyCondition

/-- The text of a key condition depends on the operator of the sort key alone. -/
def wordsOf : Option Operator → List String
  | none => ["#hk", "=", ":hk"]
  | some .sw => ["#hk", "=", ":hk", "AND", "begins_with", "(", "#sk", ",", ":sk", ")"]
  | some op => ["#hk", "=", ":hk", "AND", "#sk", symbol op, ":sk"]

theorem words_expression (k : KeyCondition) :
    words k.expression = wordsOf (k.sortKey.map SortCondition.op) := by
  have hsome : ∀ op, words ("#hk = :hk" ++ (" AND " ++ SortCondition.render ⟨"", op, .null⟩ "#sk"
      ":sk")) = wordsOf (some op) := by
    have hequal : words ("#hk = :hk" ++ (" AND " ++ SortCondition.render ⟨"", .eq, .null⟩ "#sk" ":sk"))
        = wordsOf (some .eq) := by decide
    intro op
    cases op with
    | sw | ne | gt | ge | lt | le => decide
    | _ => exact hequal
  obtain ⟨partitionKey, partitionValue, sortKey⟩ := k
  cases sortKey with
  | none => exact (by decide : words "#hk = :hk" = wordsOf none)
  | some sc => exact hsome sc.op

/-- The placeholders of the partition key, and those of the sort key if there is one. -/
def marks (partition sort : String) (op : Option Operator) : List String :=
  partition :: (op.map fun _ => sort).toList

theorem closed_wordsOf (op : Option Operator) :
    Closed (wordsOf op) (marks "#hk" "#sk" op) (marks ":hk" ":sk" op) := by
  have h : (∀ w ∈ wordsOf op, isPlain w = true → w ∈ fixedWords)
      ∧ (wordsOf op).filter isNameMark = marks "#hk" "#sk" op
      ∧ (wordsOf op).filter isValueMark = marks ":hk" ":sk" op
      ∧ (marks "#hk" "#sk" op).Nodup ∧ (marks ":hk" ":sk" op).Nodup := by
    cases op with
    | none => decide
    | some op => cases op <;> decide
  obtain ⟨hfixed, hnames, hvalues, hnodup, hnodup'⟩ := h
  exact ⟨hfixed, fun w => by rw [hnames], fun w => by rw [hvalues], hnodup, hnodup'⟩

theorem map_fst_tables (k : KeyCondition) :
    k.names.map Prod.fst = marks "#hk" "#sk" (k.sortKey.map SortCondition.op)
      ∧ k.values.map Prod.fst = marks ":hk" ":sk" (k.sortKey.map SortCondition.op) := by
  rw [names, values]
  cases k.sortKey <;> exact ⟨rfl, rfl⟩

theorem closed_expression (k : KeyCondition) :
    Closed (words k.expression) (k.names.map Prod.fst) (k.values.map Prod.fst) := by
  rw [words_expression, k.map_fst_tables.1, k.map_fst_tables.2]
  exact closed_wordsOf _

/-- The second character tells the placeholders of keys from numbered ones. -/
theorem disjoint_numbered {α : Type} {partition sort : String} {op : Option Operator} {front : String}
    (hpartition : partition.toList[1]? ≠ front.toList[1]?)
    (hsort : sort.toList[1]? ≠ front.toList[1]?) (hfront : 1 < front.toList.length) (xs : List α) :
    (marks partition sort op).Disjoint ((numbered (front ++ toString ·) xs).map Prod.fst) := by
  intro w hw hw'
  rw [map_fst_numbered] at hw'
  obtain ⟨n, -, rfl⟩ := List.mem_map.mp hw'
  have hsecond : (front ++ toString n).toList[1]? = front.toList[1]? := by
    rw [String.toList_append, List.getElem?_append_left hfront]
  rcases List.mem_cons.mp hw with he | hw
  · rw [he] at hsecond
    exact hpartition hsecond
  · cases op with
    | none => exact absurd hw List.not_mem_nil
    | some op =>
      rw [List.mem_singleton.mp hw] at hsecond
      exact hsort hsecond

end KeyCondition

/-! ## Plans -/

namespace Plan

/-- The words of the texts of a plan. -/
def words (p : Plan) : List String :=
  (p.keyCondition.map fun k => Partition.words k.expression).getD []
    ++ (p.filter.map fun f => Partition.words f.expression).getD []

/-- The placeholders of names that the tables of a plan have entries for. -/
def names (p : Plan) : List String :=
  ((p.keyCondition.map KeyCondition.names).getD []).map Prod.fst
    ++ ((p.filter.map Filter.names).getD []).map Prod.fst

/-- The placeholders of values that the tables of a plan have entries for. -/
def values (p : Plan) : List String :=
  ((p.keyCondition.map KeyCondition.values).getD []).map Prod.fst
    ++ ((p.filter.map Filter.values).getD []).map Prod.fst

/-- The tables of a plan have one entry for each placeholder that stands in its texts and no other, and
nothing else in the texts comes from a query. -/
def Enclosed (p : Plan) : Prop :=
  Closed p.words p.names p.values

theorem enclosed_of_filled {p : Plan}
    (h : ∀ f ∈ p.filter, Condition.filledParts f.parts = true) : p.Enclosed := by
  have hfilter : Closed ((p.filter.map fun f => Partition.words f.expression).getD [])
      (((p.filter.map Filter.names).getD []).map Prod.fst)
      (((p.filter.map Filter.values).getD []).map Prod.fst) := by
    cases hf : p.filter with
    | none => exact .nil
    | some f => exact Filter.closed_expression (h f hf)
  cases hk : p.keyCondition with
  | none =>
    rw [Enclosed, words, names, values, hk]
    exact hfilter
  | some k =>
    rw [Enclosed, words, names, values, hk]
    refine k.closed_expression.append hfilter ?_ ?_
    · rw [k.map_fst_tables.1]
      cases p.filter with
      | none => exact List.disjoint_nil_right _
      | some f =>
        exact KeyCondition.disjoint_numbered (by decide) (by decide) (by decide) f.fields
    · rw [k.map_fst_tables.2]
      cases p.filter with
      | none => exact List.disjoint_nil_right _
      | some f =>
        exact KeyCondition.disjoint_numbered (by decide) (by decide) (by decide) f.boundValues

end Plan

/-- The placeholders of a filter of predicates: one for each field of theirs, and one for each value in
the order in which the values are written. -/
structure Filter.Numbered (glyph : Char) (t : Table) (ps : List Predicate) (f : Filter) : Prop where
  /-- No field has two placeholders. -/
  nodup : (f.names.map Prod.snd).Nodup
  mem_iff : ∀ field, field ∈ f.names.map Prod.snd
    ↔ ∃ c ∈ Predicate.comparisonsOfMembers ps, c.field = field
  values : (words f.expression).filter isValueMark
    = (List.range f.values.length).map Condition.valuePlaceholder
  table : f.values.map Prod.fst = (words f.expression).filter isValueMark
  /-- With the names and values in their places the filter says what the predicates say. -/
  reads : ∃ parts, Condition.ofPredicates glyph t ps = .ok parts
    ∧ f.tokens? = some (Condition.joinTokens f.conjunction (Condition.tokensOfParts parts))

theorem Filter.numbered_of_filled {ps : List Predicate} {parts : List Condition} (c : Conjunction)
    (ha : ∀ d ∈ Predicate.comparisonsOfMembers ps, d.hasArity = true)
    (h : Condition.ofPredicates glyph t ps = .ok parts) :
    Filter.Numbered glyph t ps ⟨c, parts⟩ := by
  obtain ⟨hfilled, hfields⟩ := Condition.filled_ofPredicates ps ha h
  have huses := Filter.uses_expression ⟨c, parts⟩ hfilled
  have hnames := map_snd_numbered Condition.namePlaceholder (Filter.fields ⟨c, parts⟩)
  refine ⟨hnames ▸ Filter.nodup_fields _, fun field => ?_, ?_, ?_, parts, h, Filter.tokens?_eq _⟩
  · show field ∈ (numbered Condition.namePlaceholder (Filter.fields ⟨c, parts⟩)).map Prod.snd ↔ _
    rw [hnames, Filter.mem_fields, hfields, List.mem_map]
  · rw [huses.values, Condition.placeholders, ← List.range_eq_range', Filter.values, List.length_map,
      List.length_zipIdx]
  · rw [huses.values, Filter.map_fst_values]

/-- **The texts and the tables of a plan fit together**, and the placeholders of its filter are numbered
in the order in which they stand. -/
theorem enclosed_of_plan {s : Statement} {p : Plan} (ha : s.hasArities = true)
    (h : Plan.ofStatement glyph t s = .ok p) :
    p.Enclosed ∧ ∀ f ∈ p.filter, f.Numbered glyph t p.excluded := by
  have harities : ∀ c ∈ Predicate.comparisonsOfMembers p.excluded, c.hasArity = true := fun c hc =>
    List.all_eq_true.mp ha c (excluded_subset h hc)
  have hparts : ∀ f ∈ p.filter, ∃ parts,
      Condition.ofPredicates glyph t p.excluded = .ok parts ∧ f = ⟨p.conjunction, parts⟩ := by
    intro f hf
    have hfilter := filter_ok h
    rw [Option.mem_def.mp hf] at hfilter
    exact (Filter.ofPredicates_eq_some_iff.mp hfilter).2
  constructor
  · refine Plan.enclosed_of_filled fun f hf => ?_
    obtain ⟨parts, hok, rfl⟩ := hparts f hf
    exact (Condition.filled_ofPredicates _ harities hok).1
  · intro f hf
    obtain ⟨parts, hok, rfl⟩ := hparts f hf
    exact Filter.numbered_of_filled p.conjunction harities hok

/-- A table with a sort key. -/
def members : Table where
  name := "members"
  backend := .partitionKey
  indexes := [.ofPrimaryKeys "team" (some "name")]

/-- Two keys, and three fields of which two differ in the case of a letter. -/
def manyFields : Statement where
  table := "members"
  predicates := [.compare ⟨.eq, "team", [.bare "1"]⟩, .compare ⟨.isIn, "rank", [.bare "2", .bare "3"]⟩,
    .compare ⟨.sw, "name", [.bare "a"]⟩, .compare ⟨.nn, "Rank", []⟩,
    .compare ⟨.wo, "note", [.bare "b", .bare "c"]⟩, .compare ⟨.lt, "rank", [.bare "9"]⟩]

/-- The field `rank` has one placeholder for both of its comparisons, `Rank` has one of its own. -/
theorem enclosed_manyFields : ∃ p f, manyFields.hasArities = true
    ∧ Plan.ofStatement '*' members manyFields = .ok p ∧ p.filter = some f
    ∧ f.expression = "#f0 IN (:v0, :v1) AND attribute_exists(#f1) AND "
        ++ "(NOT contains(#f2, :v2) AND NOT contains(#f2, :v3)) AND #f0 < :v4"
    ∧ p.names = ["#hk", "#sk", "#f0", "#f1", "#f2"]
    ∧ p.Enclosed ∧ f.Numbered '*' members p.excluded := by
  obtain ⟨p, f, hp, hf, hexpression, hnames⟩ : ∃ p f, Plan.ofStatement '*' members manyFields = .ok p
      ∧ p.filter = some f
      ∧ f.expression = "#f0 IN (:v0, :v1) AND attribute_exists(#f1) AND "
        ++ "(NOT contains(#f2, :v2) AND NOT contains(#f2, :v3)) AND #f0 < :v4"
      ∧ p.names = ["#hk", "#sk", "#f0", "#f1", "#f2"] :=
    ⟨_, _, rfl, rfl, by decide +kernel, by decide +kernel⟩
  obtain ⟨henclosed, hnumbered⟩ := enclosed_of_plan (by decide) hp
  exact ⟨p, f, by decide, hp, hf, hexpression, hnames, henclosed, hnumbered f hf⟩

end Rql.Partition

import Rql.Proofs.Partition.Token
import Rql.Proofs.Sql.Spelling

/-!
# The tokens of filters

Every condition has its tokens, with its fields and values in the places of the placeholders. The text
that is rendered reads as these tokens (`spells_render`), as long as the tables know the fields and hold
the values of the condition from the number on that it starts with. A filter makes its tables itself, so
it always reads as its tokens (`spells_expression`).
-/

namespace Rql.Partition

open Sql (Token Atom)

/-! ## Atoms -/

namespace Atom

/-- A function of a field. -/
def ofField (function field : String) : Atom :=
  [.text function, .text "(", .name field, .text ")"]

/-- A function of a field and a value. -/
def ofCall (function field : String) (value : Json) : Atom :=
  [.text function, .text "(", .name field, .text ",", .mark value, .text ")"]

/-- A field and a value with a sign between them. -/
def ofRelation (field sign : String) (value : Json) : Atom :=
  [.name field, .text sign, .mark value]

/-- Membership of a field in a list of values. -/
def ofList (field : String) (values : List Json) : Atom :=
  .name field :: .text "IN" :: .text "(" ::
    (List.intercalate [.text ","] (values.map fun value => [.mark value]) ++ [.text ")"])

end Atom

namespace Condition

/-- Rows of tokens with a conjunction between them. -/
def joinTokens (c : Conjunction) (tss : List (List (Token Json))) : List (Token Json) :=
  [.text c.word].intercalate tss

/-- Tokens in parentheses. -/
def enclose (ts : List (Token Json)) : List (Token Json) :=
  .text "(" :: (ts ++ [.text ")"])

/-- Rows of tokens with a conjunction between them, in parentheses unless there is just one. -/
def wrapTokens (c : Conjunction) : List (List (Token Json)) → List (Token Json)
  | [ts] => ts
  | tss => enclose (joinTokens c tss)

mutual

/-- The tokens of the condition, with fields and values in their places. -/
def tokens : Condition → List (Token Json)
  | .absent field => Atom.ofField "attribute_not_exists" field
  | .present field => Atom.ofField "attribute_exists" field
  | .test field op value => Atom.ofRelation field (symbol op) value
  | .beginsWith field texts =>
    wrapTokens .or (texts.map fun s => Atom.ofCall "begins_with" field (.string s))
  | .contains field texts =>
    wrapTokens .or (texts.map fun s => Atom.ofCall "contains" field (.string s))
  | .lacks field texts =>
    wrapTokens .and (texts.map fun s => .text "NOT" :: Atom.ofCall "contains" field (.string s))
  | .isIn field values => Atom.ofList field values
  | .notIn field values => .text "NOT" :: enclose (Atom.ofList field values)
  | .group conjunction parts => enclose (joinTokens conjunction (tokensOfParts parts))

/-- The tokens of each of the parts. -/
def tokensOfParts : List Condition → List (List (Token Json))
  | [] => []
  | part :: rest => tokens part :: tokensOfParts rest

end

theorem tokensOfParts_eq_map (parts : List Condition) : tokensOfParts parts = parts.map tokens := by
  induction parts with
  | nil => rfl
  | cons part rest ih => rw [tokensOfParts, ih, List.map_cons]

/-! ## Values by number -/

/-- The text reads as these tokens where the fields and the values stand behind numbered placeholders. -/
def SpellsIn (fields : List String) (bound : List Json) : String → List (Token Json) → Prop :=
  Spells (numbered namePlaceholder fields) (numbered valuePlaceholder bound)

section

variable {fields : List String} {bound : List Json}

theorem spells_placeholders (fields : List String) {values : List Json} {next : Nat}
    (h : values <+: bound.drop next) :
    List.Forall₂ (SpellsIn fields bound) (placeholders next values.length)
      (values.map fun value => [.mark value]) := by
  induction values generalizing next with
  | nil => exact .nil
  | cons value rest ih =>
    have hvalue : bound[next]? = some value := getElem?_of_prefix_drop h
    have hcut : [value] ++ rest <+: bound.drop next := h
    exact .cons (spells_valuePlaceholder fields hvalue) (ih (prefix_drop_append hcut).2)

/-! ## The text reads as the tokens -/

theorem isSeparator_keyword (c : Conjunction) : isSeparator c.keyword [c.word] = true := by
  cases c <;> decide

theorem spells_enclose {s : String} {ts : List (Token Json)} (h : SpellsIn fields bound s ts) :
    SpellsIn fields bound ("(" ++ s ++ ")") (enclose ts) :=
  (h.behind ["("] (by decide)).close

theorem spells_wrap {texts : List String} {tss : List (List (Token Json))} (c : Conjunction)
    (h : List.Forall₂ (SpellsIn fields bound) texts tss) :
    SpellsIn fields bound (wrap c texts) (wrapTokens c tss) := by
  have hjoin : SpellsIn fields bound (Text.join c.keyword texts) (joinTokens c tss) :=
    spells_join (isSeparator_keyword c) h
  -- a text that stands alone is the only one that goes without parentheses
  cases h with
  | nil => exact spells_enclose hjoin
  | cons hfirst hrest =>
    cases hrest with
    | nil => exact hfirst
    | cons hsecond hrest => exact spells_enclose hjoin

theorem spells_call {function name mark field : String} {value : Json}
    (hfunction : SpellsIn fields bound function [.text function])
    (hname : SpellsIn fields bound name [.name field])
    (hmark : SpellsIn fields bound mark [.mark value]) :
    SpellsIn fields bound (call function name mark) (Atom.ofCall function field value) := by
  have hopen := hfunction.between ["("] (by decide : isSeparator "(" ["("] = true) hname
  exact (hopen.between [","] (by decide : isSeparator ", " [","] = true) hmark).close

theorem spells_renderIn {name field : String} {marks : List String} {values : List Json}
    (hname : SpellsIn fields bound name [.name field])
    (hmarks : List.Forall₂ (SpellsIn fields bound) marks (values.map fun value => [.mark value])) :
    SpellsIn fields bound (renderIn name marks) (Atom.ofList field values) := by
  have hjoin := spells_join (by decide : isSeparator ", " [","] = true) hmarks
  have hin : isSeparator " IN (" ["IN", "("] = true := by decide
  exact (hname.between ["IN", "("] hin hjoin).close

/-- A call for each value. -/
theorem spells_calls {function field : String} {texts : List String} {next : Nat}
    (hfunction : SpellsIn fields bound function [.text function]) (hf : field ∈ fields)
    (hv : texts.map .string <+: bound.drop next) :
    List.Forall₂ (SpellsIn fields bound)
      ((placeholders next texts.length).map (call function (nameIn fields field)))
      (texts.map fun s => Atom.ofCall function field (.string s)) := by
  have hmarks := spells_placeholders fields hv
  rw [List.length_map, List.map_map, List.forall₂_map_right_iff] at hmarks
  rw [List.forall₂_map_left_iff, List.forall₂_map_right_iff]
  exact hmarks.imp fun _ _ hmark => spells_call hfunction (spells_nameIn hf bound) hmark

mutual

/-- **The text of a condition reads as its tokens**, where the tables know its fields and hold its
values. -/
theorem spells_render : (cond : Condition) → (next : Nat) → cond.fields ⊆ fields →
    cond.values <+: bound.drop next → SpellsIn fields bound (cond.render fields next) cond.tokens
  | .absent field, _, hf, _ => by
      have hname := spells_nameIn (hf List.mem_cons_self) bound
      exact (hname.behind ["attribute_not_exists", "("] (by decide)).close
  | .present field, _, hf, _ => by
      have hname := spells_nameIn (hf List.mem_cons_self) bound
      exact (hname.behind ["attribute_exists", "("] (by decide)).close
  | .test field op value, next, hf, hv => by
      have hname := spells_nameIn (hf List.mem_cons_self) bound
      have hmark := spells_valuePlaceholder fields (getElem?_of_prefix_drop hv)
      have hsign : SpellsIn fields bound (symbol op) [.text (symbol op)] := by
        cases op <;> exact spells_text [_] (by decide)
      have hblank : isSeparator " " [] = true := by decide
      exact (hname.between [] hblank hsign).between [] hblank hmark
  | .beginsWith field texts, next, hf, hv => by
      have hfunction : SpellsIn fields bound "begins_with" [.text "begins_with"] :=
        spells_text ["begins_with"] (by decide)
      exact spells_wrap .or (spells_calls hfunction (hf List.mem_cons_self) hv)
  | .contains field texts, next, hf, hv => by
      have hfunction : SpellsIn fields bound "contains" [.text "contains"] :=
        spells_text ["contains"] (by decide)
      exact spells_wrap .or (spells_calls hfunction (hf List.mem_cons_self) hv)
  | .lacks field texts, next, hf, hv => by
      have hfunction : SpellsIn fields bound "contains" [.text "contains"] :=
        spells_text ["contains"] (by decide)
      have hcalls := spells_calls hfunction (hf List.mem_cons_self) hv
      refine spells_wrap .and ?_
      rw [List.forall₂_map_left_iff, List.forall₂_map_right_iff] at hcalls ⊢
      exact hcalls.imp fun _ _ hcall => hcall.behind ["NOT"] (by decide)
  | .isIn field values, next, hf, hv => by
      have hname := spells_nameIn (hf List.mem_cons_self) bound
      exact spells_renderIn hname (spells_placeholders fields hv)
  | .notIn field values, next, hf, hv => by
      have hname := spells_nameIn (hf List.mem_cons_self) bound
      have hlist := spells_renderIn hname (spells_placeholders fields hv)
      exact (hlist.behind ["NOT", "("] (by decide)).close
  | .group conjunction parts, next, hf, hv =>
      spells_enclose (spells_renderParts conjunction parts next hf hv)

/-- The parts take their placeholders from left to right. -/
theorem spells_renderParts (c : Conjunction) : (parts : List Condition) → (next : Nat) →
    fieldsOfParts parts ⊆ fields → valuesOfParts parts <+: bound.drop next →
      SpellsIn fields bound (renderParts fields c next parts) (joinTokens c (tokensOfParts parts))
  | [], _, _, _ => rfl
  | [part], next, hf, hv => by
      rw [fieldsOfParts, fieldsOfParts, List.append_nil] at hf
      rw [valuesOfParts, valuesOfParts, List.append_nil] at hv
      rw [joinTokens, tokensOfParts, tokensOfParts, List.intercalate_singleton]
      exact spells_render part next hf hv
  | part :: part' :: rest, next, hf, hv => by
      rw [fieldsOfParts, List.append_subset] at hf
      rw [valuesOfParts] at hv
      obtain ⟨hfirst, hrest⟩ := prefix_drop_append hv
      rw [joinTokens, tokensOfParts, tokensOfParts, List.intercalate_cons_cons]
      -- the first part uses up its values, so the others start behind them
      exact (spells_render part next hf.1 hfirst).between [c.word] (isSeparator_keyword c)
        (spells_renderParts c (part' :: rest) (next + part.values.length) hf.2 hrest)

end

end

end Condition

/-! ## Whole filters -/

namespace Filter

theorem mem_addField {names : List String} {field field' : String} :
    field ∈ addField names field' ↔ field ∈ names ∨ field = field' := by
  rw [addField]
  by_cases h : field' ∈ names
  · rw [if_pos (List.contains_iff_mem.mpr h)]
    exact ⟨.inl, fun hf => hf.elim id fun he => he ▸ h⟩
  · rw [if_neg (fun hc => h (List.contains_iff_mem.mp hc)), List.mem_append, List.mem_singleton]

theorem mem_foldl_addField {names fields : List String} {field : String} :
    field ∈ fields.foldl addField names ↔ field ∈ names ∨ field ∈ fields := by
  induction fields generalizing names with
  | nil => simp
  | cons f fields ih => rw [List.foldl_cons, ih, mem_addField, List.mem_cons, or_assoc]

/-- Every field that occurs has a placeholder. -/
theorem fieldsOfParts_subset (f : Filter) : Condition.fieldsOfParts f.parts ⊆ f.fields :=
  fun _ h => mem_foldl_addField.mpr (.inr h)

/-- The tokens of the filter, with fields and values in the places of the placeholders, if the tables
know them all. -/
def tokens? (f : Filter) : Option (List (Token Json)) :=
  (words f.expression).mapM (resolve f.names f.values)

/-- **A filter reads as the tokens of its parts**: each placeholder leads back to the field or the value
that it was written for. -/
theorem tokens?_eq (f : Filter) :
    f.tokens? = some (Condition.joinTokens f.conjunction (Condition.tokensOfParts f.parts)) :=
  Condition.spells_renderParts f.conjunction f.parts 0 f.fieldsOfParts_subset
    (List.prefix_refl f.boundValues)

end Filter

end Rql.Partition

import Rql.Proofs.Search.Meaning
import Rql.Proofs.Sql.Steps
import Rql.Proofs.Text.Pattern

/-!
# Patterns of statements

A comparison of texts becomes a test with a pattern for each of its values, in a database as well as in a
search engine (`ofComparison_of_isPattern`, `exists_leaf_of_isPattern`). The values stand in the patterns as
they are, so a value with `%` or `_` in it means something else to a database, and one with `*` or `?` to a
search engine.

The main result is `accepts_iff_of_isPattern`: what is made of a value asks for what the operator says exactly
if the value is plain for the backend.
-/

namespace Rql

open Pattern (Asks)

/-- The operator asks for the contrary of what it asks of texts. -/
def Operator.isContrary : Operator → Bool
  | .ne | .wo => true
  | _ => false

/-- The comparison is one of texts. Equality is one if the glyph is in its value, and null is no text. -/
def Comparison.IsPattern (glyph : Char) (c : Comparison) : Prop :=
  match c.op with
  | .sw | .ew | .w | .wo => c.values ≠ []
  | .eq | .ne => ∃ l, c.values = [l] ∧ l.isNull = false ∧ l.hasWildcard glyph = true
  | _ => False

/-- The pattern that a backend is given for a value. -/
def Wildcards.pattern (w : Wildcards) (glyph : Char) (op : Operator) (l : Literal) : String :=
  .ofList (w.write glyph op l.text.toList)

variable {glyph : Char} {c : Comparison}

theorem Comparison.IsPattern.isTextual (h : c.IsPattern glyph) : c.op.isTextual = true := by
  obtain ⟨op, field, values⟩ := c
  cases op with
  | eq | ne | sw | ew | w | wo => rfl
  | _ => exact absurd h id

namespace Wildcards

theorem pattern_sw (w : Wildcards) (l : Literal) :
    w.pattern glyph .sw l = "" ++ l.text ++ .singleton w.any := by
  apply String.toList_injective
  simp [pattern, write, Operator.leaveOpen, Operator.takesGlyph]

theorem pattern_ew (w : Wildcards) (l : Literal) :
    w.pattern glyph .ew l = .singleton w.any ++ l.text ++ "" := by
  apply String.toList_injective
  simp [pattern, write, Operator.leaveOpen, Operator.takesGlyph]

theorem pattern_containing (w : Wildcards) {op : Operator} (h : op = .w ∨ op = .wo) (l : Literal) :
    w.pattern glyph op l = .singleton w.any ++ l.text ++ .singleton w.any := by
  apply String.toList_injective
  rcases h with rfl | rfl <;> simp [pattern, write, Operator.leaveOpen, Operator.takesGlyph]

theorem pattern_equality (w : Wildcards) {op : Operator} (h : op = .eq ∨ op = .ne) (l : Literal) :
    w.pattern glyph op l = Text.replaceChar glyph w.any l.text := by
  rcases h with rfl | rfl <;> rfl

end Wildcards

open Wildcards

/-! ## Databases -/

namespace Sql

/-- The test of a column with a pattern. -/
def Condition.ofPattern (contrary : Bool) (col : ColumnRef) (pattern : String) : Condition :=
  .test col (if contrary then .notLike else .like) (.string pattern)

theorem ofColumn_of_isPattern (h : c.IsPattern glyph) (col : ColumnRef) :
    Condition.ofColumn glyph col c
      = .ok (.combine (if c.op.isContrary then .and else .or)
          (c.values.map fun l => .ofPattern c.op.isContrary col (like.pattern glyph c.op l))) := by
  obtain ⟨op, field, values⟩ := c
  cases op with
  | eq | ne =>
    obtain ⟨l, hl, hnull, hglyph⟩ := h
    dsimp only at hl
    subst hl
    show Except.ok (equality glyph col _ l) = _
    rw [equality, hnull, if_neg Bool.false_ne_true, if_pos hglyph]
    rfl
  | sw => simp only [pattern_sw]; rfl
  | ew => simp only [pattern_ew]; rfl
  | w => simp only [pattern_containing like (.inl rfl)]; rfl
  | wo => simp only [pattern_containing like (.inr rfl)]; rfl
  | _ => exact absurd h id

end Sql

/-! ## Search engines -/

namespace Search

theorem holds_patterns (v : Query → Bool) (field before after : String) (values : List Literal) :
    (patterns field before after values).any (Query.holds v)
      = values.any fun l => v (.wildcard field (before ++ l.text ++ after)) := by
  rw [patterns, List.any_map]
  rfl

theorem holds_should_patterns (v : Query → Bool) {values : List Literal} (h : values ≠ [])
    (field before after : String) :
    (Query.should (patterns field before after values)).holds v
      = values.any fun l => v (.wildcard field (before ++ l.text ++ after)) := by
  have hne : patterns field before after values ≠ [] := fun he => h (List.map_eq_nil_iff.mp he)
  rw [Query.holds_should v hne, holds_patterns]

theorem exists_leaf_of_isPattern (h : c.IsPattern glyph) :
    ∃ clause, leaf glyph c = .ok clause ∧ ∀ v : Query → Bool, clause.holds v
      = (c.op.isContrary ^^ c.values.any fun l =>
          v (.wildcard c.field (search.pattern glyph c.op l))) := by
  obtain ⟨op, field, values⟩ := c
  cases op with
  | eq | ne =>
    obtain ⟨l, hl, hnull, hglyph⟩ := h
    dsimp only at hl
    subst hl
    refine ⟨_, rfl, fun v => ?_⟩
    simp [inequality, equality, hnull, hglyph, Clause.holds, Query.holds, Operator.isContrary,
      pattern_equality, search]
  | sw =>
    refine ⟨_, rfl, fun v => ?_⟩
    rw [Clause.holds, holds_should_patterns v h]
    simp only [pattern_sw]
    exact (Bool.false_xor _).symm
  | ew =>
    refine ⟨_, rfl, fun v => ?_⟩
    rw [Clause.holds, holds_should_patterns v h]
    simp only [pattern_ew]
    exact (Bool.false_xor _).symm
  | w =>
    refine ⟨_, rfl, fun v => ?_⟩
    rw [Clause.holds, holds_should_patterns v h]
    simp only [pattern_containing search (.inl rfl)]
    exact (Bool.false_xor _).symm
  | wo =>
    refine ⟨_, rfl, fun v => ?_⟩
    rw [Clause.holds, Query.holds_mustNot, holds_patterns]
    simp only [pattern_containing search (.inr rfl)]
    exact (Bool.true_xor _).symm
  | _ => exact absurd h id

end Search

/-! ## What the patterns accept -/

/-- **The patterns that a value becomes ask for what the operator says exactly if the value is plain**, for a
database one without `%` and `_`, for a search engine one without `*` and `?`. Only the glyph may be one of
these. -/
theorem accepts_iff_of_isPattern (h : c.IsPattern glyph) :
    (∀ col, Sql.Condition.ofColumn glyph col c
        = .ok (.combine (if c.op.isContrary then .and else .or)
            (c.values.map fun l => .ofPattern c.op.isContrary col (like.pattern glyph c.op l))))
      ∧ (∃ clause, Search.leaf glyph c = .ok clause ∧ ∀ v : Search.Query → Bool, clause.holds v
          = (c.op.isContrary ^^ c.values.any fun l =>
              v (.wildcard c.field (search.pattern glyph c.op l))))
      ∧ ∀ w ∈ [like, search], ∀ l : Literal,
          (∀ s, w.Accepts (w.pattern glyph c.op l).toList s ↔ Asks glyph c.op l.text.toList s)
            ↔ w.Plain glyph c.op l.text.toList := by
  refine ⟨Sql.ofColumn_of_isPattern h, Search.exists_leaf_of_isPattern h, fun w _ l => ?_⟩
  rw [pattern, String.toList_ofList]
  exact forall_accepts_iff h.isTextual

/-- A name that starts with `50%`, which is what a database has a pattern for, too. -/
def startsWithPercent : Comparison :=
  ⟨.sw, "name", [.bare "50%"]⟩

/-- A name that starts with `what?`. -/
def startsWithQuestion : Comparison :=
  ⟨.sw, "name", [.bare "what?"]⟩

/-- The database takes `500` for a text that starts with `50%`, the search engine `whatever` for one that
starts with `what?`. -/
theorem accepts_startsWith :
    Sql.Condition.ofColumn '*' ⟨"places", "name"⟩ startsWithPercent
        = .ok (.test ⟨"places", "name"⟩ .like (.string "50%%"))
      ∧ like.Accepts "50%%".toList "500".toList ∧ ¬"50%".toList <+: "500".toList
      ∧ Search.leaf '*' startsWithQuestion
        = .ok (.positive (.should [.wildcard "name" "what?*"]))
      ∧ search.Accepts "what?*".toList "whatever".toList
      ∧ ¬"what?".toList <+: "whatever".toList := by
  have hlike : like.Accepts "50%%".toList "500".toList := by
    show Pattern.Matches [.exactly '5', .exactly '0', .any, .any] ['5', '0', '0']
    exact (((Pattern.Matches.nil.any []).any ['0']).exactly '0').exactly '5'
  have hsearch : search.Accepts "what?*".toList "whatever".toList := by
    show Pattern.Matches [.exactly 'w', .exactly 'h', .exactly 'a', .exactly 't', .one, .any]
      ['w', 'h', 'a', 't', 'e', 'v', 'e', 'r']
    have hrest : Pattern.Matches [.one, .any] ['e', 'v', 'e', 'r'] :=
      (Pattern.matches_any ['v', 'e', 'r']).one 'e'
    exact (((hrest.exactly 't').exactly 'a').exactly 'h').exactly 'w'
  exact ⟨rfl, hlike, by decide, rfl, hsearch, by decide⟩

/-- The percent sign is plain to a search engine and not to a database, the question mark the other way
around. -/
theorem accepts_iff_startsWith :
    startsWithPercent.IsPattern '*'
      ∧ (∀ s, search.Accepts "50%*".toList s ↔ "50%".toList <+: s)
      ∧ ¬(∀ s, like.Accepts "50%%".toList s ↔ "50%".toList <+: s)
      ∧ startsWithQuestion.IsPattern '*'
      ∧ (∀ s, like.Accepts "what?%".toList s ↔ "what?".toList <+: s)
      ∧ ¬(∀ s, search.Accepts "what?*".toList s ↔ "what?".toList <+: s) := by
  have hpercent : startsWithPercent.IsPattern '*' := List.cons_ne_nil _ _
  have hquestion : startsWithQuestion.IsPattern '*' := List.cons_ne_nil _ _
  obtain ⟨-, -, hp⟩ := accepts_iff_of_isPattern hpercent
  obtain ⟨-, -, hq⟩ := accepts_iff_of_isPattern hquestion
  have hlike : like ∈ [like, search] := List.mem_cons_self
  have hsearch : search ∈ [like, search] := List.mem_cons_of_mem _ List.mem_cons_self
  exact ⟨hpercent, (hp search hsearch (.bare "50%")).mpr (by decide),
    fun h => absurd ((hp like hlike (.bare "50%")).mp h) (by decide),
    hquestion, (hq like hlike (.bare "what?")).mpr (by decide),
    fun h => absurd ((hq search hsearch (.bare "what?")).mp h) (by decide)⟩

end Rql

import Rql.Proofs.Partition.Accounting
import Rql.Proofs.Partition.Meaning
import Rql.Proofs.Request.Assurance

/-!
# Equality with a key

An equality is read in one of two places. A filter looks at its value first: with the wildcard glyph in it
there is no form, the bare word `null` asks for rows without the field, and any other value is compared
with. A key condition compares with every value as it stands.

So the two places agree on all values but patterns and null. A query absorbs an equality with any value,
and compares as a filter would exactly if the value is neither (`comparesBare_of_absorbed`). An equality
with null, or with a pattern, asks for other rows once its field is a key of the index that was chosen.
-/

namespace Rql

/-- A value that an equality compares with wherever it is read: no null, and no pattern. -/
def Literal.IsOperand (glyph : Char) (l : Literal) : Prop :=
  l.isNull = false ∧ l.hasWildcard glyph = false

namespace Partition

variable {glyph : Char} {t : Table}

/-! ## The two readings -/

/-- The key condition compares a field with a value for equality. -/
inductive KeyCondition.Equates (k : KeyCondition) (field : String) : Json → Prop where
  | partition : Text.sameName field k.partitionKey = true → k.Equates field k.partitionValue
  | sort {sc : SortCondition} :
      k.sortKey = some sc → sc.field = field → sc.op = .eq → k.Equates field sc.value

/-- What a filter makes of an equality whose value fits the column. -/
theorem Condition.ofComparison_eq_of_bind {field : String} {l : Literal} {value : Json}
    (h : t.bind field l = .ok value) :
    ofComparison glyph t ⟨.eq, field, [l]⟩
      = if l.hasWildcard glyph then .error .noForm
        else if l.isNull then .ok (.absent field)
        else .ok (.test field .eq value) := by
  show equality glyph t ⟨.eq, field, [l]⟩ (.absent field) = _
  rw [equality_singleton, bindValue, h]
  rfl

/-- A filter compares with the value only if it is an operand. -/
theorem Condition.ofComparison_eq_test_iff {field : String} {l : Literal} {value : Json}
    (h : t.bind field l = .ok value) :
    ofComparison glyph t ⟨.eq, field, [l]⟩ = .ok (.test field .eq value) ↔ l.IsOperand glyph := by
  rw [ofComparison_eq_of_bind h, Literal.IsOperand]
  cases l.hasWildcard glyph <;> cases l.isNull <;> simp

/-- A key condition compares with the value whatever it is. -/
theorem Absorbs.equates {index : Index} {ps : List Predicate} {k : KeyCondition}
    {absorbed : List (Nat × Comparison)} (h : Absorbs t index ps k absorbed) :
    ∀ a ∈ absorbed, a.2.op = .eq → ∃ l value, a.2.values = [l]
      ∧ t.bind a.2.field l = .ok value ∧ k.Equates a.2.field value := by
  have hpartition : ∀ {n : Nat} {c : Comparison}, FirstNaming index.partitionKey ps n c →
      k.StatesPartition t index c → ∃ l value, c.values = [l]
        ∧ t.bind c.field l = .ok value ∧ k.Equates c.field value := by
    intro n c hc hstates
    obtain ⟨l, hl, hbind⟩ := hstates.value
    exact ⟨l, _, hl, hbind, .partition (hstates.key ▸ hc.names)⟩
  cases h with
  | partition hc hstates _ _ =>
    exact List.forall_mem_singleton.mpr fun _ => hpartition hc hstates
  | both hc hstates _ _ hsort hsc =>
    refine List.forall_mem_cons.mpr ⟨fun _ => hpartition hc hstates, ?_⟩
    refine List.forall_mem_singleton.mpr fun hop => ?_
    obtain ⟨l, hl, hvalue⟩ := hsc.value
    have hnot : ¬ Operator.eq = .sw := by decide
    rw [hop, if_neg hnot] at hvalue
    exact ⟨l, _, hl, hvalue, .sort hsort hsc.field (hsc.op.trans hop)⟩

/-! ## Absorbed equalities -/

/-- The key condition `k` compares with the one value of the equality `c`. A filter would do the same for
an operand, would ask for absence instead of comparing with null, and would leave a pattern to the
caller. -/
structure ComparesBare (glyph : Char) (t : Table) (k : KeyCondition) (c : Comparison) (l : Literal)
    (value : Json) : Prop where
  values : c.values = [l]
  bind : t.bind c.field l = .ok value
  equates : k.Equates c.field value
  agrees_iff : Condition.ofComparison glyph t c = .ok (.test c.field .eq value) ↔ l.IsOperand glyph
  pattern : l.hasWildcard glyph = true → Condition.ofComparison glyph t c = .error .noForm
  null : l.isNull = true → l.hasWildcard glyph = false →
    Condition.ofComparison glyph t c = .ok (.absent c.field)

theorem Absorbs.comparesBare {index : Index} {ps : List Predicate} {k : KeyCondition}
    {absorbed : List (Nat × Comparison)} (h : Absorbs t index ps k absorbed)
    {a : Nat × Comparison} (ha : a ∈ absorbed) (hop : a.2.op = .eq) :
    ∃ l value, ComparesBare glyph t k a.2 l value := by
  obtain ⟨l, value, hl, hbind, hequates⟩ := h.equates a ha hop
  obtain ⟨n, op, field, values⟩ := a
  obtain rfl : op = .eq := hop
  obtain rfl : values = [l] := hl
  refine ⟨l, value, rfl, hbind, hequates, Condition.ofComparison_eq_test_iff hbind, ?_, ?_⟩
  · intro hg
    rw [Condition.ofComparison_eq_of_bind hbind, if_pos hg]
  · intro hn hg
    rw [Condition.ofComparison_eq_of_bind hbind, if_neg (by simp [hg]), if_pos hn]

/-- **Equalities that a query absorbs are compared bare.** Whether a filter would say the same depends on
the value alone. -/
theorem comparesBare_of_absorbed {s : Statement} {p : Plan} {k : KeyCondition} (hs : Requested s)
    (h : Plan.ofStatement glyph t s = .ok p) (hk : p.keyCondition = some k) :
    ∃ absorbed, Absorbs t p.index s.conjuncts k absorbed
      ∧ ∀ a ∈ absorbed, a.2.op = .eq → ∃ l value, ComparesBare glyph t k a.2 l value := by
  obtain ⟨primary, -, -, ⟨-, -, hscan⟩ | ⟨-, hquery⟩⟩ := ofStatement_ok h
  · obtain ⟨filter, -, rfl⟩ := scan_ok hscan
    exact absurd hk (by simp)
  · obtain ⟨c, d, hq⟩ := query_ok hquery
    obtain ⟨absorbed, k', hk', habs, -⟩ := hq.absorbs (hasArities_of_requested hs)
    obtain rfl : k' = k := Option.some.inj (hk'.symm.trans hk)
    exact ⟨absorbed, hq.index_eq ▸ habs, fun a ha hop => habs.comparesBare ha hop⟩

/-- Null for the partition key and a pattern for the sort key. -/
def nullAndPattern : Statement where
  table := "orders"
  predicates := [.compare ⟨.eq, "hk", [.bare "null"]⟩, .compare ⟨.eq, "sk", [.bare "re*"]⟩]

theorem statement_nullAndPattern :
    QueryString.statement {} orders "eq(hk,null)&eq(sk,re*)" = .ok nullAndPattern :=
  ok_of_toOption (by decide +kernel)

theorem plan_nullAndPattern :
    ∃ p, Plan.ofStatement '*' orders nullAndPattern = .ok p
      ∧ p.keyCondition = some ⟨"hk", .null, some ⟨"sk", .eq, .string "re*"⟩⟩
      ∧ p.excluded = [] :=
  ⟨_, rfl, rfl, rfl⟩

/-- The query takes the two equalities, of which a filter would compare neither. -/
theorem absorbs_nullAndPattern :
    QueryString.statement {} orders "eq(hk,null)&eq(sk,re*)" = .ok nullAndPattern
      ∧ ∃ p, Plan.ofStatement '*' orders nullAndPattern = .ok p
        ∧ p.keyCondition = some ⟨"hk", .null, some ⟨"sk", .eq, .string "re*"⟩⟩
        ∧ p.excluded = []
        ∧ Condition.ofComparison '*' orders ⟨.eq, "hk", [.bare "null"]⟩ = .ok (.absent "hk")
        ∧ Condition.ofComparison '*' orders ⟨.eq, "sk", [.bare "re*"]⟩ = .error .noForm := by
  obtain ⟨p, hp, hk, hexcluded⟩ := plan_nullAndPattern
  exact ⟨statement_nullAndPattern, p, hp, hk, hexcluded, rfl, rfl⟩

theorem comparesBare_nullAndPattern :
    Requested nullAndPattern
      ∧ ∃ p k, Plan.ofStatement '*' orders nullAndPattern = .ok p ∧ p.keyCondition = some k
        ∧ ∃ absorbed, Absorbs orders p.index nullAndPattern.conjuncts k absorbed
          ∧ ∀ a ∈ absorbed, a.2.op = .eq → ∃ l value, ComparesBare '*' orders k a.2 l value := by
  have hs : Requested nullAndPattern := .query {} orders _ statement_nullAndPattern
  obtain ⟨p, hp, hk, -⟩ := plan_nullAndPattern
  exact ⟨hs, p, _, hp, hk, comparesBare_of_absorbed hs hp hk⟩

end Partition

end Rql

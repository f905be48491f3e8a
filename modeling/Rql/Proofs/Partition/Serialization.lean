import Rql.Proofs.Partition.Accounting
import Rql.Proofs.Partition.Meaning
import Rql.Proofs.Request.Assurance

/-!
# Plans read from JSON

Who gets a plan as a JSON value has less than the plan. The excluded predicates are there as they are
written, so two of them may look alike if one is not plain; of the key condition everything is there; and
of how the excluded predicates combine nothing is there but what the filter shows.

Where that is enough, the JSON value of a plan settles what was asked for (`holds_eq_of_toJson_eq`). It is
not enough for several excluded predicates without a filter, which the caller has to test itself: all of
them have to hold in a row or only one, and both plans are written alike
(`toJson_eq_alternatives`).
-/

namespace Rql.Partition

/-! ## Key conditions -/

theorem SortCondition.op_eq_of_render {a b : SortCondition} (ha : a.op.isSortKeyOperator = true)
    (hb : b.op.isSortKeyOperator = true) (h : a.render "#sk" ":sk" = b.render "#sk" ":sk") :
    a.op = b.op := by
  -- with placeholders for the field and the value, only the operator is left to be seen
  have hform : ∀ op op' : Operator, op.isSortKeyOperator = true → op'.isSortKeyOperator = true →
      (mk "" op .null).render "#sk" ":sk" = (mk "" op' .null).render "#sk" ":sk" → op = op' := by
    intro op op'
    cases op with
    | eq | gt | ge | lt | le | sw => cases op' <;> decide
    | _ => exact fun hop => absurd hop Bool.false_ne_true
  exact hform a.op b.op ha hb h

theorem sortedObject_pair {name name' : String} (h : ¬ name' < name) (value value' : Json) :
    Json.sortedObject [(name, value), (name', value')]
      = .object [(name, value), (name', value')] := by
  simp only [Json.sortedObject, List.foldl, Json.insertMember, if_neg h]

theorem KeyCondition.toJson_eq (k : KeyCondition) :
    k.toJson = .object [
      ("expression", .string k.expression),
      ("names", .object (k.names.map fun (mark, name) => (mark, .string name))),
      ("values", .object k.values),
      ("display", .string k.display)] := by
  have hnames : ¬ "#sk" < "#hk" := by decide
  have hvalues : ¬ ":sk" < ":hk" := by decide
  rw [toJson, names, values]
  cases k.sortKey with
  | none => rfl
  | some s =>
    simp only [Option.map_some, Option.toList_some, List.map_cons, List.map_nil,
      sortedObject_pair hnames, sortedObject_pair hvalues]

theorem KeyCondition.eq_of_toJson {k k' : KeyCondition}
    (hk : ∀ s, k.sortKey = some s → s.op.isSortKeyOperator = true)
    (hk' : ∀ s, k'.sortKey = some s → s.op.isSortKeyOperator = true)
    (h : k.toJson = k'.toJson) : k = k' := by
  rw [toJson_eq, toJson_eq] at h
  simp only [Json.object.injEq, List.cons.injEq, Prod.mk.injEq, Json.string.injEq, true_and] at h
  obtain ⟨hexpression, hnames, hvalues, -⟩ := h
  obtain ⟨key, value, sortKey⟩ := k
  obtain ⟨key', value', sortKey'⟩ := k'
  cases sortKey with
  | none =>
    cases sortKey' with
    | none =>
      obtain rfl : key = key' := by simpa [names] using hnames
      obtain rfl : value = value' := by simpa [values] using hvalues
      rfl
    | some s' => simp [values] at hvalues
  | some s =>
    cases sortKey' with
    | none => simp [values] at hvalues
    | some s' =>
      have hrender : s.render "#sk" ":sk" = s'.render "#sk" ":sk" := by
        simpa [expression] using hexpression
      obtain ⟨rfl, hfield⟩ : key = key' ∧ s.field = s'.field := by simpa [names] using hnames
      obtain ⟨rfl, hvalue⟩ : value = value' ∧ s.value = s'.value := by simpa [values] using hvalues
      have hop := SortCondition.op_eq_of_render (hk s rfl) (hk' s' rfl) hrender
      obtain ⟨field, op, bound⟩ := s
      obtain ⟨field', op', bound'⟩ := s'
      obtain rfl : field = field' := hfield
      obtain rfl : op = op' := hop
      obtain rfl : bound = bound' := hvalue
      rfl

/-! ## What key conditions tell -/

/-- The comparisons ask the same of a key: the column gives their values the same meaning. The start of a
text is a text in any column. -/
structure AskAlike (t : Table) (c d : Comparison) : Prop where
  fits : c.op.isSortKeyOperator = true
  op : c.op = d.op
  field : Text.sameName c.field d.field = true
  value : ∃ l m, c.values = [l] ∧ d.values = [m]
    ∧ if c.op = .sw then l.text = m.text
      else ∃ value, t.bind c.field l = .ok value ∧ t.bind d.field m = .ok value

/-- Comparisons that ask the same of a key hold of the same rows. -/
def TreatsAlike (t : Table) (v : Comparison → Bool) : Prop :=
  ∀ c d, AskAlike t c d → v c = v d

variable {glyph : Char} {t : Table} {s s' : Statement} {p p' : Plan} {v : Comparison → Bool}

theorem KeyCondition.StatesPartition.askAlike {i i' : Index} {k : KeyCondition} {c c' : Comparison}
    (h : k.StatesPartition t i c) (h' : k.StatesPartition t i' c')
    (hc : c.names i.partitionKey = true) (hc' : c'.names i'.partitionKey = true) :
    AskAlike t c c' := by
  obtain ⟨l, hl, hbind⟩ := h.value
  obtain ⟨m, hm, hbind'⟩ := h'.value
  have hkey : i.partitionKey = i'.partitionKey := h.key.symm.trans h'.key
  refine ⟨by rw [h.eq]; rfl, h.eq.trans h'.eq.symm, ?_, l, m, hl, hm, ?_⟩
  · exact Text.sameName_trans hc (Text.sameName_comm _ _ ▸ hkey ▸ hc')
  · rw [if_neg (by rw [h.eq]; decide)]
    exact ⟨_, hbind, hbind'⟩

theorem SortCondition.States.askAlike {sc : SortCondition} {d d' : Comparison} (h : sc.States t d)
    (h' : sc.States t d') : AskAlike t d d' := by
  obtain ⟨l, hl, hvalue⟩ := h.value
  obtain ⟨m, hm, hvalue'⟩ := h'.value
  have hop : d.op = d'.op := h.op.symm.trans h'.op
  refine ⟨h.fits, hop, ?_, l, m, hl, hm, ?_⟩
  · rw [← h.field, h'.field]
    exact Text.sameName_refl _
  · by_cases hsw : d.op = .sw
    · rw [if_pos hsw] at hvalue ⊢
      rw [if_pos (hop ▸ hsw)] at hvalue'
      exact Json.string.inj (hvalue.symm.trans hvalue')
    · rw [if_neg hsw] at hvalue ⊢
      rw [if_neg (hop ▸ hsw)] at hvalue'
      exact ⟨_, hvalue, hvalue'⟩

/-- What is stated by one key condition holds of the same rows. -/
theorem Absorbs.all_eq {i i' : Index} {ps ps' : List Predicate} {k : KeyCondition}
    {absorbed absorbed' : List (Nat × Comparison)} (h : Absorbs t i ps k absorbed)
    (h' : Absorbs t i' ps' k absorbed') (hv : TreatsAlike t v) :
    absorbed.all (fun a => v a.2) = absorbed'.all (fun a => v a.2) := by
  cases h with
  | partition hc hstates hsort _ =>
    cases h' with
    | partition hc' hstates' _ _ =>
      have hvc := hv _ _ (hstates.askAlike hstates' hc.names hc'.names)
      simp only [List.all_cons, List.all_nil, hvc]
    | both _ _ _ _ hsort' _ => exact absurd (hsort.symm.trans hsort') (by simp)
  | both hc hstates _ _ hsort hsc =>
    cases h' with
    | partition _ _ hsort' _ => exact absurd (hsort'.symm.trans hsort) (by simp)
    | both hc' hstates' _ _ hsort' hsc' =>
      obtain rfl := Option.some.inj (hsort.symm.trans hsort')
      have hvc := hv _ _ (hstates.askAlike hstates' hc.names hc'.names)
      have hvd := hv _ _ (hsc.askAlike hsc')
      simp only [List.all_cons, List.all_nil, hvc, hvd]

theorem Absorbs.isSortKeyOperator {i : Index} {ps : List Predicate} {k : KeyCondition}
    {absorbed : List (Nat × Comparison)} (h : Absorbs t i ps k absorbed) :
    ∀ s, k.sortKey = some s → s.op.isSortKeyOperator = true := by
  intro s hs
  cases h with
  | partition _ _ hsort _ => exact absurd (hsort.symm.trans hs) (by simp)
  | both _ _ _ _ hsort hsc =>
    obtain rfl := Option.some.inj (hsort.symm.trans hs)
    rw [hsc.op]
    exact hsc.fits

/-! ## What filters tell -/

theorem Filter.conjunction_eq_of_expression {parts : List Condition} {c d : Conjunction}
    (hlength : 2 ≤ parts.length)
    (h : (Filter.mk c parts).expression = (Filter.mk d parts).expression) : c = d := by
  match parts, hlength with
  | part :: next :: rest, _ =>
    -- the two texts part behind the first condition
    have hjoined := congrArg String.toList h
    simp only [expression, fields, Condition.renderParts, String.toList_append, List.append_assoc,
      List.append_cancel_left_eq] at hjoined
    cases c with
    | and =>
      cases d with
      | and => rfl
      | or => simp [Conjunction.keyword] at hjoined
    | or =>
      cases d with
      | and => simp [Conjunction.keyword] at hjoined
      | or => rfl

/-- Filters that are written alike, of the same predicates, combine them alike. -/
theorem Filter.conjunction_eq_of_toJson {ps : List Predicate} {c d : Conjunction}
    {f g : Option Filter} (hf : ofPredicates glyph t c ps = .ok f)
    (hg : ofPredicates glyph t d ps = .ok g) (hlength : 2 ≤ ps.length)
    (hjson : (f.map toJson).getD .null = (g.map toJson).getD .null)
    (hnone : f = none → c = d) : c = d := by
  cases f with
  | none => exact hnone rfl
  | some f =>
    cases g with
    | none => exact absurd hjson (by simp [toJson])
    | some g =>
      obtain ⟨-, parts, hparts, rfl⟩ := ofPredicates_eq_some_iff.mp hf
      obtain ⟨-, parts', hparts', rfl⟩ := ofPredicates_eq_some_iff.mp hg
      obtain rfl : parts = parts' := Except.ok.inj (hparts.symm.trans hparts')
      have hexpression : (Filter.mk c parts).expression = (Filter.mk d parts).expression := by
        simp only [Option.map_some, Option.getD_some, toJson, Json.object.injEq, List.cons.injEq,
          Prod.mk.injEq, Json.string.injEq, true_and] at hjson
        exact hjson.1
      exact conjunction_eq_of_expression (by rwa [(Condition.compiles glyph t).length_eq hparts]) hexpression

/-! ## What plans tell -/

theorem Access.eq_of_keyword {a b : Access} (h : a.keyword = b.keyword) : a = b := by
  cases a with
  | query =>
    cases b with
    | query => rfl
    | scan => exact absurd h (by decide)
  | scan =>
    cases b with
    | query => exact absurd h (by decide)
    | scan => rfl

/-- What a query absorbs and what it excludes say together what the statement says. -/
theorem Queried.splits {index : Index} {c : Comparison} {d : Option Comparison}
    (hq : Queried glyph t s index p c d) (ha : s.hasArities = true) :
    ∃ absorbed k, p.keyCondition = some k ∧ Absorbs t index s.conjuncts k absorbed
      ∧ ∀ v : Comparison → Bool, s.holds v
          = (absorbed.all (fun a => v a.2) && p.excluded.all (Predicate.holds v)) := by
  obtain ⟨absorbed, k, hk, habs, hplaces⟩ := hq.absorbs ha
  obtain ⟨hfind, -⟩ := partitionComparison_ok hq.partition
  have hand : s.conjunction = .and :=
    Statement.conjunction_of_mem_conjuncts (mem_required.mp (List.mem_of_find?_eq_some hfind))
  have hw : Without (· ∈ absorbed.map Prod.fst) 0 s.conjuncts p.excluded := by
    rw [hq.excluded, hplaces]
    exact without_dropPositions _ _
  refine ⟨absorbed, k, hk, habs, fun v => ?_⟩
  rw [← Statement.all_conjuncts v hand]
  exact all_of_absorbs habs hw v

theorem wellFormed_excluded (hs : s.wellFormed = true) (h : Plan.ofStatement glyph t s = .ok p) :
    ∀ q ∈ p.excluded, q.wellFormed = true := by
  obtain ⟨primary, -, -, ⟨-, -, hscan⟩ | ⟨-, hquery⟩⟩ := ofStatement_ok h
  · obtain ⟨filter, -, rfl⟩ := scan_ok hscan
    exact Predicate.wellFormedMembers_iff.mp hs
  · obtain ⟨c, d, hq⟩ := query_ok hquery
    intro q hmem
    rw [hq.excluded] at hmem
    exact Statement.wellFormed_of_mem_conjuncts hs (mem_of_mem_dropPositions hmem)

/-- The excluded predicates stand in the JSON value as they are written. -/
theorem excluded_eq_of_toJson (hs : s.wellFormed = true) (hs' : s'.wellFormed = true)
    (h : Plan.ofStatement glyph t s = .ok p) (h' : Plan.ofStatement glyph t s' = .ok p')
    (hplain : ∀ c ∈ Predicate.comparisonsOfMembers p.excluded, c.IsPlain)
    (hplain' : ∀ c ∈ Predicate.comparisonsOfMembers p'.excluded, c.IsPlain)
    (hjson : p.excluded.map Predicate.render = p'.excluded.map Predicate.render) :
    p.excluded = p'.excluded :=
  Predicate.map_render_inj
    (fun q hq => ⟨wellFormed_excluded hs h q hq,
      Predicate.forall_comparisonsOfMembers.mp hplain q hq⟩)
    (fun q hq => ⟨wellFormed_excluded hs' h' q hq,
      Predicate.forall_comparisonsOfMembers.mp hplain' q hq⟩)
    hjson

/-- Scans are told by their predicates, which are all excluded, and by how these combine. -/
theorem holds_eq_of_scan {primary primary' : Index} (h : Plan.scan glyph t s primary = .ok p)
    (h' : Plan.scan glyph t s' primary' = .ok p') (hexcluded : p.excluded = p'.excluded)
    (hfilter : (p.filter.map Filter.toJson).getD .null = (p'.filter.map Filter.toJson).getD .null)
    (hconjunction : p.filter = none → 2 ≤ p.excluded.length → p.conjunction = p'.conjunction) :
    s.holds v = s'.holds v := by
  obtain ⟨filter, hf, rfl⟩ := scan_ok h
  obtain ⟨filter', hf', rfl⟩ := scan_ok h'
  dsimp only at hexcluded hfilter hconjunction
  rw [← hexcluded] at hf'
  rw [Statement.holds, Statement.holds, ← hexcluded]
  -- how one predicate combines with no other does not matter
  rcases hps : s.predicates with _ | ⟨q, _ | ⟨q', rest⟩⟩
  · rfl
  · simp [Predicate.holdTogether, Predicate.truths]
  · have hlength : 2 ≤ s.predicates.length := by simp [hps]
    rw [Filter.conjunction_eq_of_toJson hf hf' hlength hfilter
      fun hnone => hconjunction hnone hlength]

/-- Queries are told by their key conditions and the excluded predicates. -/
theorem Queried.holds_eq {i i' : Index} {c c' : Comparison} {d d' : Option Comparison}
    (hq : Queried glyph t s i p c d) (hq' : Queried glyph t s' i' p' c' d')
    (ha : s.hasArities = true) (ha' : s'.hasArities = true)
    (hkey : (p.keyCondition.map KeyCondition.toJson).getD .null
      = (p'.keyCondition.map KeyCondition.toJson).getD .null)
    (hexcluded : p.excluded = p'.excluded) (hv : TreatsAlike t v) : s.holds v = s'.holds v := by
  obtain ⟨absorbed, k, hk, habs, hholds⟩ := hq.splits ha
  obtain ⟨absorbed', k', hk', habs', hholds'⟩ := hq'.splits ha'
  rw [hk, hk'] at hkey
  obtain rfl : k = k' :=
    KeyCondition.eq_of_toJson habs.isSortKeyOperator habs'.isSortKeyOperator hkey
  rw [hholds, hholds', habs.all_eq habs' hv, hexcluded]

/-- **What a plan is written as settles what was asked for**, if the excluded predicates are plain and
their conjunction is known where there are several of them and no filter. -/
theorem holds_eq_of_toJson_eq (hs : Requested s) (hs' : Requested s')
    (h : Plan.ofStatement glyph t s = .ok p) (h' : Plan.ofStatement glyph t s' = .ok p')
    (hjson : p.toJson = p'.toJson)
    (hplain : ∀ c ∈ Predicate.comparisonsOfMembers p.excluded, c.IsPlain)
    (hplain' : ∀ c ∈ Predicate.comparisonsOfMembers p'.excluded, c.IsPlain)
    (hconjunction : p.filter = none → 2 ≤ p.excluded.length → p.conjunction = p'.conjunction)
    (hv : TreatsAlike t v) : s.holds v = s'.holds v := by
  simp only [Plan.toJson, Json.object.injEq, List.cons.injEq, Prod.mk.injEq, Json.string.injEq,
    Json.strings, Json.array.injEq, true_and] at hjson
  obtain ⟨-, haccess, hkey, hexcluded, hfilter, -⟩ := hjson
  have haccess : p.access = p'.access := Access.eq_of_keyword haccess
  have hexcluded : p.excluded = p'.excluded :=
    excluded_eq_of_toJson (wellFormed_of_requested hs) (wellFormed_of_requested hs') h h' hplain
      hplain' (List.map_injective_iff.mpr (fun _ _ => Json.string.inj) hexcluded)
  obtain ⟨primary, -, -, ⟨-, -, hscan⟩ | ⟨-, hquery⟩⟩ := ofStatement_ok h <;>
    obtain ⟨primary', -, -, ⟨-, -, hscan'⟩ | ⟨-, hquery'⟩⟩ := ofStatement_ok h'
  · exact holds_eq_of_scan hscan hscan' hexcluded hfilter hconjunction
  · obtain ⟨c', d', hq'⟩ := query_ok hquery'
    obtain ⟨filter, -, rfl⟩ := scan_ok hscan
    exact nomatch haccess.trans hq'.access
  · obtain ⟨c, d, hq⟩ := query_ok hquery
    obtain ⟨filter', -, rfl⟩ := scan_ok hscan'
    exact nomatch hq.access.symm.trans haccess
  · obtain ⟨c, d, hq⟩ := query_ok hquery
    obtain ⟨c', d', hq'⟩ := query_ok hquery'
    exact hq.holds_eq hq' (hasArities_of_requested hs) (hasArities_of_requested hs') hkey hexcluded
      hv

/-- The partition in capital letters, and in front of what is left to test. -/
def partitionFirst : Statement where
  table := "orders"
  predicates := [.compare ⟨.eq, "HK", [.bare "north"]⟩, .compare ⟨.ew, "name", [.bare "a"]⟩,
    .compare ⟨.ew, "name", [.bare "b"]⟩]

/-- The same partition in the middle of what is left to test. -/
def partitionBetween : Statement where
  table := "orders"
  predicates := [.compare ⟨.ew, "name", [.bare "a"]⟩, .compare ⟨.eq, "hk", [.bare "north"]⟩,
    .compare ⟨.ew, "name", [.bare "b"]⟩]

/-- The plan for the two. -/
def partitionPlan : Plan where
  index := .ofPrimaryKeys "hk" (some "sk")
  access := .query
  keyCondition := some ⟨"hk", .string "north", none⟩
  excluded := [.compare ⟨.ew, "name", [.bare "a"]⟩, .compare ⟨.ew, "name", [.bare "b"]⟩]
  conjunction := .and
  filter := none
  order := none
  limit := 100
  marker := none

/-- One plan for both, so they hold of the same rows. -/
theorem holds_partitionFirst_eq :
    QueryString.statement {} orders "eq(HK,north)&ew(name,a)&ew(name,b)" = .ok partitionFirst
      ∧ QueryString.statement {} orders "ew(name,a)&eq(hk,north)&ew(name,b)" = .ok partitionBetween
      ∧ TreatsAlike orders (fun c => c.op == .eq)
      ∧ Plan.ofStatement '*' orders partitionFirst = .ok partitionPlan
      ∧ Plan.ofStatement '*' orders partitionBetween = .ok partitionPlan
      ∧ partitionFirst.holds (fun c => c.op == .eq) = partitionBetween.holds (fun c => c.op == .eq) := by
  have hs : QueryString.statement {} orders "eq(HK,north)&ew(name,a)&ew(name,b)"
      = .ok partitionFirst := ok_of_toOption (by decide +kernel)
  have hs' : QueryString.statement {} orders "ew(name,a)&eq(hk,north)&ew(name,b)"
      = .ok partitionBetween := ok_of_toOption (by decide +kernel)
  have hv : TreatsAlike orders (fun c => c.op == .eq) :=
    fun _ _ h => congrArg (· == Operator.eq) h.op
  have hp : Plan.ofStatement '*' orders partitionFirst = .ok partitionPlan := rfl
  have hp' : Plan.ofStatement '*' orders partitionBetween = .ok partitionPlan := rfl
  have hplain : ∀ c ∈ Predicate.comparisonsOfMembers partitionPlan.excluded, c.IsPlain := by
    decide +kernel
  exact ⟨hs, hs', hv, hp, hp', holds_eq_of_toJson_eq (.query _ _ _ hs) (.query _ _ _ hs') hp hp' rfl
    hplain hplain (fun _ _ => rfl) hv⟩

/-- Both of two endings. -/
def bothEndings : Statement where
  table := "orders"
  predicates := [.compare ⟨.ew, "name", [.bare "a"]⟩, .compare ⟨.ew, "name", [.bare "b"]⟩]

/-- One of two endings. -/
def eitherEnding : Statement := { bothEndings with conjunction := .or }

/-- The caller is given the same two endings, whether both have to hold or only one. -/
theorem toJson_eq_alternatives :
    QueryString.statement {} orders "ew(name,a)&ew(name,b)" = .ok bothEndings
      ∧ QueryString.statement {} orders "or(ew(name,a),ew(name,b))" = .ok eitherEnding
      ∧ (∃ p p', Plan.ofStatement '*' orders bothEndings = .ok p
        ∧ Plan.ofStatement '*' orders eitherEnding = .ok p'
        ∧ p.toJson = p'.toJson ∧ p.conjunction ≠ p'.conjunction)
      ∧ ∃ v, TreatsAlike orders v ∧ bothEndings.holds v = false ∧ eitherEnding.holds v = true := by
  refine ⟨ok_of_toOption (by decide +kernel), ok_of_toOption (by decide +kernel),
    ⟨_, _, rfl, rfl, rfl, by decide⟩, ?_⟩
  refine ⟨fun c => c.op == .ew && c.values == [.bare "a"], fun c d h => ?_, by decide, by decide⟩
  -- no condition on a key is an ending
  have hc : (c.op == .ew) = false := by
    rw [beq_eq_false_iff_ne]
    intro hop
    have hfits := h.fits
    rw [hop] at hfits
    exact absurd hfits Bool.false_ne_true
  dsimp only
  rw [← h.op, hc, Bool.false_and, Bool.false_and]

end Rql.Partition

import Rql.Proofs.Partition.Ordering
import Rql.Request.Statement

/-!
# One more index

An index is chosen by the keys that the conjuncts name, whatever they ask of them. Only then are the
operators looked at, and there is no way back to another index. So a further index can cost a request its
plan: it is chosen because its keys are named, and refused because one of them is not compared for
equality, say.

`ofStatement_withIndex` says when this happens. With the new index behind all others the choice stays as
it was, or falls on the new index, or on the primary index in its place if both have the same partition
key. Where it stays, so does the plan. Where it changes there is a plan exactly if the index that was
chosen takes all comparisons with its keys (`Takes`). This leaves the values aside: a filter that stops at
a predicate without a form never gets to see whether a later value fits its column, but a key does.
-/

namespace Rql

/-- The table with one more index, behind all others. -/
def Table.withIndex (t : Table) (j : Index) : Table :=
  { t with indexes := t.indexes ++ [j] }

namespace Partition

variable {glyph : Char} {t : Table} {s : Statement} {i j primary : Index} {p : Plan}

theorem primaryIndex?_withIndex (j : Index) (hp : t.primaryIndex? = some primary) :
    (t.withIndex j).primaryIndex? = some primary := by
  rw [Table.primaryIndex?, Table.withIndex, List.find?_append]
  rw [Table.primaryIndex?] at hp
  rw [hp, Option.some_or]

theorem planOver_withIndex (chosen : Option Index) :
    planOver glyph (t.withIndex j) s primary chosen = planOver glyph t s primary chosen :=
  planOver_indexes chosen

/-! ## The choice with one more index -/

theorem candidates_withIndex (cs : List Comparison) :
    candidates (t.withIndex j) cs
      = candidates t cs ++ if covers cs j.partitionKey then [j] else [] := by
  rw [candidates, Table.withIndex, List.filter_append, List.filter_cons, List.filter_nil,
    ← candidates]

theorem lastServing_concat (cs : List Comparison) (order : Option Order) (is : List Index) :
    lastServing cs order (is ++ [j])
      = if serves cs order j then some j else lastServing cs order is := by
  rw [lastServing, List.foldl_append]
  rfl

/-- **The choice stays, or falls on the new index or on the primary index in its place.** -/
theorem choice_withIndex (t : Table) (s : Statement) (j primary : Index) :
    choice (t.withIndex j) s primary = choice t s primary
      ∨ choice (t.withIndex j) s primary = some j
      ∨ choice (t.withIndex j) s primary = some primary
        ∧ Text.sameName j.partitionKey primary.partitionKey = true := by
  have hcandidates := candidates_withIndex (t := t) (j := j) (required s)
  by_cases hcovers : covers (required s) j.partitionKey = true
  · rw [if_pos hcovers] at hcandidates
    have hne : (candidates t (required s) ++ [j]).isEmpty = false := by simp
    rw [choice, chooseIndex, hcandidates, hne, if_neg Bool.false_ne_true,
      lastServing_concat]
    by_cases hserves : serves (required s) s.order.head? j = true
    · rw [if_pos hserves]
      exact .inr (.inl rfl)
    · rw [if_neg hserves]
      cases hlast : lastServing (required s) s.order.head? (candidates t (required s)) with
      | some i =>
        -- an index that served before still is the last one that does
        refine .inl ?_
        rw [choice, chooseIndex, hlast, if_neg]
        intro hnil
        rw [List.isEmpty_iff.mp hnil] at hlast
        exact absurd hlast (by simp [lastServing])
      | none =>
        rw [List.getLast?_concat]
        dsimp only
        by_cases hsame : Text.sameName j.partitionKey primary.partitionKey = true
        · rw [if_pos hsame]
          exact .inr (.inr ⟨rfl, hsame⟩)
        · rw [if_neg hsame]
          exact .inr (.inl rfl)
  · rw [if_neg hcovers, List.append_nil] at hcandidates
    refine .inl ?_
    rw [choice, choice, chooseIndex, chooseIndex, hcandidates]

/-! ## What an index takes -/

/-- The index takes all comparisons with its keys. -/
structure Takes (s : Statement) (i : Index) : Prop where
  partition : ∀ c ∈ required s, c.names i.partitionKey = true → c.op = .eq
  sort : ∀ key, i.sortKey = some key → ∀ c ∈ required s, c.names key = true → fitsSortKey c = true

/-- The error tells of a comparison with a key that the index does not take. -/
inductive Untaken (s : Statement) (i : Index) : Error → Prop where
  | partition {c : Comparison} :
      c ∈ required s → c.names i.partitionKey = true → c.op ≠ .eq →
      Untaken s i (.unsupportedOperator c.op c.field .partitionKeyEquality)
  | sort {key : String} {c : Comparison} :
      i.sortKey = some key → c ∈ required s → c.names key = true → fitsSortKey c = false →
      Untaken s i (.unsupportedOperator c.op c.field .sortKeyOperators)

theorem Takes.not_untaken {e : Error} (h : Takes s i) : ¬Untaken s i e := by
  rintro (⟨hmem, hnames, hop⟩ | ⟨hkey, hmem, hnames, hfits⟩)
  · exact hop (h.partition _ hmem hnames)
  · exact absurd (hfits.symm.trans (h.sort _ hkey _ hmem hnames)) Bool.false_ne_true

theorem takes_of_query (h : Plan.query glyph t s (required s) i = .ok p) : Takes s i := by
  obtain ⟨c, d, hq⟩ := query_ok h
  exact ⟨(partitionComparison_ok hq.partition).2, (sortComparison_ok hq.sort).2⟩

/-- Every equality has a value, and all values that have to fit a column do. -/
def ValuesFit (t : Table) (s : Statement) : Prop :=
  ∀ c ∈ s.comparisons, (c.op = .eq → c.values ≠ [])
    ∧ (c.op.isTyped = true → ∀ l ∈ c.values, ∃ value, t.bind c.field l = .ok value)

/-- Apart from values and order, a query can only be refused for a comparison with a key. -/
theorem untaken_of_query (hfit : ValuesFit t s)
    (hcovers : covers (required s) i.partitionKey = true)
    (horder : ∀ narrowed, ∃ order, resolveOrder i s.order.head? narrowed = .ok order) :
    RefusesBy (Untaken s i) (Plan.query glyph t s (required s) i) := by
  refine refusesBy_query ?_ ?_ ?_ ?_ ?_
  · refine refusesBy_partitionComparison (fun c => .partition) fun hnot => ?_
    exact absurd (hnot.symm.trans hcovers) Bool.false_ne_true
  · exact refusesBy_sortComparison fun key hkey c => .sort hkey
  · intro narrowed
    obtain ⟨order, ho⟩ := horder narrowed
    rw [ho]
    exact .ok order
  · intro c hc hop hnil
    exact absurd hnil ((hfit c (mem_comparisons_of_mem_required hc)).1 hop)
  · intro c hc htyped l hl
    obtain ⟨value, hvalue⟩ := (hfit c hc).2 htyped l hl
    rw [hvalue]
    exact .ok value

/-- An order that was given once is given by whatever index is chosen with one more. -/
theorem resolves_withIndex (h : Plan.ofStatement glyph t s = .ok p) (hi : choice (t.withIndex j) s primary = some i)
    (narrowed : Bool) : ∃ order, resolveOrder i s.order.head? narrowed = .ok order := by
  obtain ⟨-, -, hlength, -⟩ := ofStatement_ok h
  match hs : s.order with
  | [] => exact ⟨_, resolveOrder_none i narrowed⟩
  | [o] =>
    -- the index of the plan still sorts on the field, so the last one that does is chosen
    have hlast := (order_of_ofStatement hs h).2
    obtain ⟨hmem, hsorts⟩ := List.mem_filter.mp (List.mem_of_getLast? hlast)
    obtain ⟨i', hi'⟩ := exists_lastSorting (t := t.withIndex j)
      ⟨p.index, List.mem_append_left _ hmem, hsorts⟩
    have hchosen : i = i' := by
      rw [choice] at hi
      split at hi
      · exact absurd hi (by simp)
      · rw [hs, List.head?_cons, chooseIndex_of_lastSorting hi'] at hi
        exact (Option.some.inj hi).symm
    rw [hchosen]
    exact ⟨_, resolveOrder_of_sortsOn narrowed (lastSorting_mem hi').2⟩
  | _ :: _ :: _ => simp [hs] at hlength

/-! ## Requests that had a plan -/

/-- What becomes of a statement with the plan `p` when the index `j` is added. -/
structure Extension (glyph : Char) (t : Table) (s : Statement) (j primary : Index) (p : Plan) :
    Prop where
  /-- The choice stays, or falls on the new index or on the primary index in its place. -/
  chosen : choice (t.withIndex j) s primary = choice t s primary
    ∨ choice (t.withIndex j) s primary = some j
    ∨ choice (t.withIndex j) s primary = some primary
      ∧ Text.sameName j.partitionKey primary.partitionKey = true
  /-- Where it stays, the plan does. -/
  kept : choice (t.withIndex j) s primary = choice t s primary →
    Plan.ofStatement glyph (t.withIndex j) s = .ok p
  /-- There is a plan exactly if the index that is chosen takes all comparisons with its keys. -/
  accepted_iff : (∃ p', Plan.ofStatement glyph (t.withIndex j) s = .ok p')
    ↔ ∀ i, choice (t.withIndex j) s primary = some i → Takes s i
  /-- And if it does not, the request is refused for one of them. -/
  refused : RefusesBy (fun e => ∃ i, choice (t.withIndex j) s primary = some i ∧ Untaken s i e)
    (Plan.ofStatement glyph (t.withIndex j) s)

/-- **One more index costs a request its plan exactly if the index that is chosen now does not take a
comparison with one of its keys.** -/
theorem ofStatement_withIndex (j : Index) (hp : t.primaryIndex? = some primary)
    (hfit : ValuesFit t s) (h : Plan.ofStatement glyph t s = .ok p) :
    Extension glyph t s j primary p := by
  obtain ⟨-, -, hlength, -⟩ := ofStatement_ok h
  have hplan : Plan.ofStatement glyph (t.withIndex j) s
      = planOver glyph t s primary (choice (t.withIndex j) s primary) := by
    rw [ofStatement_eq (primaryIndex?_withIndex j hp) hlength, planOver_withIndex]
  have hkept : choice (t.withIndex j) s primary = choice t s primary →
      Plan.ofStatement glyph (t.withIndex j) s = .ok p := by
    intro hsame
    rw [hplan, hsame, ← ofStatement_eq hp hlength, h]
  have hrefused : RefusesBy
      (fun e => ∃ i, choice (t.withIndex j) s primary = some i ∧ Untaken s i e)
      (Plan.ofStatement glyph (t.withIndex j) s) := by
    cases hchoice : choice (t.withIndex j) s primary with
    | none =>
      -- no conjunct names a partition key now, so none did before
      rcases choice_withIndex t s j primary with hsame | hnew | ⟨hprimary, -⟩
      · rw [hkept hsame]
        exact .ok p
      · exact absurd (hchoice.symm.trans hnew) (by simp)
      · exact absurd (hchoice.symm.trans hprimary) (by simp)
    | some i =>
      have hcovers := covers_of_choice (primaryIndex?_withIndex j hp) hchoice
      rw [hplan, hchoice]
      exact fun e he =>
        ⟨i, rfl, untaken_of_query hfit hcovers (resolves_withIndex h hchoice) e he⟩
  refine ⟨choice_withIndex t s j primary, hkept, ?_, hrefused⟩
  constructor
  · rintro ⟨p', hp'⟩ i hi
    rw [hplan, hi] at hp'
    exact takes_of_query hp'
  · intro htakes
    cases hok : Plan.ofStatement glyph (t.withIndex j) s with
    | ok p' => exact ⟨p', rfl⟩
    | error e =>
      obtain ⟨i, hi, huntaken⟩ := hrefused e hok
      exact absurd huntaken (htakes i hi).not_untaken

/-- A table with nothing but its primary index. -/
def tickets : Table where
  name := "tickets"
  backend := .partitionKey
  columns := [{ name := "rank", type := "N" }]
  indexes := [.ofPrimaryKeys "hk" none]

def byStatus : Index := .ofKeys "by_status" .globalSecondary "status" none

def byRank : Index := .ofKeys "by_rank" .localSecondary "hk" (some "rank")

/-- The open tickets of a partition. -/
def openTickets : Statement where
  table := "tickets"
  predicates := [.compare ⟨.eq, "hk", [.bare "1"]⟩, .compare ⟨.eq, "status", [.bare "open"]⟩]

/-- All tickets of a partition but the open ones. -/
def otherTickets : Statement where
  table := "tickets"
  predicates := [.compare ⟨.eq, "hk", [.bare "1"]⟩, .compare ⟨.ne, "status", [.bare "open"]⟩]

/-- An ending, for which there is no filter, in front of a rank that is no number. -/
def topTickets : Statement where
  table := "tickets"
  predicates := [.compare ⟨.eq, "hk", [.bare "1"]⟩, .compare ⟨.ew, "name", [.bare "a"]⟩,
    .compare ⟨.gt, "rank", [.bare "top"]⟩]

/-- The new index is taken instead of the primary one. -/
theorem extension_openTickets :
    tickets.primaryIndex? = some (.ofPrimaryKeys "hk" none)
      ∧ ValuesFit tickets openTickets
      ∧ ∃ p, Plan.ofStatement '*' tickets openTickets = .ok p
        ∧ p.index = .ofPrimaryKeys "hk" none
        ∧ choice (tickets.withIndex byStatus) openTickets (.ofPrimaryKeys "hk" none) = some byStatus
        ∧ Extension '*' tickets openTickets byStatus (.ofPrimaryKeys "hk" none) p := by
  have hp : tickets.primaryIndex? = some (.ofPrimaryKeys "hk" none) := rfl
  have hfit : ValuesFit tickets openTickets := by
    refine List.forall_mem_cons.mpr ⟨?_, List.forall_mem_singleton.mpr ?_⟩
    · exact ⟨fun _ => List.cons_ne_nil _ _, fun _ => List.forall_mem_singleton.mpr ⟨_, rfl⟩⟩
    · exact ⟨fun _ => List.cons_ne_nil _ _, fun _ => List.forall_mem_singleton.mpr ⟨_, rfl⟩⟩
  obtain ⟨p, hplan, hindex⟩ : ∃ p, Plan.ofStatement '*' tickets openTickets = .ok p
      ∧ p.index = .ofPrimaryKeys "hk" none := ⟨_, rfl, rfl⟩
  exact ⟨hp, hfit, p, hplan, hindex, by decide +kernel,
    ofStatement_withIndex byStatus hp hfit hplan⟩

/-- An index whose partition key is compared for inequality costs a plan, and so does one whose sort key
is compared with a value that was never looked at. -/
theorem refused_withIndex :
    tickets.validate = .ok ()
      ∧ (byStatus.isPrimary = false ∧ byStatus.partitionKey = "status"
        ∧ QueryString.statement {} tickets "eq(hk,1)&ne(status,open)" = .ok otherTickets
        ∧ (∃ p, Plan.ofStatement '*' tickets otherTickets = .ok p)
        ∧ Plan.ofStatement '*' (tickets.withIndex byStatus) otherTickets
          = .error (.unsupportedOperator .ne "status" .partitionKeyEquality))
      ∧ byRank.isPrimary = false ∧ byRank.partitionKey = "hk"
        ∧ QueryString.statement {} tickets "eq(hk,1)&ew(name,a)&gt(rank,top)" = .ok topTickets
        ∧ (∃ p, Plan.ofStatement '*' tickets topTickets = .ok p)
        ∧ Plan.ofStatement '*' (tickets.withIndex byRank) topTickets
          = .error (.malformed (.typeMismatch "top" "N" "rank")) := by
  have hother : QueryString.statement {} tickets "eq(hk,1)&ne(status,open)" = .ok otherTickets :=
    ok_of_toOption (by decide +kernel)
  have htop : QueryString.statement {} tickets "eq(hk,1)&ew(name,a)&gt(rank,top)" = .ok topTickets :=
    ok_of_toOption (by decide +kernel)
  exact ⟨rfl, ⟨rfl, rfl, hother, ⟨_, rfl⟩, rfl⟩, rfl, rfl, htop, ⟨_, rfl⟩, rfl⟩

end Partition

end Rql

import Rql.Proofs.Partition.Refusals
import Rql.Proofs.Partition.Selection
import Rql.Proofs.Request.RoundTrip
import Rql.Proofs.Search.Meaning
import Rql.Proofs.Session.Steps
import Rql.Proofs.Sql.Steps

/-!
# What compilers may count on

A predicate is checked when it is built: fields are not empty, operators have as many values as they take,
groups have members. Compilers are written as if every predicate were checked, and nothing in a statement
makes it so. It has to follow from the way a statement came about: read from a query string, opened if it
was a lone group, put behind the keys of entities by a session. `Requested` names these ways, and
`checked_of_requested` is the invariant that all of them keep.

From it follows what a compiler would have to look for otherwise (`assured_of_requested`). A comparison
that is taken for a key has its value. No compiler refuses a statement for what only a mistake in the
library could bring about (`Error.IsInternal`); a place where a predicate would be neither a comparison
nor a group does not exist in the first place. And the compiler for the search engine refuses nothing.
-/

namespace Rql

/-- The ways a statement comes from a request. -/
inductive Requested (s : Statement) : Prop where
  /-- From a query string alone. -/
  | query (config : Config) (t : Table) (query : String) :
      QueryString.statement config t query = .ok s → Requested s
  /-- From the query string and the keys that a session was given. -/
  | session (session : Session) (r : Request) (t : Table) :
      session.statement r = .ok (t, s) → Requested s

/-! ## Statements of requests are checked -/

variable {s : Statement}

theorem ofParameters_of_queryString {config : Config} {t : Table} {query : String}
    (h : QueryString.statement config t query = .ok s) :
    ∃ params, Statement.ofParameters config t params = .ok s := by
  rw [QueryString.statement] at h
  split at h
  · exact absurd h (by simp)
  · exact ⟨_, h⟩

theorem checked_of_keyPredicate {t : Table} {keys : String} {p : Predicate}
    (h : t.keyPredicate keys = .ok p) : p.Checked := by
  obtain ⟨_, _, _, -, -, -, c, hc, rfl⟩ := Table.keyPredicate_ok h
  obtain ⟨rfl, hfield, harity⟩ := Predicate.make_ok hc
  exact ⟨harity, List.forall_mem_singleton.mpr hfield⟩

theorem checked_restrict {p : Predicate} (hs : ∀ q ∈ s.predicates, q.Checked)
    (hor : s.conjunction = .or → s.predicates ≠ []) (hp : p.Checked) :
    ∀ q ∈ (s.restrict p).predicates, q.Checked := by
  rw [Statement.restrict]
  cases hc : s.conjunction with
  | and => exact List.forall_mem_cons.mpr ⟨hp, hs⟩
  | or =>
    refine List.forall_mem_cons.mpr ⟨hp, List.forall_mem_singleton.mpr ?_⟩
    exact Predicate.checked_group_iff.mpr ⟨hor hc, hs⟩

/-- **Every predicate of a request is checked, at any depth.** -/
theorem checked_of_requested (h : Requested s) : ∀ p ∈ s.predicates, p.Checked := by
  cases h with
  | query config t query h =>
    obtain ⟨params, hparams⟩ := ofParameters_of_queryString h
    exact Statement.checked_of_ofParameters hparams
  | session session r t h =>
    obtain ⟨plain, hplain, hs⟩ := Session.statementOn_ok (Session.statement_ok h).2
    obtain ⟨params, hparams⟩ := ofParameters_of_queryString hplain
    have hchecked := Statement.checked_of_ofParameters hparams
    rcases hs with ⟨-, rfl⟩ | ⟨keys, p, -, hp, rfl⟩
    · exact hchecked
    · exact checked_restrict hchecked (Statement.ne_nil_of_or hparams) (checked_of_keyPredicate hp)

theorem wellFormed_of_requested (h : Requested s) : s.wellFormed = true :=
  Predicate.wellFormedMembers_iff.mpr fun p hp => (checked_of_requested h p hp).wellFormed

theorem hasArities_of_requested (h : Requested s) : s.hasArities = true :=
  List.all_eq_true.mpr (Predicate.hasArity_of_wellFormedMembers _ (wellFormed_of_requested h))

/-! ## Errors that no request meets -/

/-- The error tells of a statement, or of a choice, that cannot be: a comparison without the value that
its operator requires, or a chosen index whose partition key is not covered. -/
def Error.IsInternal : Error → Prop
  | .malformed (.noValue _) => True
  | .invalidMetadata _ .partitionKeyNotCovered => True
  | _ => False

/-- The request itself may be refused for it. -/
def Error.IsExternal (e : Error) : Prop :=
  ¬ e.IsInternal

namespace Partition

/-- **A planner that is given as many values as operators take refuses only requests.** -/
theorem refusesBy_ofStatement {glyph : Char} {t : Table} (ha : s.hasArities = true) :
    RefusesBy Error.IsExternal (Plan.ofStatement glyph t s) := by
  have hvalues : ∀ c ∈ s.comparisons, ValuesRefusedBy Error.IsExternal t c :=
    fun _ _ _ _ _ => refusesBy_bind fun _ _ => id
  unfold Plan.ofStatement
  split
  · exact .error id
  · exact .error id
  · next primary hprimary _ =>
    dsimp only
    split
    · split
      · exact .error id
      · exact (refusesBy_filter hvalues).bind fun _ _ => .ok _
    · next hcandidates =>
      refine refusesBy_query ?_ ?_ ?_ ?_ hvalues
      · refine refusesBy_partitionComparison (fun _ _ _ _ => id) fun hnot => ?_
        have hcovers := covers_chooseIndex s.order.head? hprimary
          fun he => hcandidates (List.isEmpty_iff.mpr he)
        exact absurd (hnot.symm.trans hcovers) Bool.false_ne_true
      · exact refusesBy_sortComparison fun _ _ _ _ _ _ => id
      · intro narrowed
        unfold resolveOrder
        split
        · split
          · exact .ok _
          · exact .error id
        · exact .error id
        · exact .ok _
        · exact .ok _
      · intro c hc hop hnil
        obtain ⟨l, hl⟩ := eq_singleton_of_hasArity
          (List.all_eq_true.mp ha c (mem_comparisons_of_mem_required hc)) (by rw [hop]; rfl)
        rw [hl] at hnil
        exact absurd hnil (List.cons_ne_nil l [])

end Partition

namespace Sql

variable {glyph : Char} {t : Table}

theorem refusesBy_column (t : Table) (field : String) :
    RefusesBy Error.IsExternal (column t field) := by
  unfold column
  split
  · exact .ok _
  · exact .error id

namespace Condition

theorem refusesBy_ofComparison {c : Comparison} (ha : c.hasArity = true) :
    RefusesBy Error.IsExternal (ofComparison glyph t c) := by
  rw [ofComparison_eq]
  refine (refusesBy_column t c.field).bind fun col _ => ?_
  obtain ⟨op, field, values⟩ := c
  cases op with
  | eq | ne | gt | ge | lt | le =>
    obtain ⟨l, rfl⟩ := eq_singleton_of_hasArity ha rfl
    exact .ok _
  | search => exact .error id
  | _ => exact .ok _

theorem refusesBy_ofPredicates (ps : List Predicate) (hw : Predicate.wellFormedMembers ps = true) :
    RefusesBy Error.IsExternal (ofPredicates glyph t ps) :=
  (compiles glyph t).refusesBy fun c hc =>
    refusesBy_ofComparison (Predicate.hasArity_of_wellFormedMembers ps hw c hc)

end Condition

theorem refusesBy_ofStatement {d : Dialect} (hw : s.wellFormed = true) :
    RefusesBy Error.IsExternal (Query.ofStatement d glyph t s) := by
  have hfilter : RefusesBy Error.IsExternal (Condition.ofStatement glyph t s) := by
    unfold Condition.ofStatement
    split
    · next e he => exact .error (Condition.refusesBy_ofPredicates _ hw e he)
    · exact .ok _
    · exact .ok _
  have horder : RefusesBy Error.IsExternal (Select.requestedOrder t s.order) :=
    .mapM fun o _ => (refusesBy_column t o.field).map _
  exact RefusesBy.map (hfilter.bind fun _ _ => horder.bind fun _ _ => .ok _) _

end Sql

namespace Search

/-- A statement without predicates asks for everything, any other has the clauses of its predicates. -/
theorem exists_request (settings : Settings) (hw : s.wellFormed = true) :
    ∃ r, Request.ofStatement settings s = .ok r := by
  rw [Request.ofStatement, exists_map_ok_iff]
  cases hps : s.predicates with
  | nil => exact ⟨.all, by rw [Query.ofStatement, hps]⟩
  | cons p ps =>
    have hne : s.predicates ≠ [] := by rw [hps]; exact List.cons_ne_nil p ps
    obtain ⟨clauses, hclauses, -⟩ :=
      exists_clausesBelow_holds hne (says_memberOf_of_mem s.predicates hw) s.conjunction
    rw [ofStatement_eq_queryOf, queryOf, hclauses]
    exact ⟨_, rfl⟩

end Search

/-! ## All compilers -/

/-- What a compiler need not look for in a statement. -/
structure Statement.Assured (s : Statement) : Prop where
  /-- At any depth fields are not empty, operators have as many values as they take, and groups have
  members. -/
  checked : ∀ p ∈ s.predicates, p.Checked
  /-- The equality that is taken for the partition key has a value. -/
  partitionValue : ∀ t index c,
    Partition.partitionComparison t index (Partition.required s) = .ok c → 0 < c.values.length
  /-- So has the comparison that is taken for the sort key. -/
  sortValue : ∀ index c,
    Partition.sortComparison index (Partition.required s) = .ok (some c) → 0 < c.values.length
  /-- No compiler gives an internal error for any table. -/
  refusals : ∀ (compiler : Compiler) (t : Table) (e : Error),
    compiler.compile t s = .error e → ¬ e.IsInternal
  /-- The search engine can always be asked. -/
  search : ∀ settings, ∃ r, Search.Request.ofStatement settings s = .ok r

/-- **Whatever was requested, compilers may count on it.** -/
theorem assured_of_requested (h : Requested s) : s.Assured where
  checked := checked_of_requested h
  partitionValue t index c hc := by
    obtain ⟨hfind, heq⟩ := Partition.partitionComparison_ok hc
    have hmem := List.mem_of_find?_eq_some hfind
    have ha := List.all_eq_true.mp (hasArities_of_requested h) c
      (Partition.mem_comparisons_of_mem_required hmem)
    obtain ⟨l, hl⟩ := eq_singleton_of_hasArity ha (by rw [heq c hmem (List.find?_some hfind)]; rfl)
    rw [hl]
    exact Nat.one_pos
  sortValue index c hc := by
    obtain ⟨hd, hfits⟩ := Partition.sortComparison_ok hc
    obtain ⟨key, hkey, hfind⟩ := Option.bind_eq_some_iff.mp hd.symm
    have hc := hfits key hkey c (List.mem_of_find?_eq_some hfind) (List.find?_some hfind)
    rw [Partition.fitsSortKey, Bool.and_eq_true, beq_iff_eq] at hc
    rw [hc.2]
    exact Nat.one_pos
  refusals compiler t := by
    cases compiler with
    | sql dialect glyph => exact RefusesBy.map (Sql.refusesBy_ofStatement (wellFormed_of_requested h)) _
    | partition glyph =>
      exact RefusesBy.map (Partition.refusesBy_ofStatement (hasArities_of_requested h)) _
    | search settings =>
      obtain ⟨r, hr⟩ := Search.exists_request settings (wellFormed_of_requested h)
      rw [Compiler.compile, hr]
      exact RefusesBy.ok _
  search settings := Search.exists_request settings (wellFormed_of_requested h)

/-- A table whose rows have a key. -/
def players : Table where
  name := "players"
  backend := .search
  columns := [.key "id" ""]

/-- Alternatives among the rows with two keys. -/
def amongKeys : Statement where
  table := "players"
  predicates := [
    .compare ⟨.isIn, "id", [.bare "7", .ofQuoted "a,b"]⟩,
    .group .or [.compare ⟨.sw, "club.name", [.bare "Fen"]⟩, .compare ⟨.nemp, "rank", []⟩]]

/-- A request for alternatives among two players. -/
def twoPlayers : Request where
  table := "Players"
  query := "or(sw(club.name,Fen),nemp(rank))"
  keys := some "7,'a,b'"

/-- The keys come first, and the alternatives make a group. -/
theorem assured_amongKeys :
    (Session.new {} ⟨[players]⟩).statement twoPlayers = .ok (players, amongKeys)
      ∧ amongKeys.Assured := by
  have hstatement : (Session.new {} ⟨[players]⟩).statement twoPlayers = .ok (players, amongKeys) :=
    ok_of_toOption (by decide +kernel)
  exact ⟨hstatement, assured_of_requested (.session _ _ _ hstatement)⟩

end Rql

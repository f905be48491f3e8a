import Rql.Proofs.Request.Rearrangement

/-!
# Several calls are one group

Calls that are parameters of their own mean the same as the one parameter that is `and` of them, and `or`
of them means their alternatives. It does not matter how the calls are written. A call that is read on its
own is read the same as an argument (`Padded.of_call`): the name in front of its parenthesis opens no quote,
and what stands inside is scanned one parenthesis deeper with the same outcome. So the commas between the
calls are those that cut (`ofText_callOf`), whatever commas, quotes and parentheses the calls hold.

A statement is that of the other parameters with the predicates put in (`ofParameters_predicates_eq`). Two
calls or more stay as they are, and of the group that stands alone one level is opened, which leaves the
same predicates (`ofParameters_joined`).
-/

namespace Rql

namespace Term

/-- The call of a name with some texts as arguments. -/
def callOf (name : String) (texts : List String) : String :=
  name ++ "(" ++ Text.join "," texts ++ ")"

/-- **A call is the same as an argument as on its own.** -/
theorem Padded.of_call {cs : List Char} {name : String} {args : List Term} (place : Place)
    (h : Padded .alone cs (.call name args)) : Padded place cs (.call name args) := by
  cases h with
  | intro hbefore hexact hafter =>
    cases hexact with
    | call hname hgap hargs => exact .intro hbefore (.call hname hgap hargs) hafter

theorem arguments_join {texts : List String} {ts : List Term}
    (h : List.Forall₂ (fun text t => Padded .argument text.toList t) texts ts) :
    Arguments (Text.join "," texts).toList ts := by
  induction h with
  | nil => exact .none Text.blank_nil
  | @cons text t texts ts hhead htail ih =>
    cases htail with
    | nil =>
      rw [Text.join_singleton]
      exact .last hhead
    | @cons text' t' texts ts _ _ =>
      have hjoin : (Text.join "," (text :: text' :: texts)).toList
          = text.toList ++ ',' :: (Text.join "," (text' :: texts)).toList := by
        rw [Text.join_cons_cons]
        simp
      rw [hjoin]
      exact .cons hhead ih

/-- **Texts that are read as calls are the arguments of the call that they are put into.** -/
theorem ofText_callOf {name : String} {texts : List String} {ts : List Term}
    (hname : IsName name.toList)
    (h : List.Forall₂ (fun text t => ofText text = .ok t ∧ t.isCall = true) texts ts) :
    ofText (callOf name texts) = .ok (.call name ts) := by
  have hargs : Arguments (Text.join "," texts).toList ts := by
    refine arguments_join (h.imp fun text t ⟨hread, hcall⟩ => ?_)
    have hpadded : Padded .alone text.toList t := padded_of_ofChars .alone hread nofun
    cases t with
    | word l => exact absurd hcall Bool.false_ne_true
    | call name args => exact hpadded.of_call .argument
  have hexact : Exact .alone (callOf name texts).toList (.call name ts) := by
    rw [callOf, toList_call]
    have hcall : Exact .alone _ (.call (.ofList name.toList) ts) := .call hname Text.blank_nil hargs
    rwa [String.ofList_toList] at hcall
  exact ofChars_of_exact hexact

end Term

namespace Predicate

theorem isCall_of_ofTerm {t : Term} {p : Predicate} (h : ofTerm t = .ok p) : t.isCall = true := by
  cases t with
  | word l => exact absurd h (by simp [ofTerm])
  | call name args => rfl

/-- The texts of predicates as terms. -/
theorem exists_terms {texts : List String} {ps : List Predicate}
    (h : List.Forall₂ (fun text p => (Term.ofText text >>= ofTerm) = .ok p) texts ps) :
    ∃ ts, List.Forall₂ (fun text t => Term.ofText text = .ok t ∧ t.isCall = true) texts ts
      ∧ ofTerms ts = .ok ps := by
  induction h with
  | nil => exact ⟨[], .nil, rfl⟩
  | @cons text p texts ps hhead _ ih =>
    obtain ⟨t, ht, hp⟩ := bind_ok hhead
    obtain ⟨ts, hts, hps⟩ := ih
    refine ⟨t :: ts, .cons ⟨ht, isCall_of_ofTerm hp⟩ hts, ?_⟩
    rw [ofTerms, hp]
    simp only [hps]

/-- **The call of a conjunction with the texts of predicates is the group of them.** -/
theorem reads_callOf (c : Conjunction) {texts : List String} {ps : List Predicate} (hne : ps ≠ [])
    (h : List.Forall₂ (fun text p => (Term.ofText text >>= ofTerm) = .ok p) texts ps) :
    (Term.ofText (Term.callOf c.token texts) >>= ofTerm) = .ok (.group c ps) := by
  obtain ⟨ts, hts, hps⟩ := exists_terms h
  rw [Term.ofText_callOf c.isName_token hts]
  show ofTerm (.call c.token ts) = _
  rw [ofTerm, Conjunction.ofToken?_token]
  simp only [hps]
  rw [makeGroup, if_neg (by rwa [List.isEmpty_iff])]

end Predicate

namespace Statement

variable {config : Config} {table : Table} {params : List (String × String)}

/-! ## Calls that are accepted on their own -/

/-- A call that is accepted on its own is a predicate. -/
theorem exists_predicate {key : String} {s : Statement} (hcall : Term.looksLikeCall key = true)
    (h : ofParameters config table [(key, "")] = .ok s) :
    ∃ p, (Term.ofText key >>= Predicate.ofTerm) = .ok p := by
  obtain ⟨read, hread, -⟩ := ofParameters_ok h
  rw [given_call config hcall] at hread
  obtain ⟨p, hp, -⟩ := map_ok hread
  exact ⟨p, hp⟩

/-! ## Predicates among other parameters -/

theorem assemble_eq (config : Config) (name : String) (read : List Parameter) :
    assemble config name read = (pageOf config read).map fun page =>
      { table := name
        conjunction := (openGroup (read.filterMap Parameter.predicate?)).1
        predicates := (openGroup (read.filterMap Parameter.predicate?)).2
        order := read.flatMap Parameter.orders
        page } := by
  rw [assemble]
  cases pageOf config read <;> rfl

/-- The parameters that are no predicates. -/
def others (params : List (String × String)) : List (String × String) :=
  params.filter fun param => decide (classOf param ≠ none)

/-- The parameters that are predicates, if they are read at all. -/
def predicative (params : List (String × String)) : List (String × String) :=
  params.filter fun param => decide (classOf param = none)

/-- **A statement is that of the other parameters with the predicates put in**, refusals included. -/
theorem ofParameters_predicates_eq (table : Table) {ps : List Predicate}
    (hps : given config (predicative params) = .ok (ps.map .predicate)) :
    ofParameters config table params
      = (ofParameters config table (others params)).map fun s =>
          { s with conjunction := (openGroup ps).1, predicates := (openGroup ps).2 } := by
  have hleave (r : Option Parameter.Reserved) : decide (r ≠ none) = !decide (r = none) :=
    decide_not
  rw [ofParameters_eq, ofParameters_eq]
  cases hothers : given config (others params) with
  | error fault =>
    rw [given_error_of_parts (fun r => decide (r = none)) _ hleave hps hothers]
    rfl
  | ok os =>
    obtain ⟨read, hread, hnone, hrest⟩ :=
      given_of_parts (fun r => decide (r = none)) _ hleave hps hothers
    have hsome (r : Parameter.Reserved) : AgreeOn (some r) read os := hrest (some r) rfl
    have hpreds : read.filterMap Parameter.predicate? = ps := by
      rw [predicates_congr (hnone none rfl), List.filterMap_map]
      exact List.filterMap_some
    have hread' : (given config params >>= assemble config table.name)
        = assemble config table.name read := by
      rw [hread]
      rfl
    have hos : (Except.ok os >>= assemble config table.name) = assemble config table.name os := rfl
    rw [hread', hos, assemble_eq, assemble_eq, pageOf_congr fun r _ => hsome r,
      orders_congr (hsome .order), hpreds]
    cases pageOf config os <;> rfl

/-! ## One parameter for several -/

/-- `whole` has one parameter where `separate` has one for each of the calls. Everything else stands in the
same order, and none of it is a predicate. -/
structure Joins (c : Conjunction) (keys : List String) (separate whole : List (String × String)) :
    Prop where
  several : predicative separate = keys.map (·, "")
  single : predicative whole = [(Term.callOf c.token keys, "")]
  others : others whole = others separate

theorem looksLikeCall_callOf (c : Conjunction) (keys : List String) :
    Term.looksLikeCall (Term.callOf c.token keys) = true :=
  (Parameter.isCallKey_append c.isName_token _).looksLikeCall

/-- **Several calls mean the same as one call of `and` with them, and one call of `or` means their
alternatives**, wherever they stand among parameters that are no predicates. -/
theorem ofParameters_joined (config : Config) (table : Table) {c : Conjunction} {keys : List String}
    {separate whole : List (String × String)} (hlength : 2 ≤ keys.length)
    (hcall : ∀ key ∈ keys, Term.looksLikeCall key = true)
    (halone : ∀ key ∈ keys, ∃ s, ofParameters config table [(key, "")] = .ok s)
    (h : Joins c keys separate whole) :
    ∃ ps, List.Forall₂ (fun key p => (Term.ofText key >>= Predicate.ofTerm) = .ok p) keys ps
      ∧ ofParameters config table separate = (ofParameters config table (others separate)).map
          (fun s => { s with conjunction := .and, predicates := ps })
      ∧ ofParameters config table whole
          = (ofParameters config table separate).map (fun s => { s with conjunction := c })
      ∧ (c = .and → ofParameters config table whole = ofParameters config table separate) := by
  have hread : ∀ key ∈ keys, ∃ p, (Term.ofText key >>= Predicate.ofTerm) = .ok p := by
    intro key hkey
    obtain ⟨s, hs⟩ := halone key hkey
    exact exists_predicate (hcall key hkey) hs
  obtain ⟨ps, hps⟩ := exists_mapM_ok hread
  have hkeys := forall₂_of_mapM hps fun key _ p hp => hp
  have hlen : 2 ≤ ps.length := hkeys.length_eq ▸ hlength
  have hne : ps ≠ [] := by
    rintro rfl
    simp at hlen
  -- two predicates or more stay as they are
  have hopen : openGroup ps = (.and, ps) := by
    unfold openGroup
    split
    · simp at hlen
    · rfl
  have hseparate := ofParameters_predicates_eq table
    ((congrArg (given config) h.several).trans (given_calls config hcall hkeys))
  have hgroup : given config (predicative whole) = .ok ([.group c ps].map .predicate) := by
    rw [h.single, given_call config (looksLikeCall_callOf c keys), Predicate.reads_callOf c hne hkeys]
    rfl
  have hwhole := ofParameters_predicates_eq table hgroup
  rw [hopen] at hseparate
  rw [h.others] at hwhole
  refine ⟨ps, hkeys, hseparate, ?_, ?_⟩
  · rw [hwhole, hseparate]
    cases ofParameters config table (others separate) <;> rfl
  · rintro rfl
    rw [hwhole, hseparate]
    rfl

/-- A call with quotes, a comma and parentheses in quotes, and one with blanks and an apostrophe. -/
def calls : List String :=
  ["eq(a,'\\'),(')", " ne( a,O'B ) "]

/-- The calls around another parameter. -/
def callsApart : List (String × String) :=
  [(calls[0], ""), ("limit", "5"), (calls[1], "")]

/-- Their alternatives behind it. -/
def callsJoined : List (String × String) :=
  [("limit", "5"), (Term.callOf "or" calls, "")]

/-- What the calls ask for, and how it combines. -/
def askedBy (c : Conjunction) : Statement where
  table := "towns"
  conjunction := c
  predicates := [.compare ⟨.eq, "a", [.ofQuoted "'),("]⟩, .compare ⟨.ne, "a", [.bare "O'B"]⟩]
  page := { maxRows := 5 }

theorem ofParameters_callsJoined :
    2 ≤ calls.length
      ∧ (∀ key ∈ calls, Term.looksLikeCall key = true)
      ∧ (∀ key ∈ calls, ∃ s, ofParameters {} towns [(key, "")] = .ok s)
      ∧ Joins .or calls callsApart callsJoined
      ∧ ofParameters {} towns callsApart = .ok (askedBy .and)
      ∧ ofParameters {} towns callsJoined = .ok (askedBy .or) := by
  have hlength : 2 ≤ calls.length := by decide
  have hcall : ∀ key ∈ calls, Term.looksLikeCall key = true := by decide +kernel
  have hsome : ∀ key ∈ calls, (ofParameters {} towns [(key, "")]).toOption.isSome = true := by
    decide +kernel
  have halone : ∀ key ∈ calls, ∃ s, ofParameters {} towns [(key, "")] = .ok s := by
    intro key hkey
    obtain ⟨s, hs⟩ := Option.isSome_iff_exists.mp (hsome key hkey)
    exact ⟨s, ok_of_toOption hs⟩
  have hjoins : Joins .or calls callsApart callsJoined :=
    ⟨by decide +kernel, by decide +kernel, by decide +kernel⟩
  have hapart : ofParameters {} towns callsApart = .ok (askedBy .and) :=
    ok_of_toOption (by decide +kernel)
  obtain ⟨_, -, -, hjoined, -⟩ := ofParameters_joined {} towns hlength hcall halone hjoins
  rw [hapart] at hjoined
  exact ⟨hlength, hcall, halone, hjoins, hapart, hjoined⟩

end Statement

end Rql

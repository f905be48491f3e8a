import Rql.Proofs.Predicate.Notation
import Rql.Request.Statement

/-!
# What a request that is read went through

A statement is put together from parameters that were read one by one (`ofParameters_ok`). The three
notations of a predicate all end in the checked ways to build one, so every predicate of a statement is
checked, at any depth (`checked_of_ofParameters`).

A key that is a call, without a value, is read as the term that it is (`read_call`, `given_call`): no such
key is reserved, whatever the case of its letters.
-/

namespace Rql

theorem Term.ofText_trimmed (s : String) : Term.ofText (Text.trimmed s) = Term.ofText s := by
  rw [Term.ofText, Term.ofText, Text.trimmed, String.toList_ofList, Term.ofChars_trim]

namespace Parameter

/-! ## Keys that are calls -/

/-- No reserved name has a parenthesis in it. -/
theorem reserved?_eq_none {key : String} (h : '(' ∈ key.toList) : reserved? key = none := by
  rw [reserved?, List.lookup_eq_none_iff]
  intro entry hentry
  have hname : ∀ entry ∈ reservedNames, '(' ∉ entry.1.toList := by decide
  have hfold : '(' ∈ (Text.foldCase key).toList := by
    rw [Text.foldCase, String.toList_ofList]
    exact List.mem_map.mpr ⟨'(', h, rfl⟩
  rw [bne_iff_ne]
  intro he
  rw [he] at hfold
  exact hname entry hentry hfold

/-- A key that is read as the term that it is. -/
structure IsCallKey (key : String) : Prop where
  trimmed : Text.Trimmed key.toList
  looksLikeCall : Term.looksLikeCall key = true

theorem IsCallKey.parenthesis {key : String} (h : IsCallKey key) : '(' ∈ key.toList := by
  have hcall := h.looksLikeCall
  rw [Term.looksLikeCall, Text.trim_eq_self h.trimmed, Bool.and_eq_true] at hcall
  simpa using hcall.2

theorem read_call (config : Config) {key : String} (h : IsCallKey key) :
    read config key "" = (Term.ofText key >>= Predicate.ofTerm).map .predicate := by
  rw [read, reserved?_eq_none h.parenthesis, readPredicate, if_pos h.looksLikeCall, if_pos rfl]

/-- Blanks around a call do not keep it from being one. -/
theorem isCallKey_trimmed {key : String} (h : Term.looksLikeCall key = true) :
    IsCallKey (Text.trimmed key) := by
  constructor
  · rw [Text.trimmed, String.toList_ofList]
    exact Text.trimmed_trim _
  · rw [Term.looksLikeCall] at h ⊢
    rwa [Text.trimmed, String.toList_ofList, Text.trim_trim]

/-- The text of a call of a name, whatever stands between its parentheses. -/
theorem isCallKey_append {name : String} (hname : Term.IsName name.toList) (inside : String) :
    IsCallKey (name ++ "(" ++ inside ++ ")") := by
  have htrimmed := hname.trimmed_call [] inside.toList
  constructor
  · rwa [Term.toList_call]
  · rw [Term.looksLikeCall, Term.toList_call, Text.trim_eq_self htrimmed, List.append_nil,
      hname.startsQuoted_append]
    simp

/-! ## Predicates -/

theorem checked_of_readEquality {field value : String} {p : Predicate}
    (h : readEquality field value = .ok p) : p.Checked := by
  rw [readEquality] at h
  obtain ⟨l, -, h⟩ := bind_ok h
  exact Predicate.checked_of_ofOperatorCall h

theorem checked_of_readShorthand {field value : String} {p : Predicate}
    (h : readShorthand field value = .ok p) : p.Checked := by
  rw [readShorthand] at h
  -- the value is a call of an operator, or it is compared with as it is
  split at h
  · obtain ⟨t, -, h⟩ := bind_ok h
    split at h
    · split at h
      · exact Predicate.checked_of_ofOperatorCall h
      · exact checked_of_readEquality h
    · exact checked_of_readEquality h
  · exact checked_of_readEquality h

theorem checked_of_readPredicate {key value : String} {p : Predicate}
    (h : readPredicate key value = .ok p) : p.Checked := by
  rw [readPredicate] at h
  split at h
  · -- the key is a call
    split at h
    · obtain ⟨t, -, h⟩ := bind_ok h
      exact Predicate.checked_of_ofTerm t h
    · exact absurd h throw_ne_ok
  · split at h
    · exact absurd h throw_ne_ok
    · obtain ⟨l, -, h⟩ := bind_ok h
      exact checked_of_readShorthand h

/-- A parameter that is a predicate has no reserved key. -/
theorem readPredicate_of_read {config : Config} {key value : String} {p : Predicate}
    (h : read config key value = .ok (.predicate p)) :
    reserved? key = none ∧ readPredicate key value = .ok p := by
  rw [read] at h
  cases hkey : reserved? key with
  | none =>
    rw [hkey] at h
    obtain ⟨q, hq, he⟩ := map_ok h
    rw [← Parameter.predicate.inj he]
    exact ⟨rfl, hq⟩
  | some reserved =>
    rw [hkey] at h
    cases reserved with
    | marker => exact absurd h (by simp)
    | response => exact absurd h (by simp)
    | _ =>
      obtain ⟨_, -, he⟩ := map_ok h
      exact absurd he (by simp)

end Parameter

namespace Statement

variable {config : Config} {table : Table} {params : List (String × String)} {s : Statement}

/-- The parameters of a request, read one by one. -/
def given (config : Config) (params : List (String × String)) : Except Fault (List Parameter) :=
  (significant params).mapM fun (key, value) => Parameter.read config key value

theorem ofParameters_eq (config : Config) (table : Table) (params : List (String × String)) :
    ofParameters config table params =
      (given config params >>= assemble config table.name).mapError .malformed := rfl

theorem assemble_ok {name : String} {read : List Parameter} (h : assemble config name read = .ok s) :
    ∃ page, pageOf config read = .ok page ∧
      s = { table := name
            conjunction := (openGroup (read.filterMap Parameter.predicate?)).1
            predicates := (openGroup (read.filterMap Parameter.predicate?)).2
            order := read.flatMap Parameter.orders
            page } := by
  rw [assemble] at h
  obtain ⟨page, hpage, h⟩ := bind_ok h
  exact ⟨page, hpage, (Except.ok.inj h).symm⟩

theorem ofParameters_ok (h : ofParameters config table params = .ok s) :
    ∃ read, given config params = .ok read ∧ assemble config table.name read = .ok s := by
  rw [ofParameters_eq] at h
  exact bind_ok (mapError_ok h)

theorem significant_call {key : String} (h : Term.looksLikeCall key = true) :
    significant [(key, "")] = [(Text.trimmed key, "")] := by
  have hne : Text.trimmed key ≠ "" := by
    intro he
    have hopen := (Parameter.isCallKey_trimmed h).parenthesis
    rw [he] at hopen
    exact absurd hopen List.not_mem_nil
  have hblank : Text.trimmed "" = "" := by decide
  rw [significant, List.map_singleton]
  show [(Text.trimmed key, Text.trimmed "")].filter _ = _
  rw [hblank, List.filter_cons_of_pos (by simpa using hne)]
  rfl

theorem given_call (config : Config) {key : String} (h : Term.looksLikeCall key = true) :
    given config [(key, "")]
      = (Term.ofText key >>= Predicate.ofTerm).map fun p => [.predicate p] := by
  have hread := Parameter.read_call config (Parameter.isCallKey_trimmed h)
  rw [Term.ofText_trimmed] at hread
  rw [given, significant_call h, List.mapM_cons]
  simp only [hread]
  cases Term.ofText key >>= Predicate.ofTerm <;> rfl

theorem given_append (config : Config) (params params' : List (String × String)) :
    given config (params ++ params') = do
      let read ← given config params
      let read' ← given config params'
      return read ++ read' := by
  rw [given, significant, List.map_append, List.filter_append, ← significant, ← significant,
    List.mapM_append]
  rfl

/-- Keys that are predicates are read as these. -/
theorem given_calls (config : Config) {keys : List String} {ps : List Predicate}
    (hcall : ∀ key ∈ keys, Term.looksLikeCall key = true)
    (h : List.Forall₂ (fun key p => (Term.ofText key >>= Predicate.ofTerm) = .ok p) keys ps) :
    given config (keys.map (·, "")) = .ok (ps.map .predicate) := by
  induction h with
  | nil => rfl
  | @cons key p keys ps hhead _ ih =>
    have htail := ih fun k hk => hcall k (List.mem_cons_of_mem key hk)
    rw [List.map_cons, ← List.singleton_append, given_append, htail,
      given_call config (hcall key List.mem_cons_self), hhead]
    rfl

/-- A parameter that cannot be read is why the request cannot. -/
theorem ofParameters_error {fault : Fault} (h : given config params = .error fault) :
    ofParameters config table params = .error (.malformed fault) := by
  rw [ofParameters_eq, h]
  rfl

theorem checked_openGroup {ps : List Predicate} (h : ∀ p ∈ ps, p.Checked) :
    ∀ p ∈ (openGroup ps).2, p.Checked := by
  unfold openGroup
  split
  · exact (Predicate.checked_group_iff.mp (List.forall_mem_singleton.mp h)).2
  · exact h

theorem checked_of_given {read : List Parameter} (h : given config params = .ok read) :
    ∀ p ∈ read.filterMap Parameter.predicate?, p.Checked := by
  intro p hp
  obtain ⟨param, hparam, hpred⟩ := List.mem_filterMap.mp hp
  obtain ⟨⟨key, value⟩, -, hfrom⟩ := exists_of_mem_mapM h hparam
  cases param with
  | predicate q =>
    obtain rfl := Option.some.inj hpred
    exact Parameter.checked_of_readPredicate (Parameter.readPredicate_of_read hfrom).2
  | _ => exact absurd hpred (by simp [Parameter.predicate?])

/-- **Whatever the notation, the predicates of a statement are checked.** -/
theorem checked_of_ofParameters (h : ofParameters config table params = .ok s) :
    ∀ p ∈ s.predicates, p.Checked := by
  obtain ⟨read, hread, h⟩ := ofParameters_ok h
  obtain ⟨_, -, rfl⟩ := assemble_ok h
  exact checked_openGroup (checked_of_given hread)

/-- Only a group makes alternatives, and a group has members. -/
theorem ne_nil_of_or (h : ofParameters config table params = .ok s) (hor : s.conjunction = .or) :
    s.predicates ≠ [] := by
  obtain ⟨read, hread, h⟩ := ofParameters_ok h
  obtain ⟨_, -, rfl⟩ := assemble_ok h
  have hchecked := checked_of_given hread
  revert hor hchecked
  show (openGroup _).1 = .or → _ → (openGroup _).2 ≠ []
  unfold openGroup
  split
  · next heq =>
    intro _ hchecked
    rw [heq] at hchecked
    exact (Predicate.checked_group_iff.mp (hchecked _ List.mem_cons_self)).1
  · exact fun hor => nomatch hor

end Statement

end Rql

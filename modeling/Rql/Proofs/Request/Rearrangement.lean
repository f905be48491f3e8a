import Rql.Proofs.Request.Reading

/-!
# Parameters in another order

The keys of parameters sort them into classes: the predicates, one class for each thing that a key may be
reserved for, and those that are passed over. A parameter says something about its own class only
(`matter_of_read`), and each part of a statement is made from one class: the orders and the predicates from
all parameters of theirs, the page size and the marker from the last one of theirs, and the offset from the
last page number or else the last offset, with whatever page size it comes to in the end.

So only the order inside of the classes matters. `AgreeOn` compares what two lists of parameters say about
one class; lists that agree on every class make up one statement (`assemble_congr`), and a rearrangement
that leaves every class in its order agrees on all of them (`ofParameters_rearranged`). Which of several bad
parameters is refused may change, whether any is refused may not.
-/

namespace Rql

namespace Parameter

/-- What a parameter says something about; none for a predicate. -/
def matter : Parameter → Option Reserved
  | .order _ => some .order
  | .pageSize _ => some .pageSize
  | .offset _ => some .offset
  | .page _ => some .page
  | .marker _ => some .marker
  | .response => some .response
  | .predicate _ => none

/-- **A parameter says something about what its key is reserved for**, and nothing else. -/
theorem matter_of_read {config : Config} {key value : String} {p : Parameter}
    (h : read config key value = .ok p) : p.matter = reserved? key := by
  rw [read] at h
  cases hkey : reserved? key with
  | none =>
    rw [hkey] at h
    obtain ⟨_, -, rfl⟩ := map_ok h
    rfl
  | some reserved =>
    rw [hkey] at h
    cases reserved with
    | marker =>
      obtain rfl := Except.ok.inj h
      rfl
    | response =>
      obtain rfl := Except.ok.inj h
      rfl
    | _ =>
      obtain ⟨_, -, rfl⟩ := map_ok h
      rfl

end Parameter

namespace Statement

variable {config : Config} {table : Table} {read read' : List Parameter}

/-! ## What readings say about one class -/

/-- The two readings have the same parameters of a class, in the same order. -/
def AgreeOn (r : Option Parameter.Reserved) (read read' : List Parameter) : Prop :=
  read.filter (·.matter = r) = read'.filter (·.matter = r)

theorem flatMap_matter {β : Type} {f : Parameter → List β} {r : Option Parameter.Reserved}
    (hf : ∀ p, ∀ x ∈ f p, p.matter = r) (read : List Parameter) :
    (read.filter (·.matter = r)).flatMap f = read.flatMap f := by
  induction read with
  | nil => rfl
  | cons p rest ih =>
    rw [List.filter_cons, List.flatMap_cons]
    split
    · rw [List.flatMap_cons, ih]
    · rename_i hp
      have hnil : f p = [] := by
        refine List.eq_nil_iff_forall_not_mem.mpr fun x hx => hp ?_
        exact decide_eq_true (hf p x hx)
      rw [hnil, List.nil_append, ih]

/-- Whatever is taken from the parameters of one class is the same. -/
theorem AgreeOn.flatMap {β : Type} {f : Parameter → List β} {r : Option Parameter.Reserved}
    (h : AgreeOn r read read') (hf : ∀ p, ∀ x ∈ f p, p.matter = r) :
    read.flatMap f = read'.flatMap f := by
  rw [← flatMap_matter hf read, ← flatMap_matter hf read', h]

theorem AgreeOn.filterMap {β : Type} {what : Parameter → Option β} {r : Option Parameter.Reserved}
    (h : AgreeOn r read read') (hwhat : ∀ p x, what p = some x → p.matter = r) :
    read.filterMap what = read'.filterMap what := by
  rw [List.filterMap_eq_flatMap_toList, List.filterMap_eq_flatMap_toList]
  exact h.flatMap fun p x hx => hwhat p x (Option.mem_toList.mp hx)

theorem AgreeOn.last? {β : Type} {what : Parameter → Option β} {r : Option Parameter.Reserved}
    (h : AgreeOn r read read') (hwhat : ∀ p x, what p = some x → p.matter = r) :
    last? what read = last? what read' := by
  rw [Statement.last?, Statement.last?, h.filterMap hwhat]

/-! ## What a statement is made from -/

/-- The page comes from four classes, none of them that of the orders. -/
theorem pageOf_congr (h : ∀ r, r ≠ .order → AgreeOn (some r) read read') :
    pageOf config read = pageOf config read' := by
  have hsize : last? Parameter.pageSize? read = last? Parameter.pageSize? read' :=
    (h .pageSize nofun).last? fun | .pageSize _, _, _ => rfl
  have hoffset : last? Parameter.offset? read = last? Parameter.offset? read' :=
    (h .offset nofun).last? fun | .offset _, _, _ => rfl
  have hnumber : last? Parameter.page? read = last? Parameter.page? read' :=
    (h .page nofun).last? fun | .page _, _, _ => rfl
  have hmarker : last? Parameter.marker? read = last? Parameter.marker? read' :=
    (h .marker nofun).last? fun | .marker _, _, _ => rfl
  rw [pageOf, pageOf, hsize, hoffset, hnumber, hmarker]

theorem orders_congr (h : AgreeOn (some .order) read read') :
    read.flatMap Parameter.orders = read'.flatMap Parameter.orders :=
  h.flatMap fun | .order _, _, _ => rfl

theorem predicates_congr (h : AgreeOn none read read') :
    read.filterMap Parameter.predicate? = read'.filterMap Parameter.predicate? :=
  h.filterMap fun | .predicate _, _, _ => rfl

/-- **Readings that agree on every class make up one statement.** -/
theorem assemble_congr (name : String) (h : ∀ r, AgreeOn r read read') :
    assemble config name read = assemble config name read' := by
  rw [assemble, assemble, pageOf_congr fun r _ => h (some r), orders_congr (h (some .order)),
    predicates_congr (h none)]

/-! ## Classes of parameters -/

/-- The class of a parameter: what its key is reserved for, none for a predicate. A parameter without a
key is passed over, as those for the response are. -/
def classOf (param : String × String) : Option Parameter.Reserved :=
  if Text.trimmed param.1 = "" then some .response else Parameter.reserved? (Text.trimmed param.1)

/-- Leaving classes out commutes with taking the blanks off. -/
theorem significant_filter (keep : Option Parameter.Reserved → Bool) (params : List (String × String)) :
    significant (params.filter fun param => keep (classOf param))
      = (significant params).filter fun param => keep (Parameter.reserved? param.1) := by
  rw [significant, significant, List.filter_map, List.filter_map, List.filter_map, List.filter_filter,
    List.filter_filter]
  refine congrArg (List.map _) (List.filter_congr fun param _ => ?_)
  by_cases hkey : Text.trimmed param.1 = ""
  · simp [hkey]
  · simp [hkey, classOf]

/-- The parameters of some classes are read as what the reading has of these classes. -/
theorem given_filter {params : List (String × String)} (keep : Option Parameter.Reserved → Bool)
    (h : given config params = .ok read) :
    given config (params.filter fun param => keep (classOf param))
      = .ok (read.filter fun p => keep p.matter) := by
  rw [given, significant_filter]
  refine mapM_filter (fun param p hp => ?_) h
  exact congrArg keep (Parameter.matter_of_read hp)

/-- **Classes can be read apart from the others**: what is read of all parameters says the same about the
classes on either side as what is read of this side alone. -/
theorem given_of_parts {params : List (String × String)} {kept rest : List Parameter}
    (keep leave : Option Parameter.Reserved → Bool) (hleave : ∀ r, leave r = !keep r)
    (hkept : given config (params.filter fun param => keep (classOf param)) = .ok kept)
    (hrest : given config (params.filter fun param => leave (classOf param)) = .ok rest) :
    ∃ read, given config params = .ok read ∧ (∀ r, keep r = true → AgreeOn r read kept)
      ∧ ∀ r, keep r = false → AgreeOn r read rest := by
  have hall : ∃ read, given config params = .ok read := by
    refine exists_mapM_ok fun param hparam => ?_
    rw [given, significant_filter] at hkept hrest
    cases hclass : keep (Parameter.reserved? param.1) with
    | true => exact exists_ok_of_mapM hkept (List.mem_filter.mpr ⟨hparam, hclass⟩)
    | false =>
      exact exists_ok_of_mapM hrest (List.mem_filter.mpr ⟨hparam, by rw [hleave, hclass]; rfl⟩)
  obtain ⟨read, hread⟩ := hall
  have hside (side : Option Parameter.Reserved → Bool) (r : Option Parameter.Reserved)
      (hr : side r = true) : AgreeOn r read (read.filter fun p => side p.matter) := by
    rw [AgreeOn, List.filter_filter]
    refine List.filter_congr fun p _ => ?_
    by_cases hp : p.matter = r
    · rw [hp, hr, Bool.and_true]
    · rw [decide_eq_false hp, Bool.false_and]
  refine ⟨read, hread, fun r hr => ?_, fun r hr => ?_⟩
  · rw [Except.ok.inj (hkept.symm.trans (given_filter keep hread))]
    exact hside keep r hr
  · rw [Except.ok.inj (hrest.symm.trans (given_filter leave hread))]
    exact hside leave r (by rw [hleave, hr]; rfl)

/-- If some classes can be read, it is a parameter of the others that is refused. -/
theorem given_error_of_parts {params : List (String × String)} {kept : List Parameter} {fault : Fault}
    (keep leave : Option Parameter.Reserved → Bool) (hleave : ∀ r, leave r = !keep r)
    (hkept : given config (params.filter fun param => keep (classOf param)) = .ok kept)
    (hrest : given config (params.filter fun param => leave (classOf param)) = .error fault) :
    given config params = .error fault := by
  rw [given, significant_filter] at hkept hrest
  refine mapM_error_of_filter (fun param hparam hclass => ?_) hrest
  refine exists_ok_of_mapM hkept (List.mem_filter.mpr ⟨hparam, ?_⟩)
  rwa [hleave, Bool.not_eq_false'] at hclass

/-- A permutation of parameters that keeps the order inside of each class. -/
structure Rearranged (params params' : List (String × String)) : Prop where
  perm : params.Perm params'
  inOrder : ∀ r, params.filter (classOf · = r) = params'.filter (classOf · = r)

variable {params params' : List (String × String)}

theorem Rearranged.symm (h : Rearranged params params') : Rearranged params' params :=
  ⟨h.perm.symm, fun r => (h.inOrder r).symm⟩

theorem Rearranged.agreeOn (h : Rearranged params params') (hread : given config params = .ok read)
    (hread' : given config params' = .ok read') (r : Option Parameter.Reserved) :
    AgreeOn r read read' := by
  have hclass := given_filter (decide <| · = r) hread
  have hclass' := given_filter (decide <| · = r) hread'
  rw [h.inOrder r] at hclass
  exact Except.ok.inj (hclass.symm.trans hclass')

/-- All parameters of the one list can be read if all of the other can. -/
theorem Rearranged.exists_given (h : Rearranged params params') (hread : given config params = .ok read) :
    ∃ read', given config params' = .ok read' := by
  have hperm : (significant params).Perm (significant params') := (h.perm.map _).filter _
  refine exists_mapM_ok fun param hparam => ?_
  exact exists_ok_of_mapM hread (hperm.mem_iff.mpr hparam)

theorem ofParameters_of_rearranged {s : Statement} (h : Rearranged params params')
    (hs : ofParameters config table params = .ok s) : ofParameters config table params' = .ok s := by
  obtain ⟨read, hread, hassemble⟩ := ofParameters_ok hs
  obtain ⟨read', hread'⟩ := h.exists_given hread
  rw [assemble_congr table.name (h.agreeOn hread hread')] at hassemble
  rw [ofParameters_eq, hread']
  exact congrArg (Except.mapError Error.malformed) hassemble

/-- **Where the parameters of a class stand among those of the others does not matter**: both lists make up
the same statement, or both are refused. -/
theorem ofParameters_rearranged (config : Config) (table : Table) (h : Rearranged params params') :
    (ofParameters config table params).toOption = (ofParameters config table params').toOption := by
  cases hs : ofParameters config table params with
  | ok s => rw [ofParameters_of_rearranged h hs]
  | error e =>
    cases hs' : ofParameters config table params' with
    | error e' => rfl
    | ok s =>
      have hback := ofParameters_of_rearranged h.symm hs'
      rw [hs] at hback
      exact absurd hback (by simp)

/-- A table without columns. -/
def towns : Table where
  name := "towns"
  backend := .search

/-- Two page numbers come before the size of a page, and an offset behind them. -/
def pagesFirst : List (String × String) :=
  [("page", "2"), ("PAGE", "3"), ("eq(a,b)", ""), ("order", "-a"), ("limit", "10"), (" ", "x"),
    ("offset", "7")]

/-- The same parameters with the page numbers last. -/
def pagesLast : List (String × String) :=
  [("offset", "7"), (" ", "x"), ("limit", "10"), ("page", "2"), ("order", "-a"), ("eq(a,b)", ""),
    ("PAGE", "3")]

/-- Either way the third page of ten rows is asked for. -/
theorem ofParameters_pagesLast :
    Rearranged pagesFirst pagesLast
      ∧ (ofParameters {} towns pagesLast).toOption = some
          { table := "towns"
            predicates := [.compare ⟨.eq, "a", [.bare "b"]⟩]
            order := [⟨"a", .desc⟩]
            page := { maxRows := 10, offset := 20 } } := by
  have hrearranged : Rearranged pagesFirst pagesLast := by
    refine ⟨by decide +kernel, fun r => ?_⟩
    rcases r with _ | r
    · decide +kernel
    · cases r <;> decide +kernel
  refine ⟨hrearranged, ?_⟩
  rw [← ofParameters_rearranged {} towns hrearranged]
  decide +kernel

end Statement

end Rql

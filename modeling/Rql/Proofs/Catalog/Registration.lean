import Mathlib.Data.List.Nodup
import Rql.Catalog
import Rql.Proofs.Outcome

/-!
# Registering tables

A catalog takes a table if the table is valid and its name is free, whatever the case of the name. All
that becomes of a catalog comes from this one step: a directory is loaded by registering the tables that
its files hold, one after the other (`loadFiles_eq`).

`WellKept` is what the step keeps. The tables are valid and stand in the order of the names that they are
found by, each name once, so that finding a name is finding the one table that has it
(`find?_eq_some_iff`). `Accepts` says which of several tables were taken, and a catalog holds these and
what it held before, nothing else (`mem_registerAll`).
-/

namespace Rql.Catalog

variable {c c' : Catalog} {t u : Table} {ts : List Table}

/-! ## The order of the tables -/

/-- The names that the tables are found by go up, so no name stands twice. -/
def Sorted (ts : List Table) : Prop :=
  ts.Pairwise fun a b => key a < key b

theorem perm_insertTable (t : Table) (ts : List Table) : (insertTable t ts).Perm (t :: ts) := by
  induction ts with
  | nil => exact .refl [t]
  | cons other rest ih =>
    rw [insertTable]
    split
    · exact .refl _
    · exact (ih.cons other).trans (.swap t other rest)

theorem mem_insertTable : u ∈ insertTable t ts ↔ u = t ∨ u ∈ ts :=
  (perm_insertTable t ts).mem_iff.trans List.mem_cons

theorem sorted_insertTable (h : Sorted ts) (hfree : ∀ u ∈ ts, key u ≠ key t) :
    Sorted (insertTable t ts) := by
  induction ts with
  | nil => exact List.pairwise_singleton _ t
  | cons other rest ih =>
    obtain ⟨hother, hrest⟩ := List.pairwise_cons.mp h
    rw [insertTable]
    split
    · next hlt =>
      refine List.pairwise_cons.mpr ⟨fun u hu => ?_, h⟩
      rcases List.mem_cons.mp hu with rfl | hu
      · exact hlt
      · exact String.lt_trans hlt (hother u hu)
    · next hnot =>
      -- the names differ, so the new table belongs behind
      have hlt : key other < key t :=
        Std.lt_of_le_of_ne (String.not_lt.mp hnot) (hfree other List.mem_cons_self)
      refine List.pairwise_cons.mpr
        ⟨fun u hu => ?_, ih hrest fun u hu => hfree u (List.mem_cons_of_mem other hu)⟩
      rcases mem_insertTable.mp hu with rfl | hu
      · exact hlt
      · exact hother u hu

theorem Sorted.eq_of_key (h : Sorted ts) (ht : t ∈ ts) (hu : u ∈ ts) (hkey : key t = key u) :
    t = u := by
  have hnodup : (ts.map key).Nodup := List.pairwise_map.mpr (h.imp fun hlt => Std.ne_of_lt hlt)
  exact List.inj_on_of_nodup_map hnodup ht hu hkey

/-- **A name is found exactly if a table has it**, in whatever case. -/
theorem find?_eq_some_iff (h : Sorted c.tables) {name : String} :
    c.find? name = some t ↔ t ∈ c.tables ∧ Text.sameName t.name name = true := by
  rw [Text.sameName_iff, find?]
  constructor
  · intro hfind
    have hname := List.find?_some hfind
    exact ⟨List.mem_of_find?_eq_some hfind, of_decide_eq_true hname⟩
  · rintro ⟨ht, hname⟩
    cases hfind : c.tables.find? fun t => key t = Text.foldCase name with
    | none => exact absurd (decide_eq_true hname) (List.find?_eq_none.mp hfind t ht)
    | some u =>
      have hu := List.find?_some hfind
      rw [h.eq_of_key (List.mem_of_find?_eq_some hfind) ht ((of_decide_eq_true hu).trans hname.symm)]

/-- Two tables have different names, whatever the case, exactly if they are found by different names. -/
theorem sameName_eq_false_iff : Text.sameName t.name u.name = false ↔ key t ≠ key u := by
  rw [← Bool.not_eq_true, Text.sameName_iff]
  rfl

/-! ## One table -/

/-- **A table is taken exactly if it is valid and its name is free.** -/
theorem register_ok_iff :
    c.register t = .ok c' ↔
      t.validate = .ok () ∧ (∀ u ∈ c.tables, key u ≠ key t) ∧ c' = ⟨insertTable t c.tables⟩ := by
  have hfree : (c.find? t.name).isSome = false ↔ ∀ u ∈ c.tables, key u ≠ key t := by
    rw [Option.isSome_eq_false_iff, Option.isNone_iff_eq_none, find?, List.find?_eq_none]
    exact forall₂_congr fun u _ => not_congr decide_eq_true_iff
  rw [← hfree, register]
  cases hvalid : t.validate with
  | error e => exact ⟨fun h => absurd h (by simp), fun h => absurd h.1 (by simp)⟩
  | ok u =>
    cases hfound : (c.find? t.name).isSome with
    | true => exact ⟨fun h => absurd h (by simp), fun h => absurd h.2.1 (by simp)⟩
    | false => exact ⟨fun h => ⟨rfl, rfl, (Except.ok.inj h).symm⟩, fun h => congrArg Except.ok h.2.2.symm⟩

theorem mem_register (h : c.register t = .ok c') : u ∈ c'.tables ↔ u = t ∨ u ∈ c.tables := by
  obtain ⟨-, -, rfl⟩ := register_ok_iff.mp h
  exact mem_insertTable

/-- What every registration keeps. -/
structure WellKept (c : Catalog) : Prop where
  valid : ∀ t ∈ c.tables, t.validate = .ok ()
  sorted : Sorted c.tables

theorem wellKept_empty : WellKept .empty where
  valid _ ht := absurd ht List.not_mem_nil
  sorted := List.Pairwise.nil

theorem WellKept.register (h : c.WellKept) (hr : c.register t = .ok c') : c'.WellKept := by
  obtain ⟨hvalid, hfree, rfl⟩ := register_ok_iff.mp hr
  constructor
  · intro u hu
    rcases mem_insertTable.mp hu with rfl | hu
    · exact hvalid
    · exact h.valid u hu
  · exact sorted_insertTable h.sorted hfree

/-! ## Several tables -/

/-- `t` is taken when the tables are registered one after the other, up to the first that is refused. -/
inductive Accepts : Catalog → List Table → Table → Prop where
  | here {c c' : Catalog} {t : Table} {rest : List Table} :
      c.register t = .ok c' → Accepts c (t :: rest) t
  | behind {c c' : Catalog} {first t : Table} {rest : List Table} :
      c.register first = .ok c' → Accepts c' rest t → Accepts c (first :: rest) t

theorem registerAll_of_ok (h : c.register t = .ok c') (rest : List Table) :
    c.registerAll (t :: rest) = c'.registerAll rest := by
  rw [registerAll, h]

theorem registerAll_of_error {e : Error} (h : c.register t = .error e) (rest : List Table) :
    c.registerAll (t :: rest) = (c, some e) := by
  rw [registerAll, h]

theorem WellKept.registerAll (h : c.WellKept) (ts : List Table) : (c.registerAll ts).1.WellKept := by
  induction ts generalizing c with
  | nil => exact h
  | cons t rest ih =>
    cases hr : c.register t with
    | error e => rw [registerAll_of_error hr]; exact h
    | ok c' => rw [registerAll_of_ok hr]; exact ih (h.register hr)

/-- **A catalog holds what it held and the tables that it took.** -/
theorem mem_registerAll (c : Catalog) (ts : List Table) :
    u ∈ (c.registerAll ts).1.tables ↔ u ∈ c.tables ∨ Accepts c ts u := by
  induction ts generalizing c with
  | nil => exact ⟨.inl, fun h => h.resolve_right nofun⟩
  | cons t rest ih =>
    cases hr : c.register t with
    | error e =>
      rw [registerAll_of_error hr]
      refine ⟨.inl, fun h => h.resolve_right fun ha => ?_⟩
      cases ha with
      | here hok => exact absurd (hr.symm.trans hok) (by simp)
      | behind hok _ => exact absurd (hr.symm.trans hok) (by simp)
    | ok c' =>
      rw [registerAll_of_ok hr, ih, mem_register hr]
      constructor
      · rintro ((rfl | hu) | ha)
        · exact .inr (.here hr)
        · exact .inl hu
        · exact .inr (.behind hr ha)
      · rintro (hu | ha)
        · exact .inl (.inr hu)
        · cases ha with
          | here _ => exact .inl (.inl rfl)
          | behind hok ha =>
            obtain rfl := Except.ok.inj (hr.symm.trans hok)
            exact .inr ha

theorem registerAll_append (c : Catalog) (ts us : List Table) :
    c.registerAll (ts ++ us) = match c.registerAll ts with
      | (c', none) => c'.registerAll us
      | (c', some e) => (c', some e) := by
  induction ts generalizing c with
  | nil => rfl
  | cons t rest ih =>
    cases hr : c.register t with
    | error e => rw [List.cons_append, registerAll_of_error hr, registerAll_of_error hr]
    | ok c' => rw [List.cons_append, registerAll_of_ok hr, registerAll_of_ok hr, ih]

/-! ## Directories -/

/-- The tables of some files in their order, up to the first file that cannot be read. -/
def offered (dir : Directory) : List File → List Table
  | [] => []
  | f :: rest =>
    match tablesOf dir f with
    | .error _ => []
    | .ok tables => tables ++ offered dir rest

/-- What is wrong with the first file that cannot be read, if there is one. -/
def firstUnreadable? (dir : Directory) (files : List File) : Option Error :=
  files.findSome? fun f => refusal? (tablesOf dir f)

/-- **Loading files is registering what they hold**, up to the first file that cannot be read. -/
theorem loadFiles_eq (dir : Directory) (c : Catalog) (files : List File) :
    loadFiles dir c files =
      ((c.registerAll (offered dir files)).1,
        (c.registerAll (offered dir files)).2.or (firstUnreadable? dir files)) := by
  induction files generalizing c with
  | nil => rfl
  | cons f rest ih =>
    rw [loadFiles, loadFile, offered, firstUnreadable?, List.findSome?_cons]
    cases tablesOf dir f with
    | error e => rfl
    | ok tables =>
      dsimp only [refusal?]
      rw [registerAll_append]
      rcases c.registerAll tables with ⟨c', _ | e⟩
      · exact ih c'
      · rfl

end Rql.Catalog

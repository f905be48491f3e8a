import Rql.Proofs.Catalog.Registration

/-!
# Catalogs over whole runs

A catalog starts empty. From then on tables are registered one at a time, and directories are loaded, the
same one again perhaps with other files in it. Any of these calls may fail, a load also half way, and the
next call goes on with what is there.

`Registered` says which tables were taken in the course of a run: the words "was registered" with nothing
said about the catalog at the end. `keeps` ties the two together. After any calls a name is found exactly
if a table with that name was registered, and that table stays the answer whatever calls follow.
-/

namespace Rql.Catalog

/-- What can be done to a catalog. -/
inductive Call where
  | register (t : Table)
  /-- A directory is loaded, as it is at the time of the call. -/
  | load (dir : Directory)

namespace Call

/-- The catalog after the call, and the error if the call fails. -/
def run (c : Catalog) : Call → Loaded
  | .register t =>
    match c.register t with
    | .ok c' => (c', none)
    | .error e => (c, some e)
  | .load dir => c.load dir

/-- The tables that the call registers one after the other, if none is refused. -/
def offers : Call → List Table
  | .register t => [t]
  | .load dir => offered dir ((dir.files.map descriptors).getD [])

/-- **Every call registers what it offers**, up to the first table that is refused. -/
theorem run_fst (c : Catalog) (call : Call) : (call.run c).1 = (c.registerAll call.offers).1 := by
  cases call with
  | register t =>
    rw [run, offers]
    cases hr : c.register t with
    | error e => rw [registerAll_of_error hr]
    | ok c' => rw [registerAll_of_ok hr]; rfl
  | load dir =>
    rw [run, offers, Catalog.load]
    cases dir.files with
    | none => rfl
    | some files =>
      dsimp only
      rw [loadFiles_eq]
      rfl

end Call

/-- The catalog after calls. -/
def runFrom (c : Catalog) : List Call → Catalog
  | [] => c
  | call :: rest => runFrom (call.run c).1 rest

/-- The catalog after calls, the first of which finds it empty. -/
def after (calls : List Call) : Catalog :=
  runFrom .empty calls

/-- In the course of the calls `t` is registered, and it is not refused. -/
inductive Registered : Catalog → List Call → Table → Prop where
  | now {c : Catalog} {call : Call} {rest : List Call} {t : Table} :
      Accepts c call.offers t → Registered c (call :: rest) t
  | later {c : Catalog} {call : Call} {rest : List Call} {t : Table} :
      Registered (call.run c).1 rest t → Registered c (call :: rest) t

variable {c : Catalog} {t : Table}

theorem runFrom_append (c : Catalog) (calls more : List Call) :
    runFrom c (calls ++ more) = runFrom (runFrom c calls) more := by
  induction calls generalizing c with
  | nil => rfl
  | cons call rest ih => exact ih (call.run c).1

theorem WellKept.runFrom (h : c.WellKept) (calls : List Call) : (c.runFrom calls).WellKept := by
  induction calls generalizing c with
  | nil => exact h
  | cons call rest ih =>
    refine ih ?_
    rw [Call.run_fst]
    exact h.registerAll call.offers

theorem wellKept_after (calls : List Call) : (after calls).WellKept :=
  wellKept_empty.runFrom calls

/-- No call takes a table away, and every table that comes in was registered. -/
theorem mem_runFrom (c : Catalog) (calls : List Call) :
    t ∈ (c.runFrom calls).tables ↔ t ∈ c.tables ∨ Registered c calls t := by
  induction calls generalizing c with
  | nil => exact ⟨.inl, fun h => h.resolve_right nofun⟩
  | cons call rest ih =>
    rw [runFrom, ih, Call.run_fst, mem_registerAll, or_assoc, ← Call.run_fst]
    refine or_congr_right ⟨fun h => h.elim .now .later, fun h => ?_⟩
    cases h with
    | now ha => exact .inl ha
    | later hr => exact .inr hr

theorem mem_after (calls : List Call) :
    t ∈ (after calls).tables ↔ Registered .empty calls t := by
  rw [after, mem_runFrom]
  exact or_iff_right List.not_mem_nil

theorem Call.run_register_eq_none :
    ((Call.register t).run c).2 = none ↔
      t.validate = .ok () ∧ ∀ u ∈ c.tables, Text.sameName u.name t.name = false := by
  have hnames : (∀ u ∈ c.tables, key u ≠ key t) ↔
      ∀ u ∈ c.tables, Text.sameName u.name t.name = false :=
    forall₂_congr fun u _ => sameName_eq_false_iff.symm
  rw [← hnames, run]
  cases hr : c.register t with
  | error e =>
    refine ⟨fun h => absurd h (by simp), fun h => ?_⟩
    exact absurd (hr.symm.trans (register_ok_iff.mpr ⟨h.1, h.2, rfl⟩)) (by simp)
  | ok c' => exact iff_of_true rfl ((register_ok_iff.mp hr).imp_right And.left)

/-- What holds of the catalog after some calls. -/
structure Keeps (calls : List Call) : Prop where
  valid : ∀ t ∈ (after calls).tables, t.validate = .ok ()
  /-- A table is found by its own name in small letters, and by the names that come to the same. -/
  stored : ∀ t ∈ (after calls).tables, ∀ name,
    (after calls).find? name = some t ↔ Text.foldCase name = Text.foldCase t.name
  distinct : (after calls).tables.Pairwise fun t u => Text.sameName t.name u.name = false
  /-- What is found was registered, and what was registered is found. -/
  found : ∀ name t, (after calls).find? name = some t ↔
    Registered .empty calls t ∧ Text.sameName t.name name = true
  /-- No call replaces or removes a table. -/
  lasting : ∀ more name t, (after calls).find? name = some t →
    (after (calls ++ more)).find? name = some t
  /-- A table is taken exactly if it is valid and no table with its name was registered. -/
  taken : ∀ t, ((Call.register t).run (after calls)).2 = none ↔
    t.validate = .ok () ∧ ∀ u, Registered .empty calls u → Text.sameName u.name t.name = false
  /-- A table that is refused changes nothing. -/
  refused : ∀ t e, ((Call.register t).run (after calls)).2 = some e →
    after (calls ++ [.register t]) = after calls

/-- **Whatever is done to a catalog, every table that it took is found as it was.** -/
theorem keeps (calls : List Call) : Keeps calls where
  valid := (wellKept_after calls).valid
  stored t ht name := by
    rw [find?_eq_some_iff (wellKept_after calls).sorted, Text.sameName_iff, eq_comm]
    exact and_iff_right ht
  distinct := (wellKept_after calls).sorted.imp fun hlt =>
    Bool.eq_false_iff.mpr fun hsame => Std.ne_of_lt hlt (Text.sameName_iff.mp hsame)
  found name t := by
    rw [find?_eq_some_iff (wellKept_after calls).sorted, mem_after]
  lasting more name t hfound := by
    rw [find?_eq_some_iff (wellKept_after calls).sorted] at hfound
    rw [find?_eq_some_iff (wellKept_after (calls ++ more)).sorted]
    refine ⟨?_, hfound.2⟩
    rw [after, runFrom_append]
    exact (mem_runFrom _ more).mpr (.inl hfound.1)
  taken t := by
    rw [Call.run_register_eq_none]
    exact and_congr_right' (forall_congr' fun u => imp_congr_left (mem_after calls))
  refused t e he := by
    rw [after, runFrom_append]
    show ((Call.register t).run (after calls)).1 = after calls
    rw [Call.run] at he ⊢
    cases hr : (after calls).register t with
    | error e' => rfl
    | ok c' => rw [hr] at he; exact absurd he (by simp)

end Rql.Catalog

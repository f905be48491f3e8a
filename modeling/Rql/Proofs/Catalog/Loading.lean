import Rql.Proofs.Catalog.Runs
import Rql.Proofs.Text.Cuts

/-!
# Loading a directory

Loading goes through the descriptors of a directory one by one and stops at the first flaw. Whether it comes
to its end is a matter of the directory as a whole, though: `Consistent` asks that every descriptor can be
read, that every table in them is valid, and that no two names are the same, those of the catalog among
them. `load_listing` says that this is exactly when loading succeeds, that the catalog then has these tables
besides its own, and that nothing depends on the order in which the directory lists its files, the error of
a load that fails included.

A load that fails is not taken back. `StopsAt` says where it stops, and `leaves_of_failed` that all tables in
front of the flaw stay in the catalog. So a failed load leaves the catalog as it was exactly if the flaw
comes first, and otherwise the directory cannot be loaded again when the flaw is mended.
-/

namespace Rql.Catalog

variable {c : Catalog} {t : Table} {ts : List Table} {dir : Directory} {files files' : List File}

/-! ## Registering several tables -/

theorem perm_insertTable_append (t : Table) (ts rest : List Table) :
    (insertTable t ts ++ rest).Perm (ts ++ t :: rest) :=
  ((perm_insertTable t ts).append_right rest).trans List.perm_middle.symm

/-- **Tables are taken exactly if they are valid and all names differ.** -/
theorem WellKept.registerAll_eq_none_iff (h : c.WellKept) (ts : List Table) :
    (c.registerAll ts).2 = none ↔
      (∀ t ∈ ts, t.validate = .ok ()) ∧ (c.tables ++ ts).Pairwise fun t u => key t ≠ key u := by
  induction ts generalizing c with
  | nil =>
    have hdistinct : (c.tables ++ []).Pairwise fun t u => key t ≠ key u := by
      rw [List.append_nil]
      exact h.sorted.imp fun hlt => Std.ne_of_lt hlt
    exact iff_of_true rfl ⟨fun t ht => absurd ht List.not_mem_nil, hdistinct⟩
  | cons t rest ih =>
    cases hr : c.register t with
    | error e =>
      rw [registerAll_of_error hr]
      refine iff_of_false (Option.some_ne_none e) fun ⟨hvalid, hdistinct⟩ => ?_
      have hfree : ∀ u ∈ c.tables, key u ≠ key t := fun u hu =>
        (List.pairwise_append.mp hdistinct).2.2 u hu t List.mem_cons_self
      have hok := register_ok_iff.mpr ⟨hvalid t List.mem_cons_self, hfree, rfl⟩
      exact absurd (hr.symm.trans hok) (by simp)
    | ok c' =>
      rw [registerAll_of_ok hr, ih (h.register hr)]
      obtain ⟨hvalid, -, rfl⟩ := register_ok_iff.mp hr
      have hperm := perm_insertTable_append t c.tables rest
      rw [hperm.pairwise_iff Ne.symm, List.forall_mem_cons, and_iff_right hvalid]

theorem perm_registerAll (h : (c.registerAll ts).2 = none) :
    (c.registerAll ts).1.tables.Perm (c.tables ++ ts) := by
  induction ts generalizing c with
  | nil => rw [List.append_nil]; exact .refl _
  | cons t rest ih =>
    cases hr : c.register t with
    | error e =>
      rw [registerAll_of_error hr] at h
      exact absurd h (Option.some_ne_none e)
    | ok c' =>
      rw [registerAll_of_ok hr] at h ⊢
      obtain ⟨-, -, rfl⟩ := register_ok_iff.mp hr
      exact (ih h).trans (perm_insertTable_append t c.tables rest)

/-- Where registering fails, all tables in front of the refused one were taken. -/
theorem exists_front_of_registerAll {e : Error} (h : (c.registerAll ts).2 = some e) :
    ∃ front t, front ++ [t] <+: ts ∧ c.registerAll front = ((c.registerAll ts).1, none)
      ∧ (c.registerAll ts).1.register t = .error e := by
  induction ts generalizing c with
  | nil => exact absurd h.symm (Option.some_ne_none e)
  | cons t rest ih =>
    cases hr : c.register t with
    | error e' =>
      rw [registerAll_of_error hr] at h ⊢
      obtain rfl := Option.some.inj h
      exact ⟨[], t, List.prefix_append [t] rest, rfl, hr⟩
    | ok c' =>
      rw [registerAll_of_ok hr] at h ⊢
      obtain ⟨front, refused, hfront, htaken, hrefused⟩ := ih h
      exact ⟨t :: front, refused, (List.prefix_cons_inj t).mpr hfront,
        (registerAll_of_ok hr front).trans htaken, hrefused⟩

/-! ## Descriptors -/

/-- The name is something with `.json` behind it. -/
def HasEnding (name : String) : Prop :=
  ∃ stem, stem ≠ "" ∧ name = stem ++ ".json"

/-- The file can be read, and holds these tables: one table or a list of them. -/
def File.Holds (f : File) (tables : List Table) : Prop :=
  ∃ text, f.text = some text ∧ Table.readDescriptor? text = some tables

/-- The tables of a file, none if it cannot be read. -/
def File.tables (f : File) : List Table :=
  (f.text.bind Table.readDescriptor?).getD []

/-- The tables that the descriptors among some files hold. -/
def described (files : List File) : List Table :=
  (files.filter fun f => isDescriptorName f.name).flatMap File.tables

theorem isDescriptorName_iff {name : String} : isDescriptorName name = true ↔ HasEnding name := by
  rw [isDescriptorName]
  constructor
  · intro h
    split at h
    · next c stem ending hcut =>
      obtain ⟨hname, -⟩ := Text.splitLast?_eq_some_iff.mp hcut
      refine ⟨.ofList (c :: stem), fun heq => ?_, String.toList_injective ?_⟩
      · exact List.cons_ne_nil c stem (String.ofList_eq_empty_iff.mp heq)
      · have hstem : (String.ofList (c :: stem)).toList = c :: stem := String.toList_ofList
        rw [hname, eq_of_beq h, String.toList_append, hstem]
        rfl
    · exact absurd h Bool.false_ne_true
  · rintro ⟨stem, hstem, rfl⟩
    have hcut : Text.splitLast? '.' (stem ++ ".json").toList = some (stem.toList, "json".toList) := by
      rw [String.toList_append]
      exact Text.splitLast?_append stem.toList (by decide)
    cases hlist : stem.toList with
    | nil => exact absurd (String.toList_eq_nil_iff.mp hlist) hstem
    | cons c rest => rw [hcut, hlist]; exact beq_self_eq_true _

theorem tablesOf_ok_iff {f : File} : tablesOf dir f = .ok ts ↔ f.Holds ts := by
  rw [tablesOf, File.Holds]
  cases f.text with
  | none => simp
  | some text =>
    simp only [Option.some.injEq, exists_eq_left']
    cases Table.readDescriptor? text <;> simp

theorem File.Holds.tables_eq {f : File} (h : f.Holds ts) : f.tables = ts := by
  obtain ⟨text, htext, hread⟩ := h
  rw [File.tables, htext, Option.bind_some, hread, Option.getD_some]

theorem firstUnreadable?_eq_none_iff :
    firstUnreadable? dir files = none ↔ ∀ f ∈ files, ∃ tables, f.Holds tables := by
  rw [firstUnreadable?, List.findSome?_eq_none_iff]
  refine forall₂_congr fun f _ => ?_
  rw [refusal?_eq_none_iff]
  exact exists_congr fun tables => tablesOf_ok_iff

theorem offered_eq_flatMap (h : ∀ f ∈ files, ∃ tables, f.Holds tables) :
    offered dir files = files.flatMap File.tables := by
  induction files with
  | nil => rfl
  | cons f rest ih =>
    obtain ⟨tables, hf⟩ := h f List.mem_cons_self
    rw [offered, tablesOf_ok_iff.mpr hf, List.flatMap_cons, hf.tables_eq,
      ← ih fun g hg => h g (List.mem_cons_of_mem f hg)]

theorem perm_descriptors (files : List File) :
    (descriptors files).Perm (files.filter fun f => isDescriptorName f.name) :=
  List.mergeSort_perm ..

theorem mem_descriptors {f : File} : f ∈ descriptors files ↔ f ∈ files ∧ HasEnding f.name := by
  rw [(perm_descriptors files).mem_iff, List.mem_filter, isDescriptorName_iff]

/-- Descriptors that are listed by their names stay as they are. -/
theorem descriptors_eq_self (hnames : ∀ f ∈ files, isDescriptorName f.name = true)
    (hsorted : files.Pairwise fun a b => a.name ≤ b.name) : descriptors files = files := by
  rw [descriptors, List.filter_eq_self.mpr hnames]
  exact List.mergeSort_of_pairwise (hsorted.imp fun h => decide_eq_true h)

/-- **The order of the listing is forgotten**, as no two files of a directory have one name. -/
theorem descriptors_eq_of_perm (h : files.Perm files') (hnames : (files.map File.name).Nodup) :
    descriptors files = descriptors files' := by
  have hsorted : ∀ files : List File,
      (descriptors files).Pairwise fun a b => decide (a.name ≤ b.name) = true := by
    refine fun files => List.pairwise_mergeSort (fun a b c hab hbc => ?_) (fun a b => ?_) _
    · exact decide_eq_true (String.le_trans (of_decide_eq_true hab) (of_decide_eq_true hbc))
    · rw [Bool.or_eq_true, decide_eq_true_iff, decide_eq_true_iff]
      exact String.le_total a.name b.name
  have hperm : (descriptors files).Perm (descriptors files') :=
    (perm_descriptors files).trans ((h.filter _).trans (perm_descriptors files').symm)
  refine List.Perm.eq_of_pairwise (fun a b ha hb hab hba => ?_) (hsorted files) (hsorted files') hperm
  have hname := String.le_antisymm (of_decide_eq_true hab) (of_decide_eq_true hba)
  have hmem := (mem_descriptors.mp hb).1
  exact List.inj_on_of_nodup_map hnames (mem_descriptors.mp ha).1 (h.mem_iff.mpr hmem) hname

/-- Of a directory only its place tells in the errors. -/
theorem loadFiles_congr {dir dir' : Directory} (h : dir.path = dir'.path) (c : Catalog)
    (files : List File) : loadFiles dir c files = loadFiles dir' c files := by
  have htables : ∀ f, tablesOf dir f = tablesOf dir' f := by
    intro f
    rw [tablesOf, tablesOf, Directory.pathOf, Directory.pathOf, h]
  induction files generalizing c with
  | nil => rfl
  | cons f rest ih => simp only [loadFiles, loadFile, htables, ih]

/-! ## Directories that can be loaded -/

/-- The descriptors among some files can be loaded besides what is in the catalog. -/
structure Consistent (c : Catalog) (files : List File) : Prop where
  readable : ∀ f ∈ files, HasEnding f.name → ∃ tables, f.Holds tables
  valid : ∀ t ∈ described files, t.validate = .ok ()
  /-- No two names are the same, whatever their case. -/
  distinct : (c.tables ++ described files).Pairwise fun t u => Text.sameName t.name u.name = false

theorem load_eq_loadFiles (c : Catalog) (path : String) (files : List File) :
    c.load ⟨path, some files⟩ = loadFiles ⟨path, some files⟩ c (descriptors files) := rfl

/-- What is offered is what the descriptors hold, in the order of their names. -/
theorem perm_offered (dir : Directory) (h : ∀ f ∈ descriptors files, ∃ tables, f.Holds tables) :
    (offered dir (descriptors files)).Perm (described files) := by
  rw [offered_eq_flatMap h]
  exact (perm_descriptors files).flatMap_right File.tables

theorem WellKept.load_eq_none_iff (h : c.WellKept) (path : String) (files : List File) :
    (c.load ⟨path, some files⟩).2 = none ↔ Consistent c files := by
  have hreadable : (∀ f ∈ descriptors files, ∃ tables, f.Holds tables) ↔
      ∀ f ∈ files, HasEnding f.name → ∃ tables, f.Holds tables := by
    simp only [mem_descriptors, and_imp]
  have hloaded : (c.load ⟨path, some files⟩).2 = none ↔
      (∀ f ∈ descriptors files, ∃ tables, f.Holds tables)
        ∧ (c.registerAll (offered ⟨path, some files⟩ (descriptors files))).2 = none := by
    rw [load_eq_loadFiles, loadFiles_eq, Option.or_eq_none_iff, firstUnreadable?_eq_none_iff, and_comm]
  have htaken (hread : ∀ f ∈ descriptors files, ∃ tables, f.Holds tables) :
      (c.registerAll (offered ⟨path, some files⟩ (descriptors files))).2 = none ↔
        (∀ t ∈ described files, t.validate = .ok ())
          ∧ (c.tables ++ described files).Pairwise fun t u => Text.sameName t.name u.name = false := by
    have hperm := perm_offered ⟨path, some files⟩ hread
    simp only [h.registerAll_eq_none_iff, hperm.mem_iff, sameName_eq_false_iff,
      (hperm.append_left c.tables).pairwise_iff Ne.symm]
  rw [hloaded]
  constructor
  · rintro ⟨hread, hnone⟩
    obtain ⟨hvalid, hdistinct⟩ := (htaken hread).mp hnone
    exact ⟨hreadable.mp hread, hvalid, hdistinct⟩
  · rintro ⟨hread, hvalid, hdistinct⟩
    have hread := hreadable.mpr hread
    exact ⟨hread, (htaken hread).mpr ⟨hvalid, hdistinct⟩⟩

theorem perm_load {path : String} (h : (c.load ⟨path, some files⟩).2 = none) :
    (c.load ⟨path, some files⟩).1.tables.Perm (c.tables ++ described files) := by
  rw [load_eq_loadFiles, loadFiles_eq] at h ⊢
  obtain ⟨htaken, hread⟩ := Option.or_eq_none_iff.mp h
  have hperm := perm_offered ⟨path, some files⟩ (firstUnreadable?_eq_none_iff.mp hread)
  exact (perm_registerAll htaken).trans (hperm.append_left c.tables)

/-- What comes of loading a directory with these files. -/
structure LoadsListing (c : Catalog) (path : String) (files : List File) : Prop where
  succeeds : (c.load ⟨path, some files⟩).2 = none ↔ Consistent c files
  /-- The catalog then holds what it held and the tables of the descriptors. -/
  holds : Consistent c files →
    (c.load ⟨path, some files⟩).1.tables.Perm (c.tables ++ described files)
  /-- The files may be listed in any order: the catalog is the same, and so is the error. -/
  unordered : ∀ files', files.Perm files' →
    c.load ⟨path, some files'⟩ = c.load ⟨path, some files⟩

/-- **A directory is loaded exactly if it is consistent as a whole**, in whatever order its files are
listed. -/
theorem load_listing (calls : List Call) (path : String) (hnames : (files.map File.name).Nodup) :
    LoadsListing (after calls) path files where
  succeeds := (wellKept_after calls).load_eq_none_iff path files
  holds h := perm_load (((wellKept_after calls).load_eq_none_iff path files).mpr h)
  unordered files' h := by
    rw [load_eq_loadFiles, load_eq_loadFiles, descriptors_eq_of_perm h hnames]
    exact loadFiles_congr (by rfl) (after calls) _

/-- A table without columns. -/
def plainTable (name : String) : Table :=
  { name, backend := .search }

/-- A file that holds one table. -/
def placesFile : File :=
  ⟨"places.json", some "\x7b\"name\": \"places\", \"backend\": \"search\"\x7d"⟩

/-- A line of text, a list of tables that are written without the names of their fields, and one table. -/
def assortedFiles : List File :=
  [⟨"notes.txt", some "ignored"⟩,
    ⟨"towns.json", some "[[\"Towns\", \"search\"], [\"rivers\", \"search\"]]"⟩, placesFile]

theorem described_assortedFiles :
    described assortedFiles = ["Towns", "rivers", "places"].map plainTable := by
  decide +kernel

theorem consistent_assortedFiles : Consistent .empty assortedFiles := by
  constructor
  case readable =>
    have hread : ∀ f ∈ assortedFiles, isDescriptorName f.name = true →
        (f.text.bind Table.readDescriptor?).isSome = true := by decide +kernel
    intro f hf hname
    obtain ⟨tables, htables⟩ := Option.isSome_iff_exists.mp (hread f hf (isDescriptorName_iff.mpr hname))
    obtain ⟨text, htext, hread⟩ := Option.bind_eq_some_iff.mp htables
    exact ⟨tables, text, htext, hread⟩
  case valid =>
    rw [described_assortedFiles]
    have hvalid : ∀ t ∈ ["Towns", "rivers", "places"].map plainTable,
        t.validate.toOption = some () := by decide +kernel
    exact fun t ht => ok_of_toOption (hvalid t ht)
  case distinct =>
    rw [described_assortedFiles]
    decide +kernel

/-- The directory is loaded, whichever way it is listed. -/
theorem load_listing_assorted :
    (assortedFiles.map File.name).Nodup ∧ Consistent (after []) assortedFiles
      ∧ ((after []).load ⟨"tables", some assortedFiles⟩).2 = none
      ∧ ((after []).load ⟨"tables", some assortedFiles⟩).1.tables.Perm
          (["Towns", "rivers", "places"].map plainTable)
      ∧ (after []).load ⟨"tables", some assortedFiles.reverse⟩
          = (after []).load ⟨"tables", some assortedFiles⟩ := by
  have hnames : (assortedFiles.map File.name).Nodup := by decide +kernel
  have h := load_listing [] "tables" hnames
  have hperm := h.holds consistent_assortedFiles
  rw [described_assortedFiles] at hperm
  exact ⟨hnames, consistent_assortedFiles, h.succeeds.mpr consistent_assortedFiles, hperm,
    h.unordered _ (List.reverse_perm _).symm⟩

/-! ## Loads that fail -/

/-- Loading a directory stops here with this error, after these tables were taken. -/
inductive StopsAt (c : Catalog) (dir : Directory) (e : Error) : List Table → Prop
  | directory : dir.files = none → e = .invalidMetadata dir.path .unreadableDirectory →
      StopsAt c dir e []
  /-- All files in front of the one that cannot be read are done with. -/
  | file {files : List File} : dir.files = some files →
      firstUnreadable? dir (descriptors files) = some e →
      StopsAt c dir e (offered dir (descriptors files))
  /-- The next table is refused. -/
  | table {files : List File} {taken : List Table} {t : Table} : dir.files = some files →
      taken ++ [t] <+: offered dir (descriptors files) → (c.load dir).1.register t = .error e →
      StopsAt c dir e taken

theorem exists_stopsAt {e : Error} (h : (c.load dir).2 = some e) :
    ∃ taken, StopsAt c dir e taken ∧ c.registerAll taken = ((c.load dir).1, none) := by
  obtain ⟨path, _ | files⟩ := dir
  · exact ⟨[], .directory rfl (Option.some.inj h).symm, rfl⟩
  · have hload := (load_eq_loadFiles c path files).trans (loadFiles_eq ..)
    rw [hload] at h ⊢
    cases hstop : (c.registerAll (offered ⟨path, some files⟩ (descriptors files))).2 with
    | none =>
      rw [hstop, Option.none_or] at h
      exact ⟨_, .file rfl h, Prod.ext rfl hstop⟩
    | some e' =>
      rw [hstop, Option.some_or] at h
      obtain rfl := Option.some.inj h
      obtain ⟨front, t, hfront, htaken, hrefused⟩ := exists_front_of_registerAll hstop
      refine ⟨front, .table rfl hfront ?_, htaken⟩
      rw [hload]
      exact hrefused

/-- What a load that fails leaves behind. -/
structure Leaves (c : Catalog) (dir : Directory) (taken : List Table) : Prop where
  tables : (c.load dir).1.tables.Perm (c.tables ++ taken)
  /-- Nothing has changed exactly if no table was taken. -/
  unchanged : (c.load dir).1 = c ↔ taken = []
  /-- A directory that holds one of the tables that were taken cannot be loaded from then on. -/
  blocked : ∀ t ∈ taken, ∀ path files, t ∈ described files →
    ((c.load dir).1.load ⟨path, some files⟩).2 ≠ none

/-- **A load that fails leaves all tables in front of the flaw.** -/
theorem leaves_of_failed (calls : List Call) {e : Error} (h : ((after calls).load dir).2 = some e) :
    ∃ taken, StopsAt (after calls) dir e taken ∧ Leaves (after calls) dir taken := by
  obtain ⟨taken, hstops, htaken⟩ := exists_stopsAt h
  have hperm : ((after calls).load dir).1.tables.Perm ((after calls).tables ++ taken) := by
    have hperm := perm_registerAll (congrArg Prod.snd htaken)
    rwa [htaken] at hperm
  refine ⟨taken, hstops, hperm, ⟨fun hsame => ?_, ?_⟩, ?_⟩
  · have hlength := hperm.length_eq
    rw [hsame, List.length_append] at hlength
    exact List.eq_nil_of_length_eq_zero (by omega)
  · rintro rfl
    exact (congrArg Prod.fst htaken).symm
  · intro t ht path files hmem hnone
    have hwell := (wellKept_after calls).registerAll taken
    rw [htaken] at hwell
    have hconsistent := (hwell.load_eq_none_iff path files).mp hnone
    have hname := (List.pairwise_append.mp hconsistent.distinct).2.2 t
      (hperm.mem_iff.mpr (List.mem_append_right _ ht)) t hmem
    rw [Text.sameName_refl] at hname
    exact Bool.noConfusion hname

/-- One table, and behind it a list without an end. -/
def brokenFiles : List File :=
  [placesFile, ⟨"towns.json", some "["⟩]

theorem load_brokenFiles : Catalog.empty.load ⟨"tables", some brokenFiles⟩ =
    (⟨[plainTable "places"]⟩, some (.invalidMetadata "tables/towns.json" .badDescriptor)) := by
  have hplaces : tablesOf ⟨"tables", some brokenFiles⟩ placesFile = .ok [plainTable "places"] :=
    ok_of_toOption (by decide +kernel)
  have htowns : tablesOf ⟨"tables", some brokenFiles⟩ ⟨"towns.json", some "["⟩ =
      .error (.invalidMetadata "tables/towns.json" .badDescriptor) := by
    have hread : Table.readDescriptor? "[" = none := by decide +kernel
    rw [tablesOf]
    dsimp only
    rw [hread]
    rfl
  have hregister : Catalog.empty.registerAll [plainTable "places"] =
      (⟨[plainTable "places"]⟩, none) := rfl
  have hsorted : descriptors brokenFiles = brokenFiles :=
    descriptors_eq_self (by decide +kernel) (by decide +kernel)
  rw [load_eq_loadFiles, hsorted]
  simp only [brokenFiles] at hplaces htowns ⊢
  simp only [loadFiles, loadFile, hplaces, hregister, htowns]

/-- The load fails, and the table in front of the flaw is there. -/
theorem not_unchanged_brokenFiles :
    ((after []).load ⟨"tables", some brokenFiles⟩).2 =
        some (.invalidMetadata "tables/towns.json" .badDescriptor)
      ∧ ((after []).load ⟨"tables", some brokenFiles⟩).1.tables = [plainTable "places"]
      ∧ (after []).tables = [] := by
  have hload : (after []).load ⟨"tables", some brokenFiles⟩ = _ := load_brokenFiles
  rw [hload]
  exact ⟨rfl, rfl, rfl⟩

/-- Once it has failed, mending the second file does not help any more. -/
theorem leaves_brokenFiles :
    ((after []).load ⟨"tables", some brokenFiles⟩).2 =
        some (.invalidMetadata "tables/towns.json" .badDescriptor)
      ∧ ((((after []).load ⟨"tables", some brokenFiles⟩).1.load
          ⟨"tables", some [placesFile, ⟨"towns.json", some "[]"⟩]⟩).2 ≠ none) := by
  have hload : (after []).load ⟨"tables", some brokenFiles⟩ = _ := load_brokenFiles
  have hfailed := congrArg Prod.snd hload
  obtain ⟨taken, -, hleaves⟩ := leaves_of_failed [] hfailed
  have htaken : taken = [plainTable "places"] := by
    have hperm := hleaves.tables
    rw [hload] at hperm
    exact List.perm_singleton.mp hperm.symm
  refine ⟨hfailed, hleaves.blocked (plainTable "places") ?_ _ _ (by decide +kernel)⟩
  rw [htaken]
  exact List.mem_cons_self

end Rql.Catalog

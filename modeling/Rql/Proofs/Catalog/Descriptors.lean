import Rql.Proofs.Catalog.Loading
import Rql.Proofs.Json.ReadBack
import Rql.Proofs.Table.Description

/-!
# Descriptors come back as their tables

`IsDescriptorText` says which texts describe which tables: JSON for the description of one table, or for
an array of descriptions. What tables are written as is such a text, and every such text is read as just
the tables that it describes, one table or several as it was meant. So a directory with such a descriptor
is loaded, and then the catalog has these tables and no others.
-/

namespace Rql

/-! ## Written tables -/

theorem Column.numberless_toJson (c : Column) : c.toJson.Numberless :=
  ⟨trivial, trivial, trivial, trivial, trivial⟩

theorem Index.numberless_toJson (i : Index) : i.toJson.Numberless :=
  ⟨trivial, trivial, trivial, Json.numberless_stringOrNull i.sortKey,
    Json.numberless_strings i.columns, trivial⟩

theorem Index.depth_toJson (i : Index) : i.toJson.depth ≤ 2 := by
  have hcolumns := Json.depth_strings i.columns
  have hsort := Json.depth_stringOrNull i.sortKey
  simp only [toJson, Json.depth, Json.depthOfMembers, hsort]
  omega

namespace Table

theorem numberless_toJson (t : Table) : t.toJson.Numberless :=
  ⟨trivial, trivial,
    Json.numberlessItems_of_forall (List.forall_mem_map.mpr fun c _ => c.numberless_toJson),
    Json.numberlessItems_of_forall (List.forall_mem_map.mpr fun i _ => i.numberless_toJson), trivial⟩

theorem depth_toJson (t : Table) : t.toJson.depth ≤ 4 := by
  have hcolumns : Json.depthOfItems (t.columns.map Column.toJson) ≤ 1 :=
    Json.depthOfItems_le (List.forall_mem_map.mpr fun _ _ => Nat.le_refl 1)
  have hindexes : Json.depthOfItems (t.indexes.map Index.toJson) ≤ 2 :=
    Json.depthOfItems_le (List.forall_mem_map.mpr fun i _ => i.depth_toJson)
  simp only [toJson, Json.depth, Json.depthOfMembers]
  omega

end Table

namespace Catalog

/-- The text is JSON for a description of these tables. -/
def IsDescriptorText (text : String) (ts : List Table) : Prop :=
  ∃ v, Json.IsText text v ∧ v.depth ≤ Table.maxDescriptorDepth ∧ Table.IsDescriptor v ts

theorem isDescriptorText_table (t : Table) : IsDescriptorText t.toJson.render [t] :=
  ⟨t.toJson, Json.isText_render t.numberless_toJson, Nat.le_trans t.depth_toJson (by decide),
    .one t.describes_toJson⟩

theorem isDescriptorText_tables (ts : List Table) :
    IsDescriptorText (Json.array (ts.map Table.toJson)).render ts := by
  refine ⟨_, Json.isText_render ?_, ?_, .many ?_⟩
  · exact Json.numberlessItems_of_forall (List.forall_mem_map.mpr fun t _ => t.numberless_toJson)
  · have hitems : Json.depthOfItems (ts.map Table.toJson) ≤ 4 :=
      Json.depthOfItems_le (List.forall_mem_map.mpr fun t _ => t.depth_toJson)
    have hdepth : 1 + Json.depthOfItems (ts.map Table.toJson) ≤ Table.maxDescriptorDepth :=
      Nat.le_trans (Nat.add_le_add_left hitems 1) (by decide)
    exact hdepth
  · exact List.forall₂_map_left_iff.mpr (List.forall₂_same.mpr fun t _ => t.describes_toJson)

/-- There is one descriptor in the directory, and it has this text. -/
def Directory.HasOnly (dir : Directory) (text : String) : Prop :=
  ∃ files f, dir.files = some files ∧ files.filter (fun f => isDescriptorName f.name) = [f]
    ∧ f.text = some text

variable {text : String} {ts : List Table} {dir : Directory}

/-- **A text is read as the tables that it describes.** -/
theorem IsDescriptorText.read (h : IsDescriptorText text ts) :
    Table.readDescriptor? text = some ts := by
  obtain ⟨v, ⟨doc, hread, hv⟩, hdepth, hts⟩ := h
  rw [Table.readDescriptor?, hread]
  exact hts.read hv hdepth

/-- **A directory with one descriptor is loaded** if the tables that this describes are valid and their
names differ. -/
theorem IsDescriptorText.exists_load (h : IsDescriptorText text ts) (hdir : dir.HasOnly text)
    (hvalid : ∀ t ∈ ts, t.validate = .ok ())
    (hnames : ts.Pairwise fun t u => Text.sameName t.name u.name = false) :
    ∃ c, empty.load dir = (c, none) ∧ c.tables.Perm ts ∧ ∀ t ∈ ts, c.find? t.name = some t := by
  obtain ⟨files, f, hfiles, honly, htext⟩ := hdir
  have htables : tablesOf dir f = .ok ts := by
    rw [tablesOf, htext]
    dsimp only
    rw [h.read]
  -- with one descriptor, loading is registering its tables
  have hload : empty.load dir = empty.registerAll ts := by
    rw [load, hfiles]
    dsimp only
    rw [descriptors, honly, List.mergeSort_singleton, loadFiles, loadFile, htables]
    dsimp only
    split
    · next hnone => rw [hnone]; rfl
    · next hsome => rw [hsome]
  have htaken : (empty.registerAll ts).2 = none := by
    rw [wellKept_empty.registerAll_eq_none_iff]
    exact ⟨hvalid, hnames.imp sameName_eq_false_iff.mp⟩
  have hperm : (empty.registerAll ts).1.tables.Perm ts := perm_registerAll htaken
  refine ⟨(empty.registerAll ts).1, hload.trans (Prod.ext rfl htaken), hperm, fun t ht => ?_⟩
  rw [find?_eq_some_iff (wellKept_empty.registerAll ts).sorted]
  exact ⟨hperm.mem_iff.mpr ht, Text.sameName_refl t.name⟩

/-- **Descriptors come back as their tables.** What a table is written as is read as this table, whatever
its names are. A descriptor of one table or of several is read in the one way it is meant, and a directory
with it is loaded as these tables. -/
theorem descriptors_round_trip :
    (∀ t : Table, Table.read? t.toJson.render = some t)
      ∧ (∀ t : Table, IsDescriptorText t.toJson.render [t])
      ∧ (∀ ts : List Table, IsDescriptorText (Json.array (ts.map Table.toJson)).render ts)
      ∧ (∀ text ts, IsDescriptorText text ts → Table.readDescriptor? text = some ts)
      ∧ (∀ text v t, Json.IsText text v → Table.Describes v t →
        (Json.Document.read? text).bind (Json.Document.list? Table.ofDocument?) = none)
      ∧ (∀ text items ts, Json.IsText text (.array items) → List.Forall₂ Table.Describes items ts →
        Table.read? text = none)
      ∧ ∀ dir text ts, Directory.HasOnly dir text → IsDescriptorText text ts →
        (∀ t ∈ ts, t.validate = .ok ()) →
        ts.Pairwise (fun t u => Text.sameName t.name u.name = false) →
          ∃ c, empty.load dir = (c, none) ∧ c.tables.Perm ts ∧ ∀ t ∈ ts, c.find? t.name = some t := by
  refine ⟨fun t => ?_, isDescriptorText_table, isDescriptorText_tables, fun _ _ h => h.read,
    fun text v t htext ht => ?_, fun text items ts htext hts => ?_,
    fun _ _ _ hdir h hvalid hnames => h.exists_load hdir hvalid hnames⟩
  · obtain ⟨doc, hread, hv⟩ := Json.isText_render t.numberless_toJson
    rw [Table.read?, hread]
    exact Table.ofDocument?_of_describes hv t.describes_toJson
  · obtain ⟨doc, hread, hv⟩ := htext
    rw [hread]
    exact Table.list?_of_describes hv ht
  · obtain ⟨doc, hread, hv⟩ := htext
    rw [Table.read?, hread]
    exact Table.ofDocument?_of_array hv hts

/-- A table with a name of which most characters are escaped. -/
def loneTable : Table :=
  { name := "a\x01\"\n", backend := .sql .mysql }

def loneTables : List Table :=
  [loneTable,
    { name := "B"
      backend := .partitionKey
      indexes := [{ name := "p", kind := .primary, partitionKey := "h" }] }]

/-- The tables are told of with other names of the backends and of the kind, in another order, without
most of the fields, and with one that is not looked at. -/
def loneItems : List Json :=
  [.object [("backend", .string "MariaDB"), ("name", .string "a\x01\"\n")],
    .object [("name", .string "B"), ("owner", .null), ("backend", .string "dynamo"),
      ("indexes", .array [.object [("kind", .string "PRIMARY"), ("name", .string "p"),
        ("sort_key", .null), ("partition_key", .string "h")]])]]

theorem describes_loneItems : List.Forall₂ Table.Describes loneItems loneTables := by
  refine .cons ⟨_, rfl, ⟨_, rfl, rfl⟩, ⟨_, rfl, ("mariadb", .sql .mysql), ?_, rfl, _, ?_, rfl⟩,
    .inl ⟨rfl, rfl⟩, .inl ⟨rfl, rfl⟩⟩ (.cons ⟨_, rfl, ⟨_, rfl, rfl⟩,
      ⟨_, rfl, ("dynamo", .partitionKey), ?_, rfl, _, ?_, rfl⟩, .inl ⟨rfl, rfl⟩,
      .inr ⟨_, rfl, _, rfl, .cons ?_ .nil⟩⟩ .nil)
  · decide
  · decide +kernel
  · decide
  · decide +kernel
  · exact ⟨_, rfl, ⟨_, rfl, rfl⟩, ⟨_, rfl, "PRIMARY", by decide, rfl⟩, ⟨_, rfl, rfl⟩,
      .inr ⟨_, rfl, rfl⟩, .inl ⟨rfl, rfl⟩⟩

/-- A directory with one descriptor. -/
def loneDirectory : Directory where
  path := "tables"
  files := some [⟨"notes.txt", some "ignored"⟩, ⟨"all.json", some (Json.array loneItems).render⟩]

/-- The directory is loaded, and the descriptor is not taken for that of a table. -/
theorem load_loneDirectory :
    Json.IsText (Json.array loneItems).render (.array loneItems)
      ∧ List.Forall₂ Table.Describes loneItems loneTables
      ∧ Table.read? (Json.array loneItems).render = none
      ∧ Json.IsText loneTable.toJson.render loneTable.toJson
      ∧ Table.Describes loneTable.toJson loneTable
      ∧ (Json.Document.read? loneTable.toJson.render).bind
        (Json.Document.list? Table.ofDocument?) = none
      ∧ loneDirectory.HasOnly (Json.array loneItems).render
      ∧ IsDescriptorText (Json.array loneItems).render loneTables
      ∧ Table.readDescriptor? (Json.array loneItems).render = some loneTables
      ∧ (∀ t ∈ loneTables, t.validate = .ok ())
      ∧ loneTables.Pairwise (fun t u => Text.sameName t.name u.name = false)
      ∧ ∃ c, empty.load loneDirectory = (c, none) ∧ c.tables.Perm loneTables
        ∧ ∀ t ∈ loneTables, c.find? t.name = some t := by
  obtain ⟨-, -, -, hread, hone, hmany, hload⟩ := descriptors_round_trip
  have htext : Json.IsText (Json.array loneItems).render (.array loneItems) :=
    Json.isText_render (by
      simp [loneItems, Json.Numberless, Json.NumberlessItems, Json.NumberlessMembers])
  have hdescriptor : IsDescriptorText (Json.array loneItems).render loneTables :=
    ⟨_, htext, by decide +kernel, .many describes_loneItems⟩
  have hvalid : ∀ t ∈ loneTables, t.validate = .ok () := by
    have hall : ∀ t ∈ loneTables, t.validate.toOption = some () := by decide +kernel
    exact fun t ht => ok_of_toOption (hall t ht)
  have hnames : loneTables.Pairwise fun t u => Text.sameName t.name u.name = false := by
    decide +kernel
  have honly : loneDirectory.HasOnly (Json.array loneItems).render :=
    ⟨_, ⟨"all.json", some (Json.array loneItems).render⟩, rfl, by decide +kernel, rfl⟩
  have hlone : Json.IsText loneTable.toJson.render loneTable.toJson :=
    Json.isText_render loneTable.numberless_toJson
  exact ⟨htext, describes_loneItems, hmany _ _ _ htext describes_loneItems, hlone,
    loneTable.describes_toJson, hone _ _ _ hlone loneTable.describes_toJson,
    honly, hdescriptor, hread _ _ hdescriptor, hvalid, hnames,
    hload _ _ _ honly hdescriptor hvalid hnames⟩

end Catalog

end Rql

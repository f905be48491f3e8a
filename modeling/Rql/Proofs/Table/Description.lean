import Rql.Proofs.Json.Records
import Rql.Table.Json

/-!
# Tables by their descriptions

A table is described by an object. Its members may stand in any order, and there may be further ones;
fields at their defaults may be left out; backends and kinds of indexes go by any of their names. A
description is read as the table that it describes (`Table.ofDocument?_of_describes`), and what a table
is written as is a description of it (`Table.describes_toJson`).

A descriptor describes one table, or has an array of descriptions. Tables that are described by objects
leave no doubt about which of the two it is (`Table.IsDescriptor.read`).
-/

namespace Rql

open Json (HasMember HasMemberOr AtMostOne Document)

variable {doc : Json.Document} {v : Json} {members : List (String × Json)}

namespace Column

/-- The members of an object tell of the column. -/
structure DescribedBy (members : List (String × Json)) (c : Column) : Prop where
  name : HasMember members "name" (· = .string c.name)
  type : HasMemberOr members "type" (c.type = "") (· = .string c.type)
  nullable : HasMemberOr members "nullable" (c.nullable = true) (· = .bool c.nullable)
  isKey : HasMemberOr members "is_key" (c.isKey = false) (· = .bool c.isKey)

/-- The value is an object that tells of the column. -/
def Describes (v : Json) (c : Column) : Prop :=
  ∃ members, v = .object members ∧ c.DescribedBy members

theorem ofDocument?_of_describes {c : Column} (hv : doc.value? = some v) (h : Describes v c) :
    ofDocument? doc = some c := by
  obtain ⟨members, rfl, h⟩ := h
  have hone : ∀ name ∈ ["name", "type", "nullable", "is_key"], AtMostOne members name := by
    simp [h.name.atMostOne, h.type.atMostOne, h.nullable.atMostOne, h.isKey.atMostOne]
  obtain ⟨fields, hfields, hfound⟩ := Json.exists_fields? hv hone
  simp only [List.forall₂_cons_left_iff, List.forall₂_nil_left_iff] at hfound
  obtain ⟨name, _, hname, ⟨type, _, htype, ⟨nullable, _, hnullable, ⟨isKey, _, hkey, rfl, rfl⟩, rfl⟩,
    rfl⟩, rfl⟩ := hfound
  obtain ⟨name, rfl, hreadName⟩ :=
    hname.read h.name fun _ _ hj hP => Document.string?_of_value? (hP ▸ hj)
  have hreadType := htype.readOr h.type fun _ _ hj hP => Document.string?_of_value? (hP ▸ hj)
  have hreadNullable :=
    hnullable.readOr h.nullable fun _ _ hj hP => Document.bool?_of_value? (hP ▸ hj)
  have hreadKey := hkey.readOr h.isKey fun _ _ hj hP => Document.bool?_of_value? (hP ▸ hj)
  simp [ofDocument?, hfields, hreadName, hreadType, hreadNullable, hreadKey]

theorem describes_toJson (c : Column) : Describes c.toJson c :=
  ⟨_, rfl, ⟨_, rfl, rfl⟩, .inr ⟨_, rfl, rfl⟩, .inr ⟨_, rfl, rfl⟩, .inr ⟨_, rfl, rfl⟩⟩

end Column

namespace IndexKind

theorem ofName?_of_mem : ∀ entry ∈ names, ofName? entry.1 = some entry.2 := by
  decide

theorem name_mem_names (k : IndexKind) : (k.name, k) ∈ names := by
  cases k <;> decide

/-- The value is one of the names of the kind. -/
def Describes (v : Json) (k : IndexKind) : Prop :=
  ∃ name, (name, k) ∈ names ∧ v = .string name

theorem ofDocument?_of_describes {k : IndexKind} (hv : doc.value? = some v) (h : Describes v k) :
    ofDocument? doc = some k := by
  obtain ⟨name, hname, rfl⟩ := h
  obtain ⟨marks, rfl, hmarks⟩ := Document.hasShape_of_value? hv
  rw [ofDocument?, hmarks]
  exact ofName?_of_mem _ hname

end IndexKind

namespace Index

/-- The members of an object tell of the index. A sort key that there is not may be null. -/
structure DescribedBy (members : List (String × Json)) (i : Index) : Prop where
  name : HasMember members "name" (· = .string i.name)
  kind : HasMember members "kind" (IndexKind.Describes · i.kind)
  partitionKey : HasMember members "partition_key" (· = .string i.partitionKey)
  sortKey : HasMemberOr members "sort_key" (i.sortKey = none) (· = .stringOrNull i.sortKey)
  columns : HasMemberOr members "columns" (i.columns = []) (· = .strings i.columns)

/-- The value is an object that tells of the index. -/
def Describes (v : Json) (i : Index) : Prop :=
  ∃ members, v = .object members ∧ i.DescribedBy members

theorem ofDocument?_of_describes {i : Index} (hv : doc.value? = some v) (h : Describes v i) :
    ofDocument? doc = some i := by
  obtain ⟨members, rfl, h⟩ := h
  have hone : ∀ name ∈ ["name", "kind", "partition_key", "sort_key", "columns"],
      AtMostOne members name := by
    simp [h.name.atMostOne, h.kind.atMostOne, h.partitionKey.atMostOne, h.sortKey.atMostOne,
      h.columns.atMostOne]
  obtain ⟨fields, hfields, hfound⟩ := Json.exists_fields? hv hone
  simp only [List.forall₂_cons_left_iff, List.forall₂_nil_left_iff] at hfound
  obtain ⟨name, _, hname, ⟨kind, _, hkind, ⟨partitionKey, _, hpartition, ⟨sortKey, _, hsort,
    ⟨columns, _, hcolumns, rfl, rfl⟩, rfl⟩, rfl⟩, rfl⟩, rfl⟩ := hfound
  obtain ⟨name, rfl, hreadName⟩ :=
    hname.read h.name fun _ _ hj hP => Document.string?_of_value? (hP ▸ hj)
  obtain ⟨kind, rfl, hreadKind⟩ := hkind.read h.kind fun _ _ => IndexKind.ofDocument?_of_describes
  obtain ⟨partitionKey, rfl, hreadPartition⟩ :=
    hpartition.read h.partitionKey fun _ _ hj hP => Document.string?_of_value? (hP ▸ hj)
  have hreadSort := hsort.readOr h.sortKey fun _ _ hj hP => Document.stringOrNull?_of_value? (hP ▸ hj)
  have hreadColumns := hcolumns.readOr h.columns fun _ _ hj hP => Document.strings?_of_value? (hP ▸ hj)
  simp [ofDocument?, hfields, hreadName, hreadKind, hreadPartition, hreadSort, hreadColumns]

theorem describes_toJson (i : Index) : Describes i.toJson i :=
  ⟨_, rfl, ⟨_, rfl, rfl⟩, ⟨_, rfl, _, i.kind.name_mem_names, rfl⟩, ⟨_, rfl, rfl⟩, .inr ⟨_, rfl, rfl⟩,
    .inr ⟨_, rfl, rfl⟩⟩

end Index

namespace Backend

/-- All names of backends, those of SQL dialects among them. -/
def allNames : List (String × Backend) :=
  names ++ Dialect.names.map fun (name, dialect) => (name, .sql dialect)

/-- No two of the names differ in case alone. -/
theorem eq_of_mem_allNames : ∀ entry ∈ allNames, ∀ other ∈ allNames,
    Text.sameName entry.1 other.1 = true → entry = other := by
  decide +kernel

theorem name_mem_allNames (b : Backend) : (b.name, b) ∈ allNames := by
  rcases b with (_ | _ | _) | _ | _ <;> decide

/-- **A backend is found by each of its names**, in any case. -/
theorem ofName_of_mem {entry : String × Backend} (h : entry ∈ allNames) {name : String}
    (hname : Text.sameName entry.1 name = true) : ofName name = .ok entry.2 := by
  have hunique : ∀ other ∈ allNames, Text.sameName other.1 name = true → other = entry :=
    fun other hother hsame =>
      eq_of_mem_allNames other hother entry h
        (Text.sameName_trans hsame (by rwa [Text.sameName_comm]))
  rw [ofName]
  split
  · next other backend hfind =>
    have hsame := List.find?_some hfind
    rw [← hunique (other, backend) (List.mem_append_left _ (List.mem_of_find?_eq_some hfind)) hsame]
  · -- the name is none of those that are looked for first, so it is that of a dialect
    next hnone =>
    have hdialect : entry ∈ Dialect.names.map fun (name, dialect) => (name, .sql dialect) :=
      (List.mem_append.mp h).resolve_left fun hentry =>
        absurd hname (List.find?_eq_none.mp hnone entry hentry)
    obtain ⟨⟨own, dialect⟩, hmem, rfl⟩ := List.mem_map.mp hdialect
    rw [Dialect.ofName]
    split
    · next other found hfind =>
      have hsame := List.find?_some hfind
      rw [← hunique (other, .sql found)
        (List.mem_append_right _ (List.mem_map_of_mem (List.mem_of_find?_eq_some hfind))) hsame]
      rfl
    · next hnone => exact absurd hname (List.find?_eq_none.mp hnone (own, dialect) hmem)

/-- The value is one of the names of the backend, in any case. -/
def Describes (v : Json) (b : Backend) : Prop :=
  ∃ entry ∈ allNames, entry.2 = b ∧ ∃ name, Text.sameName entry.1 name = true ∧ v = .string name

theorem ofDocument?_of_describes {b : Backend} (hv : doc.value? = some v) (h : Describes v b) :
    ofDocument? doc = some b := by
  obtain ⟨entry, hentry, rfl, name, hname, rfl⟩ := h
  rw [ofDocument?, Document.string?_of_value? hv]
  simp [ofName_of_mem hentry hname, Except.toOption]

end Backend

namespace Table

/-- The members of an object tell of the table. -/
structure DescribedBy (members : List (String × Json)) (t : Table) : Prop where
  name : HasMember members "name" (· = .string t.name)
  backend : HasMember members "backend" (Backend.Describes · t.backend)
  columns : HasMemberOr members "columns" (t.columns = []) fun v =>
    ∃ items, v = .array items ∧ List.Forall₂ Column.Describes items t.columns
  indexes : HasMemberOr members "indexes" (t.indexes = []) fun v =>
    ∃ items, v = .array items ∧ List.Forall₂ Index.Describes items t.indexes

/-- The value is an object that tells of the table. -/
def Describes (v : Json) (t : Table) : Prop :=
  ∃ members, v = .object members ∧ t.DescribedBy members

/-- **A description is read as the table that it describes.** -/
theorem ofDocument?_of_describes {t : Table} (hv : doc.value? = some v) (h : Describes v t) :
    ofDocument? doc = some t := by
  obtain ⟨members, rfl, h⟩ := h
  have hone : ∀ name ∈ ["name", "backend", "columns", "indexes"], AtMostOne members name := by
    simp [h.name.atMostOne, h.backend.atMostOne, h.columns.atMostOne, h.indexes.atMostOne]
  obtain ⟨fields, hfields, hfound⟩ := Json.exists_fields? hv hone
  simp only [List.forall₂_cons_left_iff, List.forall₂_nil_left_iff] at hfound
  obtain ⟨name, _, hname, ⟨backend, _, hbackend, ⟨columns, _, hcolumns, ⟨indexes, _, hindexes, rfl, rfl⟩,
    rfl⟩, rfl⟩, rfl⟩ := hfound
  obtain ⟨name, rfl, hreadName⟩ :=
    hname.read h.name fun _ _ hj hP => Document.string?_of_value? (hP ▸ hj)
  obtain ⟨backend, rfl, hreadBackend⟩ :=
    hbackend.read h.backend fun _ _ => Backend.ofDocument?_of_describes
  have hreadColumns := hcolumns.readOr h.columns fun doc j hj ⟨items, hitems, hall⟩ =>
    Document.list?_of_value? (hitems ▸ hj) hall fun _ _ _ => Column.ofDocument?_of_describes
  have hreadIndexes := hindexes.readOr h.indexes fun doc j hj ⟨items, hitems, hall⟩ =>
    Document.list?_of_value? (hitems ▸ hj) hall fun _ _ _ => Index.ofDocument?_of_describes
  simp [ofDocument?, hfields, hreadName, hreadBackend, hreadColumns, hreadIndexes]

/-- **What a table is written as describes it.** -/
theorem describes_toJson (t : Table) : Describes t.toJson t := by
  have hbackend : Backend.Describes (.string t.backend.name) t.backend :=
    ⟨_, t.backend.name_mem_allNames, rfl, _, Text.sameName_refl _, rfl⟩
  refine ⟨_, rfl, ⟨_, rfl, rfl⟩, ⟨_, rfl, hbackend⟩, .inr ⟨_, rfl, _, rfl, ?_⟩,
    .inr ⟨_, rfl, _, rfl, ?_⟩⟩
  · exact List.forall₂_map_left_iff.mpr (List.forall₂_same.mpr fun c _ => c.describes_toJson)
  · exact List.forall₂_map_left_iff.mpr (List.forall₂_same.mpr fun i _ => i.describes_toJson)

/-! ## Descriptors -/

/-- The value describes these tables: it is a description of the only one, or an array of
descriptions. -/
inductive IsDescriptor : Json → List Table → Prop
  | one {v : Json} {t : Table} : Describes v t → IsDescriptor v [t]
  | many {items : List Json} {ts : List Table} : List.Forall₂ Describes items ts →
      IsDescriptor (.array items) ts

/-- An array of descriptions is no table: its first item would have to be the name. -/
theorem ofDocument?_of_array {items : List Json} {ts : List Table}
    (hv : doc.value? = some (.array items)) (h : List.Forall₂ Describes items ts) :
    ofDocument? doc = none := by
  obtain ⟨docs, rfl, hdocs⟩ := Document.hasShape_of_value? hv
  -- the first field is missing, or it is an object and no text
  have hfirst : ∀ doc ∈ docs.head?, doc.string? = none := by
    cases hdocs with
    | nil => exact fun _ hdoc => nomatch hdoc
    | cons hdoc _ =>
      rw [List.forall₂_cons_left_iff] at h
      obtain ⟨_, _, ⟨members, rfl, -⟩, -⟩ := h
      obtain ⟨named, rfl, -⟩ := Document.hasShape_of_value? hdoc
      intro doc hmem
      rw [← Option.some.inj hmem]
      rfl
  rw [ofDocument?, Document.fields?]
  split
  · cases docs with
    | nil => rfl
    | cons doc docs =>
      have hstring := hfirst doc rfl
      simp only [List.map_cons, List.cons_append, Option.bind_eq_bind, Option.bind_some]
      split
      · next name backend columns indexes heq =>
        obtain ⟨rfl, -⟩ := List.cons.inj heq
        rw [Option.bind_some, hstring]
        rfl
      · rfl
  · rfl

/-- The description of a table is no array. -/
theorem list?_of_describes {t : Table} (hv : doc.value? = some v) (h : Describes v t) :
    Document.list? ofDocument? doc = none := by
  obtain ⟨members, rfl, -⟩ := h
  obtain ⟨named, rfl, -⟩ := Document.hasShape_of_value? hv
  rfl

/-- **A descriptor is read as the tables that it describes.** -/
theorem IsDescriptor.read {ts : List Table} (h : IsDescriptor v ts) (hv : doc.value? = some v)
    (hdepth : v.depth ≤ maxDescriptorDepth) : descriptor? doc = some ts := by
  have hvalue : doc.depth ≤ maxDescriptorDepth ∧ doc.value?.isSome :=
    ⟨Document.depth_eq doc hv ▸ hdepth, hv ▸ rfl⟩
  rw [descriptor?, if_pos hvalue]
  cases h with
  | one h => rw [ofDocument?_of_describes hv h]
  | many h =>
    rw [ofDocument?_of_array hv h]
    exact Document.list?_of_value? hv h fun _ _ _ => ofDocument?_of_describes

end Table

end Rql

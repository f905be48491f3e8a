import Mathlib.Data.List.Forall2
import Rql.Json.Document

/-!
# Records by their values

What a reader makes of a document depends on the value of the document alone, where it has one: how the
text is laid out, and how its strings are escaped, does not matter. So records are described here by
values. `HasMember` and `HasMemberOr` say what a member of an object is to a record, one that has to be
there or one that may be left out, and `exists_fields?` says what a reader finds of such members.
-/

namespace Rql.Json

/-! ## Depth -/

mutual

/-- How deep arrays and objects lie inside one another. -/
def depth : Json → Nat
  | .array items => 1 + depthOfItems items
  | .object members => 1 + depthOfMembers members
  | _ => 0

/-- The greatest depth of the items. -/
def depthOfItems : List Json → Nat
  | [] => 0
  | item :: rest => max (depth item) (depthOfItems rest)

/-- The greatest depth of the values of the members. -/
def depthOfMembers : List (String × Json) → Nat
  | [] => 0
  | (_, value) :: rest => max (depth value) (depthOfMembers rest)

end

theorem depthOfItems_le {items : List Json} {n : Nat} (h : ∀ j ∈ items, j.depth ≤ n) :
    depthOfItems items ≤ n := by
  induction items with
  | nil => exact Nat.zero_le n
  | cons j items ih =>
    obtain ⟨hj, hitems⟩ := List.forall_mem_cons.mp h
    exact Nat.max_le.mpr ⟨hj, ih hitems⟩

theorem depth_strings (texts : List String) : (strings texts).depth ≤ 1 := by
  have hitems : depthOfItems (texts.map .string) ≤ 0 :=
    depthOfItems_le (List.forall_mem_map.mpr fun _ _ => Nat.le_refl 0)
  exact Nat.add_le_add_left hitems 1

theorem depth_stringOrNull (s? : Option String) : (stringOrNull s?).depth = 0 := by
  cases s? <;> rfl

namespace Document

variable {α : Type} {doc : Document} {docs : List Document} {j : Json} {items : List Json}
  {named : List (List Mark × Document)} {members : List (String × Json)}

/-! ## Values of documents -/

theorem values?_eq_some_iff :
    values? docs = some items ↔ List.Forall₂ (fun doc j => doc.value? = some j) docs items := by
  induction docs generalizing items with
  | nil =>
    rw [List.forall₂_nil_left_iff, values?, Option.some_inj]
    exact eq_comm
  | cons doc docs ih =>
    rw [List.forall₂_cons_left_iff, values?]
    simp only [Option.bind_eq_bind, Option.bind_eq_some_iff, Option.pure_def, Option.some_inj, ih]
    constructor
    · rintro ⟨j, hj, rest, hrest, rfl⟩
      exact ⟨j, rest, hj, hrest, rfl⟩
    · rintro ⟨j, rest, hj, hrest, rfl⟩
      exact ⟨j, hj, rest, hrest, rfl⟩

theorem members?_eq_some_iff :
    members? named = some members ↔
      List.Forall₂ (fun n m => text? n.1 = some m.1 ∧ n.2.value? = some m.2) named members := by
  induction named generalizing members with
  | nil =>
    rw [List.forall₂_nil_left_iff, members?, Option.some_inj]
    exact eq_comm
  | cons n named ih =>
    rw [List.forall₂_cons_left_iff, members?]
    simp only [Option.bind_eq_bind, Option.bind_eq_some_iff, Option.pure_def, Option.some_inj, ih]
    constructor
    · rintro ⟨name, hname, j, hj, rest, hrest, rfl⟩
      exact ⟨(name, j), rest, ⟨hname, hj⟩, hrest, rfl⟩
    · rintro ⟨⟨name, j⟩, rest, ⟨hname, hj⟩, hrest, rfl⟩
      exact ⟨name, hname, j, hj, rest, hrest, rfl⟩

/-- What a document is like that has this value. -/
def HasShape (doc : Document) : Json → Prop
  | .null => doc = .null
  | .bool b => doc = .bool b
  | .number n => ∃ numeral, doc = .number numeral ∧ number? numeral = some n
  | .string s => ∃ marks, doc = .string marks ∧ text? marks = some s
  | .array items =>
    ∃ docs, doc = .array docs ∧ List.Forall₂ (fun doc j => doc.value? = some j) docs items
  | .object members => ∃ named, doc = .object named
    ∧ List.Forall₂ (fun n m => text? n.1 = some m.1 ∧ n.2.value? = some m.2) named members

theorem hasShape_of_value? (h : doc.value? = some j) : doc.HasShape j := by
  cases doc with
  | null => cases h; rfl
  | bool b => cases h; rfl
  | number numeral =>
    obtain ⟨n, hn, rfl⟩ := Option.map_eq_some_iff.mp h
    exact ⟨numeral, rfl, hn⟩
  | string marks =>
    obtain ⟨s, hs, rfl⟩ := Option.map_eq_some_iff.mp h
    exact ⟨marks, rfl, hs⟩
  | array docs =>
    obtain ⟨items, hitems, rfl⟩ := Option.map_eq_some_iff.mp h
    exact ⟨docs, rfl, values?_eq_some_iff.mp hitems⟩
  | object named =>
    obtain ⟨members, hmembers, rfl⟩ := Option.map_eq_some_iff.mp h
    exact ⟨named, rfl, members?_eq_some_iff.mp hmembers⟩

mutual

/-- A document is as deep as its value. -/
theorem depth_eq : (doc : Document) → {j : Json} → doc.value? = some j → doc.depth = j.depth
  | .null, j, h => by cases h; rfl
  | .bool _, j, h => by cases h; rfl
  | .number _, j, h => by
      obtain ⟨_, -, rfl⟩ := Option.map_eq_some_iff.mp h
      rfl
  | .string _, j, h => by
      obtain ⟨_, -, rfl⟩ := Option.map_eq_some_iff.mp h
      rfl
  | .array docs, j, h => by
      obtain ⟨items, hitems, rfl⟩ := Option.map_eq_some_iff.mp h
      exact congrArg (1 + ·) (depthOfItems_eq docs hitems)
  | .object named, j, h => by
      obtain ⟨members, hmembers, rfl⟩ := Option.map_eq_some_iff.mp h
      exact congrArg (1 + ·) (depthOfMembers_eq named hmembers)

theorem depthOfItems_eq : (docs : List Document) → {items : List Json} →
    values? docs = some items → depthOfItems docs = Json.depthOfItems items
  | [], items, h => by cases h; rfl
  | doc :: docs, items, h => by
      obtain ⟨j, rest, hj, hrest, rfl⟩ := List.forall₂_cons_left_iff.mp (values?_eq_some_iff.mp h)
      rw [depthOfItems, Json.depthOfItems, depth_eq doc hj,
        depthOfItems_eq docs (values?_eq_some_iff.mpr hrest)]

theorem depthOfMembers_eq : (named : List (List Mark × Document)) → {members : List (String × Json)} →
    members? named = some members → depthOfMembers named = Json.depthOfMembers members
  | [], members, h => by cases h; rfl
  | (_, doc) :: named, members, h => by
      obtain ⟨⟨_, j⟩, rest, ⟨-, hj⟩, hrest, rfl⟩ :=
        List.forall₂_cons_left_iff.mp (members?_eq_some_iff.mp h)
      rw [depthOfMembers, Json.depthOfMembers, depth_eq doc hj,
        depthOfMembers_eq named (members?_eq_some_iff.mpr hrest)]

end

/-! ## Readers -/

theorem string?_of_value? {s : String} (h : doc.value? = some (.string s)) : doc.string? = some s := by
  obtain ⟨marks, rfl, hmarks⟩ := hasShape_of_value? h
  exact hmarks

theorem bool?_of_value? {b : Bool} (h : doc.value? = some (.bool b)) : doc.bool? = some b := by
  obtain rfl := hasShape_of_value? h
  rfl

theorem stringOrNull?_of_value? {s? : Option String} (h : doc.value? = some (stringOrNull s?)) :
    doc.stringOrNull? = some s? := by
  cases s? with
  | none =>
    obtain rfl := hasShape_of_value? h
    rfl
  | some s =>
    obtain ⟨marks, rfl, hmarks⟩ := hasShape_of_value? h
    rw [stringOrNull?, string?, hmarks]
    · rfl
    · exact nofun

/-- **An array is read item by item.** -/
theorem list?_of_value? {read : Document → Option α} {describes : Json → α → Prop} {xs : List α}
    (h : doc.value? = some (.array items)) (hitems : List.Forall₂ describes items xs)
    (hread : ∀ doc j x, doc.value? = some j → describes j x → read doc = some x) :
    list? read doc = some xs := by
  obtain ⟨docs, rfl, hdocs⟩ := hasShape_of_value? h
  clear h
  rw [list?]
  induction hitems generalizing docs with
  | nil => rw [List.forall₂_nil_right_iff.mp hdocs]; rfl
  | cons hx _ ih =>
    obtain ⟨doc, docs, hdoc, hrest, rfl⟩ := List.forall₂_cons_right_iff.mp hdocs
    rw [List.mapM_cons, hread _ _ _ hdoc hx, ih docs hrest]
    rfl

theorem strings?_of_value? {texts : List String} (h : doc.value? = some (strings texts)) :
    list? string? doc = some texts := by
  have hitems : List.Forall₂ (fun j s => j = Json.string s) (texts.map .string) texts :=
    List.forall₂_map_left_iff.mpr (List.forall₂_same.mpr fun _ _ => rfl)
  exact list?_of_value? h hitems fun _ _ _ hj heq => string?_of_value? (heq ▸ hj)

end Document

/-! ## Fields -/

section Fields

variable {α : Type} {doc : Document} {members : List (String × Json)} {name : String}
  {P : Json → Prop}

/-- The values of the members with a name. -/
def valuesOf (members : List (String × Json)) (name : String) : List Json :=
  (members.filter (·.1 == name)).map Prod.snd

/-- There is one member with the name, and its value is right. -/
def HasMember (members : List (String × Json)) (name : String) (P : Json → Prop) : Prop :=
  ∃ v, valuesOf members name = [v] ∧ P v

/-- There is one member with the name and its value is right, or there is none and the default is what
is meant. -/
def HasMemberOr (members : List (String × Json)) (name : String) (isDefault : Prop)
    (P : Json → Prop) : Prop :=
  (valuesOf members name = [] ∧ isDefault) ∨ HasMember members name P

/-- What a reader finds of the members with a name. -/
inductive Found (members : List (String × Json)) (name : String) : Option Document → Prop
  | missing : valuesOf members name = [] → Found members name none
  | present {doc : Document} {v : Json} : valuesOf members name = [v] → doc.value? = some v →
      Found members name (some doc)

theorem Found.read {read : Document → Option α} {x : α} {field : Option Document}
    (hfound : Found members name field) (h : HasMember members name P)
    (hread : ∀ doc j, doc.value? = some j → P j → read doc = some x) :
    ∃ doc, field = some doc ∧ read doc = some x := by
  obtain ⟨v, hv, hP⟩ := h
  cases hfound with
  | missing hnone => rw [hnone] at hv; exact nomatch hv
  | present hone hdoc =>
    rw [hone, List.singleton_inj] at hv
    exact ⟨_, rfl, hread _ _ (hv ▸ hdoc) hP⟩

theorem Found.readOr {read : Document → Option α} {x default : α} {field : Option Document}
    (hfound : Found members name field) (h : HasMemberOr members name (x = default) P)
    (hread : ∀ doc j, doc.value? = some j → P j → read doc = some x) :
    Document.orElse default read field = some x := by
  rcases h with ⟨hnone, rfl⟩ | h
  · cases hfound with
    | missing => rfl
    | present hone _ => rw [hnone] at hone; exact nomatch hone
  · obtain ⟨doc, rfl, hdoc⟩ := hfound.read h hread
    exact hdoc

/-- There are not several members with the name. -/
def AtMostOne (members : List (String × Json)) (name : String) : Prop :=
  (valuesOf members name).length ≤ 1

theorem HasMember.atMostOne (h : HasMember members name P) : AtMostOne members name := by
  obtain ⟨v, hv, -⟩ := h
  rw [AtMostOne, hv]
  exact Nat.le_refl 1

theorem HasMemberOr.atMostOne {isDefault : Prop} (h : HasMemberOr members name isDefault P) :
    AtMostOne members name := by
  rcases h with ⟨hnone, -⟩ | h
  · rw [AtMostOne, hnone]
    exact Nat.zero_le 1
  · exact h.atMostOne

/-- The members of an object with their names as texts, and their values. -/
abbrev Named (named : List (String × Document)) (members : List (String × Json)) : Prop :=
  List.Forall₂ (fun n m => n.1 = m.1 ∧ n.2.value? = some m.2) named members

theorem exists_namedMembers? {docs : List (List Mark × Document)}
    (h : List.Forall₂ (fun n m => text? n.1 = some m.1 ∧ n.2.value? = some m.2) docs members) :
    ∃ named, Document.namedMembers? docs = some named ∧ Named named members := by
  induction h with
  | nil => exact ⟨[], rfl, .nil⟩
  | @cons n m _ _ hnm _ ih =>
    obtain ⟨marks, doc⟩ := n
    obtain ⟨hname, hdoc⟩ := hnm
    obtain ⟨named, hread, hnamed⟩ := ih
    refine ⟨(m.1, doc) :: named, ?_, .cons ⟨rfl, hdoc⟩ hnamed⟩
    rw [Document.namedMembers?] at hread ⊢
    rw [List.mapM_cons, hread]
    dsimp only at hname ⊢
    rw [hname]
    rfl

/-- Looking for a name in the documents of an object finds the values with this name. -/
theorem Named.filter {named : List (String × Document)} (h : Named named members) (name : String) :
    List.Forall₂ (fun n v => n.2.value? = some v) (named.filter (·.1 == name))
      (valuesOf members name) := by
  induction h with
  | nil => exact .nil
  | @cons n m _ _ hnm _ ih =>
    rw [valuesOf, List.filter_cons, List.filter_cons, hnm.1]
    split
    · exact .cons hnm.2 ih
    · exact ih

theorem Named.exists_uniqueMember? {named : List (String × Document)} (h : Named named members)
    (hone : AtMostOne members name) :
    ∃ field, Document.uniqueMember? named name = some field ∧ Found members name field := by
  have hfilter := h.filter name
  rw [Document.uniqueMember?]
  cases hvalues : valuesOf members name with
  | nil =>
    rw [hvalues, List.forall₂_nil_right_iff] at hfilter
    rw [hfilter]
    exact ⟨none, rfl, .missing hvalues⟩
  | cons v rest =>
    obtain rfl : rest = [] := by
      rw [AtMostOne, hvalues, List.length_cons] at hone
      exact List.eq_nil_of_length_eq_zero (by omega)
    rw [hvalues] at hfilter
    obtain ⟨n, rest, hn, hrest, heq⟩ := List.forall₂_cons_right_iff.mp hfilter
    rw [List.forall₂_nil_right_iff.mp hrest] at heq
    rw [heq]
    exact ⟨some n.2, rfl, .present hvalues hn⟩

/-- **The fields of a record are found**, if none of them is there twice. -/
theorem exists_fields? {names : List String} (h : doc.value? = some (.object members))
    (hone : ∀ name ∈ names, AtMostOne members name) :
    ∃ fields, doc.fields? names = some fields ∧ List.Forall₂ (Found members) names fields := by
  obtain ⟨docs, rfl, hdocs⟩ := Document.hasShape_of_value? h
  obtain ⟨named, hread, hnamed⟩ := exists_namedMembers? hdocs
  have hfields : ∃ fields, names.mapM (Document.uniqueMember? named) = some fields
      ∧ List.Forall₂ (Found members) names fields := by
    induction names with
    | nil => exact ⟨[], rfl, .nil⟩
    | cons name names ih =>
      obtain ⟨hname, hnames⟩ := List.forall_mem_cons.mp hone
      obtain ⟨field, hfield, hfound⟩ := hnamed.exists_uniqueMember? hname
      obtain ⟨fields, hrest, hall⟩ := ih hnames
      refine ⟨field :: fields, ?_, .cons hfound hall⟩
      rw [List.mapM_cons, hfield, hrest]
      rfl
  rw [Document.fields?, hread]
  exact hfields

end Fields

end Rql.Json

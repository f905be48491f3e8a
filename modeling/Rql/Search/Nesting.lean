import Rql.Error
import Rql.Search.Query

/-!
# Nested objects

The field `players.rank` lies in the objects at the path `players`, and `a.b.c` lies in those at
`a.b`, which in turn lie in those at `a`. Of several clauses side by side, those in the same objects
are asked together, at the place of the first of them: `slots` groups them, and `clausesBelow` repeats
this inside every group with a path that is one segment longer, until no path is left.
-/

namespace Rql.Search

/-- What is left of a field inside the objects at `parent`. The empty path stands for the document
itself. -/
def relative? (parent field : List Char) : Option (List Char) :=
  if parent = [] then some field else Text.behind? (parent ++ ['.']) field

/-- The path one segment below `parent`. -/
def extend (parent segment : List Char) : List Char :=
  if parent = [] then segment else parent ++ '.' :: segment

/-- The path of the objects directly below those at `parent` in which a field lies. -/
def pathBelow? (parent field : List Char) : Option (List Char) :=
  match (relative? parent field).bind (Text.splitFirst? '.') with
  | some (c :: segment, _) => some (extend parent (c :: segment))
  | _ => none

/-- What a predicate turns into before it is put among others. -/
inductive Clause where
  | positive (q : Query)
  /-- The contrary of a query. -/
  | negative (q : Query)
deriving Inhabited

/-- A clause as a query of its own. -/
def Clause.toQuery : Clause → Query
  | .positive q => q
  | .negative q => .mustNot [q]

/-- The query of a positive clause. -/
def Clause.positive? : Clause → Option Query
  | .positive q => some q
  | .negative _ => none

/-- The query of a negative clause. -/
def Clause.negative? : Clause → Option Query
  | .positive _ => none
  | .negative q => some q

/-- Clauses as one query. Under `and` the negative ones are those that must not match. -/
def combine : Conjunction → List Clause → Query
  | .and, clauses =>
    .bool [] (clauses.filterMap Clause.positive?) (clauses.filterMap Clause.negative?) []
  | .or, clauses => .should (clauses.map Clause.toQuery)

/-- Clauses as one query, where the clause of a member that is `alone` needs no list around it. -/
def combineOrAlone (conjunction : Conjunction) (alone : Bool) : List Clause → Query
  | [clause] => if alone then clause.toQuery else combine conjunction [clause]
  | clauses => combine conjunction clauses

/-- A predicate among others: its field if it is a comparison, and its clause. -/
structure Member where
  field? : Option (List Char)
  clause : Except Error Clause

/-- The path of the objects directly below `parent` in which a member lies. -/
def Member.pathBelow? (parent : List Char) (m : Member) : Option (List Char) :=
  m.field?.bind (Search.pathBelow? parent)

/-- A place among the clauses of a query. -/
inductive Slot where
  | single (m : Member)
  /-- The members in the objects at a path. -/
  | nested (path : List Char) (members : List Member)

/-- The members of a slot. -/
def Slot.members : Slot → List Member
  | .single m => [m]
  | .nested _ members => members

/-- The members in the objects at a path directly below `parent`. -/
def membersAt (parent path : List Char) (members : List Member) : List Member :=
  members.filter fun m => m.pathBelow? parent == some path

/-- All other members. -/
def membersNotAt (parent path : List Char) (members : List Member) : List Member :=
  members.filter fun m => m.pathBelow? parent != some path

/-- The members grouped by path, each group at the place of its first member. -/
def slots (parent : List Char) : List Member → List Slot
  | [] => []
  | m :: rest =>
    match m.pathBelow? parent with
    | none => .single m :: slots parent rest
    | some path =>
      .nested path (m :: membersAt parent path rest) :: slots parent (membersNotAt parent path rest)
termination_by members => members.length
decreasing_by
  · simp
  · exact Nat.lt_succ_of_le (List.length_filter_le _ _)

/-! ## Paths get longer -/

theorem length_of_splitFirst? {mark : Char} {cs before after : List Char}
    (h : Text.splitFirst? mark cs = some (before, after)) :
    cs.length = before.length + 1 + after.length := by
  induction cs generalizing before after with
  | nil => simp [Text.splitFirst?] at h
  | cons c cs ih =>
    simp only [Text.splitFirst?] at h
    split at h
    · simp only [Option.some.injEq, Prod.mk.injEq] at h
      simp [← h.1, ← h.2]
      omega
    · obtain ⟨⟨b, a⟩, hba, heq⟩ := Option.map_eq_some_iff.1 h
      simp only [Prod.mk.injEq] at heq
      have := ih hba
      simp [← heq.1, ← heq.2]
      omega

/-- A path below another is longer than that and shorter than the field. -/
theorem length_of_pathBelow? {parent field path : List Char}
    (h : pathBelow? parent field = some path) :
    parent.length < path.length ∧ path.length < field.length := by
  unfold pathBelow? at h
  split at h
  · rename_i c segment after hs
    simp only [Option.some.injEq] at h
    obtain ⟨rest, hrest, hsplit⟩ := Option.bind_eq_some_iff.1 hs
    have hlen := length_of_splitFirst? hsplit
    unfold relative? at hrest
    unfold extend at h
    split at hrest
    · rename_i hp
      simp only [Option.some.injEq] at hrest
      simp only [hp, if_true] at h
      subst hrest h
      simp only [hp, List.length_nil, List.length_cons] at *
      omega
    · rename_i hp
      simp only [hp, if_false] at h
      have := Text.behind?_eq_some_iff.1 hrest
      subst h
      rw [this]
      simp only [List.length_append, List.length_cons, List.length_nil] at *
      omega
  · simp at h

/-- How much longer than `parent` the paths of a member can get. -/
def Member.room (parent : List Char) (m : Member) : Nat :=
  (m.field?.getD []).length - parent.length

/-- The room of all members. -/
def room (parent : List Char) : List Member → Nat
  | [] => 0
  | m :: rest => m.room parent + room parent rest

theorem room_lt_of_pathBelow? {parent path : List Char} {m : Member}
    (h : m.pathBelow? parent = some path) : m.room path < m.room parent := by
  obtain ⟨field, hf, hp⟩ := Option.bind_eq_some_iff.1 h
  have := length_of_pathBelow? hp
  simp only [Member.room, hf, Option.getD_some]
  omega

theorem room_filter_le (parent : List Char) (p : Member → Bool) (members : List Member) :
    room parent (members.filter p) ≤ room parent members := by
  induction members with
  | nil => simp
  | cons m rest ih =>
    simp only [List.filter_cons]
    split <;> simp only [room] at * <;> omega

theorem room_le_of_forall {parent path : List Char} {members : List Member}
    (h : ∀ m ∈ members, m.pathBelow? parent = some path) :
    room path members ≤ room parent members := by
  induction members with
  | nil => simp [room]
  | cons m rest ih =>
    have h₁ := room_lt_of_pathBelow? (h m (by simp))
    have h₂ := ih fun m hm => h m (by simp [hm])
    simp only [room] at *
    omega

/-- A group of members has less room than all members have. -/
theorem room_lt_of_mem_slots {parent path : List Char} {members group : List Member}
    (h : Slot.nested path group ∈ slots parent members) : room path group < room parent members := by
  fun_induction slots parent members with
  | case1 => simp at h
  | case2 m rest hm ih =>
    have := ih (by simpa using h)
    simp only [room] at *
    omega
  | case3 m rest found hm ih =>
    rcases List.mem_cons.1 h with heq | hmem
    · simp only [Slot.nested.injEq] at heq
      obtain ⟨rfl, rfl⟩ := heq
      have h₁ := room_lt_of_pathBelow? hm
      have h₂ : room path (membersAt parent path rest) ≤ room parent (membersAt parent path rest) :=
        room_le_of_forall fun m hmem => by simpa using (List.mem_filter.1 hmem).2
      have h₃ : room parent (membersAt parent path rest) ≤ room parent rest :=
        room_filter_le parent _ rest
      simp only [room] at *
      omega
    · have h₁ := ih hmem
      have h₂ : room parent (membersNotAt parent found rest) ≤ room parent rest :=
        room_filter_le parent _ rest
      simp only [room] at *
      omega

/-! ## Clauses of members -/

/-- The clauses of members side by side below a path, one for each slot. -/
def clausesBelow (conjunction : Conjunction) (parent : List Char) (members : List Member) :
    Except Error (List Clause) :=
  (slots parent members).attach.mapM fun slot =>
    match h : slot.1 with
    | .single m => m.clause
    | .nested path group =>
      have := room_lt_of_mem_slots (h ▸ slot.2)
      (clausesBelow conjunction path group).map fun clauses =>
        .positive (.nested (.ofList path) (combineOrAlone conjunction (group.length == 1) clauses))
termination_by room parent members

end Rql.Search

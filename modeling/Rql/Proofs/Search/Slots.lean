import Mathlib.Data.List.Nodup
import Mathlib.Data.List.Pairwise
import Mathlib.Data.List.Perm.Basic
import Rql.Proofs.Search.Placement

/-!
# Folding is a stable grouping

Two members may have the same field and the same clause, so what becomes of each of them is said by
positions: a layout has beside each slot the positions of its members in the input.

Folding puts the members into their places one by one, from the first to the last (`slots_concat`). One
member more makes one slot longer or opens a new one behind all others (`place_cases`), and both keep a
layout in order (`Laid.extend`, `Laid.append`). With what is known of each slot by itself, a layout in
order is a stable grouping: `Stable` spells this out, and `exists_stable` is the main result.
-/

namespace Rql.Search

variable {parent path : List Char} {members group : List Member} {m : Member}

/-! ## One member more -/

/-- The path of a nested slot. -/
def Slot.path? : Slot → Option (List Char)
  | .single _ => none
  | .nested path _ => some path

/-- The slot of a member that has no other beside it. -/
def Slot.ofMember (parent : List Char) (m : Member) : Slot :=
  match m.pathBelow? parent with
  | none => .single m
  | some path => .nested path [m]

@[simp] theorem Slot.members_ofMember (parent : List Char) (m : Member) :
    (Slot.ofMember parent m).members = [m] := by
  rw [ofMember]
  split <;> rfl

@[simp] theorem Slot.path?_ofMember (parent : List Char) (m : Member) :
    (Slot.ofMember parent m).path? = m.pathBelow? parent := by
  rw [ofMember]
  split
  · next h => rw [h]; rfl
  · next h => rw [h]; rfl

/-- The slots with one member more: it joins the slot of its path, or has a new one behind all others. -/
def place (parent : List Char) (m : Member) : List Slot → List Slot
  | [] => [.ofMember parent m]
  | .single other :: rest => .single other :: place parent m rest
  | .nested path group :: rest =>
    if m.pathBelow? parent = some path then .nested path (group ++ [m]) :: rest
    else .nested path group :: place parent m rest

/-- **Folding puts the members into their places one by one.** -/
theorem slots_concat (parent : List Char) (members : List Member) (m : Member) :
    slots parent (members ++ [m]) = place parent m (slots parent members) := by
  fun_induction slots parent members with
  | case1 =>
    rw [List.nil_append, slots, place, Slot.ofMember]
    cases hm : m.pathBelow? parent with
    | none => simp [slots]
    | some path => simp [slots, membersAt, membersNotAt]
  | case2 first rest hfirst ih =>
    rw [List.cons_append, slots, hfirst]
    exact congrArg _ ih
  | case3 first rest path hfirst ih =>
    rw [List.cons_append, slots, hfirst, place]
    dsimp only
    split
    · next hm =>
      rw [membersAt, membersNotAt, List.filter_append, List.filter_append]
      simp [hm, membersAt, membersNotAt]
    · next hm =>
      rw [← ih, membersAt, membersNotAt, List.filter_append, List.filter_append]
      simp [hm, membersAt, membersNotAt]

/-- **Where one member more goes.** The slot of its path gets longer at its end. Where no slot has its
path, it has a slot of its own behind all others. -/
theorem place_cases (parent : List Char) (m : Member) (found : List Slot) :
    (∃ front path group back, m.pathBelow? parent = some path
        ∧ found = front ++ .nested path group :: back
        ∧ place parent m found = front ++ .nested path (group ++ [m]) :: back)
      ∨ (∀ path ∈ found.filterMap Slot.path?, m.pathBelow? parent ≠ some path)
        ∧ place parent m found = found ++ [.ofMember parent m] := by
  induction found with
  | nil => exact .inr ⟨fun path hpath => absurd hpath List.not_mem_nil, rfl⟩
  | cons slot rest ih =>
    -- a slot that the member does not go to stays in front
    have hpass (hslot : ∀ path, slot.path? = some path → m.pathBelow? parent ≠ some path)
        (hplace : place parent m (slot :: rest) = slot :: place parent m rest) :
        (∃ front path group back, m.pathBelow? parent = some path
            ∧ slot :: rest = front ++ .nested path group :: back
            ∧ place parent m (slot :: rest) = front ++ .nested path (group ++ [m]) :: back)
          ∨ (∀ path ∈ (slot :: rest).filterMap Slot.path?, m.pathBelow? parent ≠ some path)
            ∧ place parent m (slot :: rest) = slot :: rest ++ [.ofMember parent m] := by
      rcases ih with ⟨front, path, group, back, hm, hrest, heq⟩ | ⟨hnone, heq⟩
      · exact .inl ⟨slot :: front, path, group, back, hm, by rw [hrest]; rfl, by rw [hplace, heq]; rfl⟩
      · refine .inr ⟨fun path hpath => ?_, by rw [hplace, heq]; rfl⟩
        obtain ⟨other, hother, hp⟩ := List.mem_filterMap.mp hpath
        rcases List.mem_cons.mp hother with rfl | hother
        · exact hslot path hp
        · exact hnone path (List.mem_filterMap.mpr ⟨other, hother, hp⟩)
    cases slot with
    | single other => exact hpass (fun _ h => nomatch h) rfl
    | nested path group =>
      by_cases hm : m.pathBelow? parent = some path
      · exact .inl ⟨[], path, group, rest, hm, rfl, by rw [place, if_pos hm]; rfl⟩
      · refine hpass (fun other hother => ?_) (by rw [place, if_neg hm])
        rwa [← Option.some.inj hother]

/-! ## Layouts -/

/-- A layout in order: slots, and with each of them the positions of its members in the input. -/
structure Laid (members : List Member) (layout : List (Slot × List Nat)) : Prop where
  /-- The members of a slot are those at its positions. -/
  holds : ∀ e ∈ layout, e.1.members.map some = e.2.map (members[·]?)
  /-- Every position of the input is in one slot. -/
  perm : (layout.flatMap Prod.snd).Perm (List.range members.length)
  /-- No slot is empty. -/
  nonempty : ∀ e ∈ layout, e.2 ≠ []
  /-- The members of a slot stand in the order of the input. -/
  inOrder : ∀ e ∈ layout, e.2.Pairwise (· < ·)
  /-- The first member of a slot comes before all members of the later slots. -/
  firsts : layout.Pairwise fun e later => ∀ i ∈ e.2.head?, ∀ j ∈ later.2, i < j

theorem laid_nil : Laid [] [] where
  holds _ he := absurd he List.not_mem_nil
  perm := .nil
  nonempty _ he := absurd he List.not_mem_nil
  inOrder _ he := absurd he List.not_mem_nil
  firsts := .nil

namespace Laid

variable {layout front back : List (Slot × List Nat)} {e : Slot × List Nat} {is : List Nat}

theorem lt_length (h : Laid members layout) (he : e ∈ layout) {i : Nat} (hi : i ∈ e.2) :
    i < members.length :=
  List.mem_range.mp (h.perm.mem_iff.mp (List.mem_flatMap.mpr ⟨e, he, hi⟩))

/-- One member more changes nothing about the slots that it is not in. -/
theorem holds_concat (h : Laid members layout) (he : e ∈ layout) (m : Member) :
    e.1.members.map some = e.2.map ((members ++ [m])[·]?) := by
  rw [h.holds e he]
  refine List.map_congr_left fun i hi => ?_
  rw [List.getElem?_append_left (h.lt_length he hi)]

/-- A new slot behind all others keeps a layout in order. -/
theorem append (h : Laid members layout) {slot : Slot} (hslot : slot.members = [m]) :
    Laid (members ++ [m]) (layout ++ [(slot, [members.length])]) where
  holds := by
    refine List.forall_mem_append.mpr ⟨fun e he => h.holds_concat he m, ?_⟩
    refine List.forall_mem_singleton.mpr ?_
    rw [hslot, List.map_singleton, List.map_singleton, List.getElem?_concat_length]
  perm := by
    rw [List.flatMap_append, List.flatMap_singleton, List.length_append, List.length_singleton,
      List.range_succ]
    exact h.perm.append_right _
  nonempty := List.forall_mem_append.mpr
    ⟨h.nonempty, List.forall_mem_singleton.mpr (List.cons_ne_nil _ _)⟩
  inOrder := List.forall_mem_append.mpr
    ⟨h.inOrder, List.forall_mem_singleton.mpr (List.pairwise_singleton _ _)⟩
  firsts := by
    refine List.pairwise_append.mpr ⟨h.firsts, List.pairwise_singleton _ _, ?_⟩
    intro e he later hlater i hi j hj
    rw [List.mem_singleton.mp hlater] at hj
    rw [List.mem_singleton.mp hj]
    exact h.lt_length he (List.mem_of_mem_head? hi)

/-- A member at the end of a slot keeps a layout in order. -/
theorem extend (h : Laid members (front ++ (.nested path group, is) :: back)) (m : Member) :
    Laid (members ++ [m])
      (front ++ (.nested path (group ++ [m]), is ++ [members.length]) :: back) where
  holds := by
    refine List.forall_mem_append.mpr ⟨fun e he => h.holds_concat (by simp [he]) m,
      List.forall_mem_cons.mpr ⟨?_, fun e he => h.holds_concat (by simp [he]) m⟩⟩
    have hgroup := h.holds_concat (e := (.nested path group, is)) (by simp) m
    rw [Slot.members] at hgroup ⊢
    rw [List.map_append, List.map_append, hgroup, List.map_singleton, List.map_singleton,
      List.getElem?_concat_length]
  perm := by
    rw [List.length_append, List.length_singleton, List.range_succ]
    refine .trans ?_ (h.perm.append_right _)
    simp only [List.flatMap_append, List.flatMap_cons, List.append_assoc]
    exact (List.perm_append_comm.append_left is).append_left _
  nonempty := by
    have hold := List.forall_mem_append.mp h.nonempty
    refine List.forall_mem_append.mpr ⟨hold.1, List.forall_mem_cons.mpr ⟨?_, ?_⟩⟩
    · exact List.append_ne_nil_of_right_ne_nil is (List.cons_ne_nil _ _)
    · exact (List.forall_mem_cons.mp hold.2).2
  inOrder := by
    have hold := List.forall_mem_append.mp h.inOrder
    have hend := List.forall_mem_cons.mp hold.2
    refine List.forall_mem_append.mpr ⟨hold.1, List.forall_mem_cons.mpr ⟨?_, hend.2⟩⟩
    refine List.pairwise_append.mpr ⟨hend.1, List.pairwise_singleton _ _, fun i hi j hj => ?_⟩
    rw [List.mem_singleton.mp hj]
    exact h.lt_length (List.mem_append_right front List.mem_cons_self) hi
  firsts := by
    obtain ⟨hfront, hend, hacross⟩ := List.pairwise_append.mp h.firsts
    obtain ⟨hslot, hback⟩ := List.pairwise_cons.mp hend
    have hne : is ≠ [] := h.nonempty _ (List.mem_append_right front List.mem_cons_self)
    refine List.pairwise_append.mpr ⟨hfront, List.pairwise_cons.mpr ⟨fun later hlater i hi => ?_, hback⟩,
      fun e he => List.forall_mem_cons.mpr ⟨fun i hi j hj => ?_, fun later hlater => ?_⟩⟩
    · -- the slot has the first member that it had
      rw [List.head?_append_of_ne_nil _ hne] at hi
      exact hslot later hlater i hi
    · rcases List.mem_append.mp hj with hj | hj
      · exact hacross e he _ List.mem_cons_self i hi j hj
      · rw [List.mem_singleton.mp hj]
        exact h.lt_length (List.mem_append_left _ he) (List.mem_of_mem_head? hi)
    · exact hacross e he later (List.mem_cons_of_mem _ hlater)

end Laid

/-- **Folding lays the members out in order.** -/
theorem exists_laid (parent : List Char) (members : List Member) :
    ∃ layout, layout.map Prod.fst = slots parent members ∧ Laid members layout := by
  induction members using List.reverseRecOn with
  | nil => exact ⟨[], by rw [slots]; rfl, laid_nil⟩
  | append_singleton members m ih =>
    obtain ⟨layout, hlayout, hlaid⟩ := ih
    rw [slots_concat]
    rcases place_cases parent m (slots parent members) with
      ⟨front, path, group, back, -, hslots, hplace⟩ | ⟨-, hplace⟩
    · rw [← hlayout] at hslots
      obtain ⟨front, tail, rfl, rfl, htail⟩ := List.map_eq_append_iff.mp hslots
      obtain ⟨⟨slot, is⟩, back, rfl, rfl, rfl⟩ := List.map_eq_cons_iff.mp htail
      exact ⟨_, by rw [hplace]; simp, hlaid.extend m⟩
    · exact ⟨_, by rw [hplace, ← hlayout]; simp, hlaid.append (Slot.members_ofMember parent m)⟩

/-- **No two slots have one path.** -/
theorem nodup_paths (parent : List Char) (members : List Member) :
    ((slots parent members).filterMap Slot.path?).Nodup := by
  induction members using List.reverseRecOn with
  | nil => rw [slots]; exact List.nodup_nil
  | append_singleton members m ih =>
    rw [slots_concat]
    rcases place_cases parent m (slots parent members) with
      ⟨front, path, group, back, -, hslots, hplace⟩ | ⟨hnew, hplace⟩
    · rw [hplace]
      rw [hslots] at ih
      simpa only [List.filterMap_append, List.filterMap_cons, Slot.path?] using ih
    · rw [hplace, List.filterMap_append, List.nodup_append']
      have hone : List.filterMap Slot.path? [Slot.ofMember parent m]
          = (m.pathBelow? parent).toList := by
        rw [List.filterMap_cons, Slot.path?_ofMember]
        cases m.pathBelow? parent <;> rfl
      rw [hone]
      refine ⟨ih, ?_, fun path hold hpath => hnew path hold (Option.mem_toList.mp hpath)⟩
      cases m.pathBelow? parent with
      | none => exact List.nodup_nil
      | some path => exact List.nodup_singleton path

/-! ## What a stable grouping is -/

/-- The member asks something of a field of the objects at `path`, which are directly below those at
`parent`: the field goes on behind one segment more. -/
def Member.LiesIn (parent path : List Char) (m : Member) : Prop :=
  ∃ field segment rest, m.field? = some field ∧ segment ≠ [] ∧ '.' ∉ segment
    ∧ path = extend parent segment ∧ field = path ++ '.' :: rest

theorem pathBelow?_eq_some_iff {field : List Char} :
    pathBelow? parent field = some path ↔
      ∃ segment rest, segment ≠ [] ∧ '.' ∉ segment ∧ path = extend parent segment
        ∧ field = path ++ '.' :: rest := by
  constructor
  · intro h
    rw [pathBelow?] at h
    split at h
    · next c segment rest hcut =>
      obtain ⟨inner, hinner, hcut⟩ := Option.bind_eq_some_iff.mp hcut
      obtain ⟨rfl, hdot⟩ := Text.splitFirst?_eq_some_iff.mp hcut
      refine ⟨c :: segment, rest, List.cons_ne_nil c segment, hdot, (Option.some.inj h).symm, ?_⟩
      rw [← Option.some.inj h, relative?_eq_some_iff.mp hinner, extend]
      split <;> simp
    · exact absurd h (by simp)
  · rintro ⟨segment, rest, hne, hdot, rfl, rfl⟩
    have hinner : relative? parent (extend parent segment ++ '.' :: rest)
        = some (segment ++ '.' :: rest) := by
      rw [relative?_eq_some_iff, extend]
      split <;> simp
    rw [pathBelow?, hinner, Option.bind_some, Text.splitFirst?_append hdot]
    cases segment with
    | nil => exact absurd rfl hne
    | cons c segment => rfl

theorem Member.pathBelow?_eq_some_iff : m.pathBelow? parent = some path ↔ m.LiesIn parent path := by
  rw [Member.pathBelow?, Option.bind_eq_some_iff]
  simp only [Search.pathBelow?_eq_some_iff, LiesIn]
  constructor
  · rintro ⟨field, hfield, segment, rest, h⟩
    exact ⟨field, segment, rest, hfield, h⟩
  · rintro ⟨field, segment, rest, hfield, h⟩
    exact ⟨field, hfield, segment, rest, h⟩

theorem Member.pathBelow?_eq_none_iff :
    m.pathBelow? parent = none ↔ ∀ path, ¬m.LiesIn parent path := by
  simp only [Option.eq_none_iff_forall_ne_some, ne_eq, Member.pathBelow?_eq_some_iff]

/-- A stable grouping of members by the objects that they lie in. -/
structure Stable (parent : List Char) (members : List Member) (layout : List (Slot × List Nat)) : Prop
    extends Laid members layout where
  /-- A member that lies in no objects has a slot of its own, and there are no other such slots. -/
  alone : ∀ m is, (.single m, is) ∈ layout ↔
    ∃ i, is = [i] ∧ members[i]? = some m ∧ ∀ path, ¬m.LiesIn parent path
  /-- A nested slot has all members in the objects at its path and no others. -/
  together : ∀ path group is, (.nested path group, is) ∈ layout →
    ∀ i, i ∈ is ↔ ∃ m, members[i]? = some m ∧ m.LiesIn parent path
  /-- No two slots have one path. -/
  apart : (layout.filterMap (·.1.path?)).Nodup
  /-- There are slots for all paths of members and for no others. -/
  paths : ∀ path, path ∈ layout.filterMap (·.1.path?) ↔ ∃ m ∈ members, m.LiesIn parent path

namespace Laid

variable {layout : List (Slot × List Nat)} {is : List Nat} {i : Nat}

/-- The member at a position of a slot is one of the members of the slot. -/
theorem exists_member (h : Laid members layout) {e : Slot × List Nat} (he : e ∈ layout)
    (hi : i ∈ e.2) : ∃ m ∈ e.1.members, members[i]? = some m := by
  have hmem : members[i]? ∈ e.1.members.map some := h.holds e he ▸ List.mem_map_of_mem hi
  obtain ⟨m, hm, heq⟩ := List.mem_map.mp hmem
  exact ⟨m, hm, heq.symm⟩

/-- Every member is in some slot. -/
theorem exists_slot (h : Laid members layout) (hi : members[i]? = some m) :
    ∃ e ∈ layout, i ∈ e.2 ∧ m ∈ e.1.members := by
  obtain ⟨hlt, -⟩ := List.getElem?_eq_some_iff.mp hi
  obtain ⟨e, he, hie⟩ := List.mem_flatMap.mp (h.perm.mem_iff.mpr (List.mem_range.mpr hlt))
  obtain ⟨other, hother, heq⟩ := h.exists_member he hie
  rw [hi, Option.some_inj] at heq
  exact ⟨e, he, hie, heq ▸ hother⟩

/-- The slot of a single member has one position. -/
theorem exists_position (h : Laid members layout) (he : (.single m, is) ∈ layout) :
    ∃ i, is = [i] ∧ members[i]? = some m := by
  obtain ⟨i, rest, rfl, hi, hrest⟩ := List.map_eq_cons_iff.mp (h.holds _ he).symm
  rw [List.map_eq_nil_iff.mp hrest]
  exact ⟨i, rfl, hi⟩

/-- A nested slot has some member. -/
theorem exists_mem_group (h : Laid members layout) (he : (.nested path group, is) ∈ layout) :
    ∃ m ∈ group, m ∈ members := by
  obtain ⟨i, hi⟩ := List.exists_mem_of_ne_nil _ (h.nonempty _ he)
  obtain ⟨m, hm, hmi⟩ := h.exists_member he hi
  exact ⟨m, hm, List.mem_of_getElem? hmi⟩

/-- In slots that are right for their members, one that lies in no objects is alone. -/
theorem mem_single_iff (h : Laid members layout) (hfits : ∀ e ∈ layout, e.1.Fits parent) :
    (.single m, is) ∈ layout ↔
      ∃ i, is = [i] ∧ members[i]? = some m ∧ ∀ path, ¬m.LiesIn parent path := by
  constructor
  · intro he
    obtain ⟨i, rfl, hi⟩ := h.exists_position he
    exact ⟨i, rfl, hi, Member.pathBelow?_eq_none_iff.mp (hfits _ he)⟩
  · rintro ⟨i, rfl, hi, hm⟩
    obtain ⟨⟨slot, is⟩, he, hie, hmem⟩ := h.exists_slot hi
    cases slot with
    | single other =>
      obtain ⟨j, rfl, -⟩ := h.exists_position he
      rwa [List.mem_singleton.mp hie, List.mem_singleton.mp hmem]
    | nested found group =>
      exact absurd (Member.pathBelow?_eq_some_iff.mp ((hfits _ he).2 m hmem)) (hm found)

/-- In slots that are right for their members, one that lies in objects is in a slot of their path. -/
theorem exists_nested (h : Laid members layout) (hfits : ∀ e ∈ layout, e.1.Fits parent)
    (hi : members[i]? = some m) (hm : m.LiesIn parent path) :
    ∃ group is, (.nested path group, is) ∈ layout ∧ i ∈ is := by
  obtain ⟨⟨slot, is⟩, he, hie, hmem⟩ := h.exists_slot hi
  rw [← Member.pathBelow?_eq_some_iff] at hm
  cases slot with
  | single other =>
    have hnone : other.pathBelow? parent = none := hfits _ he
    rw [List.mem_singleton.mp hmem, hnone] at hm
    exact absurd hm (by simp)
  | nested found group =>
    have hfound : m.pathBelow? parent = some found := (hfits _ he).2 m hmem
    rw [hm, Option.some_inj] at hfound
    exact ⟨group, is, hfound ▸ he, hie⟩

/-- Two slots with one path are one slot. -/
theorem eq_of_path? (hnodup : (layout.filterMap (·.1.path?)).Nodup) {e e' : Slot × List Nat}
    (he : e ∈ layout) (he' : e' ∈ layout) (hp : e.1.path? = some path)
    (hp' : e'.1.path? = some path) : e = e' := by
  by_contra hne
  have hsymm : Std.Symm fun e e' : Slot × List Nat =>
      ∀ p, e.1.path? = some p → ∀ p', e'.1.path? = some p' → p ≠ p' :=
    ⟨fun _ _ happart p hp p' hp' => (happart p' hp' p hp).symm⟩
  exact (List.pairwise_filterMap.mp hnodup).forall he he' hne path hp path hp' rfl

/-- With one slot for every path, the slot has all members in the objects at the path. -/
theorem mem_positions_iff (h : Laid members layout) (hfits : ∀ e ∈ layout, e.1.Fits parent)
    (hnodup : (layout.filterMap (·.1.path?)).Nodup) (he : (.nested path group, is) ∈ layout) :
    i ∈ is ↔ ∃ m, members[i]? = some m ∧ m.LiesIn parent path := by
  constructor
  · intro hi
    obtain ⟨m, hm, hmi⟩ := h.exists_member he hi
    exact ⟨m, hmi, Member.pathBelow?_eq_some_iff.mp ((hfits _ he).2 m hm)⟩
  · rintro ⟨m, hi, hm⟩
    obtain ⟨group', is', he', hie⟩ := h.exists_nested hfits hi hm
    have heq := eq_of_path? hnodup he he' rfl rfl
    rw [Prod.mk.injEq] at heq
    exact heq.2 ▸ hie

theorem mem_paths_iff (h : Laid members layout) (hfits : ∀ e ∈ layout, e.1.Fits parent) :
    path ∈ layout.filterMap (·.1.path?) ↔ ∃ m ∈ members, m.LiesIn parent path := by
  constructor
  · intro hmem
    obtain ⟨⟨slot, is⟩, he, hp⟩ := List.mem_filterMap.mp hmem
    cases slot with
    | single other => exact nomatch hp
    | nested found group =>
      cases hp
      obtain ⟨m, hm, hmem⟩ := h.exists_mem_group he
      exact ⟨m, hmem, Member.pathBelow?_eq_some_iff.mp ((hfits _ he).2 m hm)⟩
  · rintro ⟨m, hm, hlies⟩
    obtain ⟨i, hi⟩ := List.mem_iff_getElem?.mp hm
    obtain ⟨group, is, he, -⟩ := h.exists_nested hfits hi hlies
    exact List.mem_filterMap.mpr ⟨_, he, rfl⟩

end Laid

/-- **Folding is a stable grouping.** -/
theorem exists_stable (parent : List Char) (members : List Member) :
    ∃ layout, layout.map Prod.fst = slots parent members ∧ Stable parent members layout := by
  obtain ⟨layout, hlayout, hlaid⟩ := exists_laid parent members
  have hfits : ∀ e ∈ layout, e.1.Fits parent := fun e he =>
    fits_of_mem_slots (hlayout ▸ List.mem_map_of_mem he)
  have hnodup : (layout.filterMap (·.1.path?)).Nodup := by
    have hpaths := nodup_paths parent members
    rw [← hlayout, List.filterMap_map] at hpaths
    exact hpaths
  exact ⟨layout, hlayout,
    { hlaid with
      alone := fun _ _ => hlaid.mem_single_iff hfits
      together := fun _ _ _ he _ => hlaid.mem_positions_iff hfits hnodup he
      apart := hnodup
      paths := fun _ => hlaid.mem_paths_iff hfits }⟩

end Rql.Search

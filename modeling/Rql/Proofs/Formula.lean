import Mathlib.Data.List.Forall2
import Rql.Proofs.Predicate.Compilation
import Rql.Proofs.Predicate.Truth

/-!
# Formulas in a row of tokens

The query languages of databases write a formula as a row of tokens: atoms with `AND`, `OR` and `NOT`
between them, and parentheses around groups. `NOT` binds tighter than `AND`, and `AND` tighter than `OR`.
`evaluate` reads such a row as a database does and gives its value, where an assignment says which atoms
hold. It works in two passes.

`items` tells atoms from the rest. An atom goes on until `AND`, `OR` or the end of the group it stands in;
parentheses that open inside of it, as in a call or a list, belong to it, and so does a `NOT` that is not
its first token.

`operand` and `operator` go over the items with a stack of groups that are still open. A group is an
alternative of conjunctions, so a `Frame` needs only two values: whether one of the finished conjunctions
holds, and whether all of the present one does so far.

`Reads` is what the compilers are proved by: tokens that read as one operand with a value, wherever they
stand. Atoms do (`reads_atom`), operands behind a `NOT` do (`reads_not`), and so do operands with keywords
between them as soon as they are in parentheses (`reads_group`). Without parentheses they only make up a
formula of their own (`evaluate_members`). A compiler of predicates has to be right about comparisons and
about groups, no more (`reads_members`).
-/

namespace Rql

namespace Formula

/-- What a token does in a formula. -/
inductive Role where
  | opening
  | closing
  | and
  | or
  | not
  /-- Part of an atom. -/
  | part
deriving DecidableEq, Repr

/-- A part of a formula. -/
inductive Item (τ : Type) where
  | opening
  | closing
  | and
  | or
  | not
  | atom (tokens : List τ)
deriving DecidableEq, Repr

variable {τ : Type}

/-- The atom that ends here, if one has begun. -/
def endAtom : List τ → List (Item τ)
  | [] => []
  | t :: ts => [.atom (t :: ts)]

/-- The items of a row of tokens, where the tokens in `begun` are read of an atom and `depth` parentheses
are open inside of it. -/
def items (role : τ → Role) : (begun : List τ) → (depth : Nat) → List τ → List (Item τ)
  | begun, _, [] => endAtom begun
  | begun, depth, t :: ts =>
    match role t, begun, depth with
    | .opening, [], _ => .opening :: items role [] 0 ts
    | .not, [], _ => .not :: items role [] 0 ts
    | .and, begun, 0 => endAtom begun ++ .and :: items role [] 0 ts
    | .or, begun, 0 => endAtom begun ++ .or :: items role [] 0 ts
    | .closing, begun, 0 => endAtom begun ++ .closing :: items role [] 0 ts
    | .closing, begun, depth + 1 => items role (begun ++ [t]) depth ts
    | .opening, begun, depth => items role (begun ++ [t]) (depth + 1) ts
    | _, begun, depth => items role (begun ++ [t]) depth ts

/-- A group in the middle of which the reader is. -/
structure Frame where
  /-- A conjunction that is finished holds. -/
  any : Bool := false
  /-- The present conjunction holds so far. -/
  all : Bool := true
  /-- The next operand is negated. -/
  negated : Bool := false

namespace Frame

/-- One more operand of the present conjunction. -/
def add (f : Frame) (value : Bool) : Frame :=
  { f with all := f.all && (value != f.negated), negated := false }

/-- The present conjunction is finished, another begins. -/
def next (f : Frame) : Frame :=
  { f with any := f.any || f.all, all := true }

/-- A `NOT` before an operand. -/
def negate (f : Frame) : Frame :=
  { f with negated := !f.negated }

/-- The value of the group, if it ends here. -/
def value (f : Frame) : Bool :=
  f.any || f.all

end Frame

mutual

/-- The value of a formula from a place on where an operand has to follow. -/
def operand (v : List τ → Bool) : List Frame → Frame → List (Item τ) → Option Bool
  | outer, f, .atom ts :: rest => operator v outer (f.add (v ts)) rest
  | outer, f, .not :: rest => operand v outer f.negate rest
  | outer, f, .opening :: rest => operand v (f :: outer) {} rest
  | _, _, _ => none

/-- The value of a formula from a place on where an operand has ended. -/
def operator (v : List τ → Bool) : List Frame → Frame → List (Item τ) → Option Bool
  | outer, f, .and :: rest => operand v outer f rest
  | outer, f, .or :: rest => operand v outer f.next rest
  | g :: outer, f, .closing :: rest => operator v outer (g.add f.value) rest
  | [], f, [] => some f.value
  | _, _, _ => none

end

/-- The value of a formula, if it is one. -/
def evaluate (role : τ → Role) (v : List τ → Bool) (ts : List τ) : Option Bool :=
  operand v [] {} (items role [] 0 ts)

/-! ## Atoms -/

/-- The tokens may stand in an atom that has begun: no keyword stands outside of the parentheses that are
open, `depth` of them at first, and all are closed at the end. -/
def closed (role : τ → Role) : (depth : Nat) → List τ → Bool
  | depth, [] => depth == 0
  | depth, t :: ts =>
    match role t, depth with
    | .and, 0 | .or, 0 | .closing, 0 => false
    | .closing, depth + 1 => closed role depth ts
    | .opening, depth => closed role (depth + 1) ts
    | _, depth => closed role depth ts

/-- The tokens are one atom. -/
def isAtom (role : τ → Role) : List τ → Bool
  | [] => false
  | t :: ts => role t == .part && closed role 0 ts

/-- Behind an operand: the end, the end of its group, or a keyword. -/
def Boundary (role : τ → Role) (ts : List τ) : Prop :=
  ∀ t ∈ ts.head?, role t = .and ∨ role t = .or ∨ role t = .closing

theorem boundary_nil (role : τ → Role) : Boundary role [] :=
  fun _ h => absurd h (by simp)

theorem boundary_cons {role : τ → Role} {t : τ} (ts : List τ)
    (h : role t = .and ∨ role t = .or ∨ role t = .closing) : Boundary role (t :: ts) := by
  intro t' ht
  rw [← Option.some.inj ht]
  exact h

theorem items_of_closed {role : τ → Role} {rest : List τ} :
    ∀ (ts : List τ) (a : τ) (begun : List τ) (depth : Nat), closed role depth ts = true →
      items role (a :: begun) depth (ts ++ rest) = items role (a :: (begun ++ ts)) 0 rest := by
  intro ts
  induction ts with
  | nil =>
    intro a begun depth h
    have hd : depth = 0 := by simpa [closed] using h
    rw [hd, List.nil_append, List.append_nil]
  | cons t ts ih =>
    intro a begun depth h
    have happ : begun ++ t :: ts = begun ++ [t] ++ ts := by
      rw [List.append_assoc, List.singleton_append]
    rw [happ]
    -- what `closed` forbids is what would end the atom; anything else joins it
    cases hr : role t <;> cases depth <;>
      simp only [items, closed, hr, List.cons_append] at h ⊢ <;>
      first
      | exact absurd h Bool.false_ne_true
      | exact ih a (begun ++ [t]) _ h

theorem items_of_boundary {role : τ → Role} {ts : List τ} (h : Boundary role ts) (a : τ)
    (begun : List τ) :
    items role (a :: begun) 0 ts = .atom (a :: begun) :: items role [] 0 ts := by
  cases ts with
  | nil => rfl
  | cons t ts =>
    rcases h t rfl with hr | hr | hr <;> simp [items, hr, endAtom]

/-! ## Operands -/

/-- The tokens read as one operand with this value, wherever an operand may stand. -/
def Reads (role : τ → Role) (v : List τ → Bool) (ts : List τ) (value : Bool) : Prop :=
  ∀ (outer : List Frame) (f : Frame) (rest : List τ), Boundary role rest →
    operand v outer f (items role [] 0 (ts ++ rest))
      = operator v outer (f.add value) (items role [] 0 rest)

section

variable {role : τ → Role} {v : List τ → Bool}

theorem reads_atom {ts : List τ} (h : isAtom role ts = true) : Reads role v ts (v ts) := by
  intro outer f rest hrest
  cases ts with
  | nil => exact absurd h (by simp [isAtom])
  | cons t ts =>
    have ht : role t = .part ∧ closed role 0 ts = true := by simpa [isAtom] using h
    have hitems : items role [] 0 (t :: ts ++ rest) = .atom (t :: ts) :: items role [] 0 rest := by
      rw [List.cons_append]
      simp only [items, ht.1]
      rw [List.nil_append, items_of_closed ts t [] 0 ht.2, List.nil_append]
      exact items_of_boundary hrest t ts
    rw [hitems, operand]

theorem reads_not {w : τ} (hw : role w = .not) {ts : List τ} {b : Bool}
    (h : Reads role v ts b) : Reads role v (w :: ts) (!b) := by
  intro outer f rest hrest
  have hitems : items role [] 0 (w :: ts ++ rest) = .not :: items role [] 0 (ts ++ rest) := by
    rw [List.cons_append]
    simp only [items, hw]
  have hadd : f.negate.add b = f.add (!b) := by
    cases b <;> cases hn : f.negated <;> simp [Frame.negate, Frame.add, hn]
  rw [hitems, operand, h outer f.negate rest hrest, hadd]

theorem evaluate_of_reads {ts : List τ} {b : Bool} (h : Reads role v ts b) :
    evaluate role v ts = some b := by
  have := h [] {} [] (boundary_nil role)
  rw [List.append_nil] at this
  rw [evaluate, this]
  cases b <;> rfl

end

/-! ## Groups -/

/-- The role of the keyword between the members of a group. -/
def Role.between : Conjunction → Role
  | .and => .and
  | .or => .or

namespace Frame

/-- Behind a keyword between members. -/
def follow : Conjunction → Frame → Frame
  | .and, f => f
  | .or, f => f.next

/-- More members of the group, with one keyword between them. -/
def members (c : Conjunction) : Frame → List Bool → Frame
  | f, [] => f
  | f, [b] => f.add b
  | f, b :: rest => members c ((f.add b).follow c) rest

theorem value_members_and (f : Frame) (bs : List Bool) (hneg : f.negated = false) :
    (f.members .and bs).value = (f.any || (f.all && bs.all id)) := by
  induction bs generalizing f with
  | nil => simp [members, value]
  | cons b rest ih =>
    -- `AND` leaves the frame as it is, so the last member is no special case
    have hcons : f.members .and (b :: rest) = (f.add b).members .and rest := by
      cases rest <;> rfl
    rw [hcons, ih (f.add b) rfl]
    simp [add, hneg, Bool.and_assoc]

theorem value_members_or (f : Frame) (b : Bool) (bs : List Bool) (hneg : f.negated = false)
    (hall : f.all = true) :
    (f.members .or (b :: bs)).value = (f.any || (b :: bs).any id) := by
  induction bs generalizing f b with
  | nil => simp [members, value, add, hneg, hall]
  | cons b' rest ih =>
    rw [members, ih ((f.add b).follow .or) b' rfl rfl]
    · simp [follow, next, add, hneg, hall, Bool.or_assoc]
    · exact List.cons_ne_nil b' rest

/-- A group that begins with these members and has no others. -/
theorem value_members (c : Conjunction) {bs : List Bool} (hne : bs ≠ []) :
    (({} : Frame).members c bs).value = c.combine bs := by
  cases c with
  | and => exact value_members_and {} bs rfl
  | or =>
    obtain ⟨b, rest, rfl⟩ := List.exists_cons_of_ne_nil hne
    exact value_members_or {} b rest rfl rfl

end Frame

section

variable {role : τ → Role} {v : List τ → Bool} {c : Conjunction} {w : τ}

/-- **Members with one keyword between them read one after the other.** -/
theorem operand_members (hw : role w = .between c) (outer : List Frame) {rest : List τ}
    (hrest : Boundary role rest) {tss : List (List τ)} {bs : List Bool}
    (h : List.Forall₂ (Reads role v) tss bs) (hne : tss ≠ []) (f : Frame) :
    operand v outer f (items role [] 0 ([w].intercalate tss ++ rest))
      = operator v outer (f.members c bs) (items role [] 0 rest) := by
  induction h generalizing f with
  | nil => exact absurd rfl hne
  | @cons ts b tss bs hts htss ih =>
    cases htss with
    | nil =>
      rw [List.intercalate_singleton]
      exact hts outer f rest hrest
    | @cons us b' uss bs' hus huss =>
      have hkey : Boundary role (w :: ([w].intercalate (us :: uss) ++ rest)) :=
        boundary_cons _ (by cases c <;> simp [hw, Role.between])
      rw [List.intercalate_cons_cons, List.append_assoc, List.append_assoc, List.singleton_append,
        hts outer f _ hkey]
      have hfollow : operator v outer (f.add b)
            (items role [] 0 (w :: ([w].intercalate (us :: uss) ++ rest)))
          = operand v outer ((f.add b).follow c)
            (items role [] 0 ([w].intercalate (us :: uss) ++ rest)) := by
        cases c <;> simp [items, hw, Role.between, endAtom, operator, Frame.follow]
      -- the others are read from the frame that the first one and the keyword leave
      rw [hfollow, ih (List.cons_ne_nil us uss)]
      rfl

theorem values_ne_nil {tss : List (List τ)} {bs : List Bool}
    (h : List.Forall₂ (Reads role v) tss bs) (hne : tss ≠ []) : bs ≠ [] := by
  rintro rfl
  exact hne (List.forall₂_nil_right_iff.mp h)

/-- **Members in parentheses read as one operand**, whatever stands beside them. -/
theorem reads_group (hw : role w = .between c) {opening closing : τ}
    (hopen : role opening = .opening) (hclose : role closing = .closing) {tss : List (List τ)}
    {bs : List Bool} (h : List.Forall₂ (Reads role v) tss bs) (hne : tss ≠ []) :
    Reads role v (opening :: ([w].intercalate tss ++ [closing])) (c.combine bs) := by
  intro outer f rest _
  have hbs := values_ne_nil h hne
  have hend : Boundary role (closing :: rest) := boundary_cons rest (.inr (.inr hclose))
  rw [List.cons_append, List.append_assoc, List.singleton_append]
  simp only [items, hopen]
  -- the members have a frame of their own, on top of the one that the group stands in
  rw [operand, operand_members hw (f :: outer) hend h hne]
  simp only [items, hclose, endAtom, List.nil_append]
  rw [operator, Frame.value_members c hbs]

/-- Members without parentheses, if there is nothing else. -/
theorem evaluate_members (hw : role w = .between c) {tss : List (List τ)} {bs : List Bool}
    (h : List.Forall₂ (Reads role v) tss bs) (hne : tss ≠ []) :
    evaluate role v ([w].intercalate tss) = some (c.combine bs) := by
  have hbs := values_ne_nil h hne
  have hmembers := operand_members hw [] (boundary_nil role) h hne {}
  rw [List.append_nil] at hmembers
  rw [evaluate, hmembers, ← Frame.value_members c hbs]
  rfl

end

/-! ## Compilers -/

section

variable {ε α : Type} {leaf : Comparison → Except ε α} {join : Conjunction → List α → α}
  {one : Predicate → Except ε α} {many : List Predicate → Except ε (List α)} {tokens : α → List τ}
  {role : τ → Role} {v : List τ → Bool} {meaning : Comparison → Bool}

mutual

theorem reads_predicate (h : Predicate.Compiles leaf join one many)
    (hleaf : ∀ {c a}, leaf c = .ok a → c.hasArity = true → Reads role v (tokens a) (meaning c))
    (hjoin : ∀ c {as bs}, List.Forall₂ (Reads role v) (as.map tokens) bs → as ≠ [] →
      Reads role v (tokens (join c as)) (c.combine bs)) :
    (p : Predicate) → {a : α} → one p = .ok a → p.wellFormed = true →
      Reads role v (tokens a) (p.holds meaning)
  | .compare c, _, hok, hw => by
      rw [h.compare] at hok
      exact hleaf hok hw
  | .group c members, _, hok, hw => by
      obtain ⟨as, has, rfl⟩ := h.group_ok hok
      obtain ⟨hne, hmembers⟩ := Predicate.wellFormed_group.mp hw
      exact hjoin c (reads_members h hleaf hjoin members has hmembers) (h.ne_nil has hne)

/-- **A compiler that is right about comparisons and about groups is right about predicates.** -/
theorem reads_members (h : Predicate.Compiles leaf join one many)
    (hleaf : ∀ {c a}, leaf c = .ok a → c.hasArity = true → Reads role v (tokens a) (meaning c))
    (hjoin : ∀ c {as bs}, List.Forall₂ (Reads role v) (as.map tokens) bs → as ≠ [] →
      Reads role v (tokens (join c as)) (c.combine bs)) :
    (ps : List Predicate) → {as : List α} → many ps = .ok as →
      Predicate.wellFormedMembers ps = true →
        List.Forall₂ (Reads role v) (as.map tokens) (Predicate.truths meaning ps)
  | [], _, hok, _ => by
      rw [h.nil] at hok
      cases hok
      exact .nil
  | p :: ps, _, hok, hw => by
      obtain ⟨b, bs, hb, hbs, rfl⟩ := h.cons_ok hok
      obtain ⟨hp, hps⟩ := Predicate.wellFormedMembers_cons.mp hw
      exact .cons (reads_predicate h hleaf hjoin p hb hp) (reads_members h hleaf hjoin ps hbs hps)

end

end

end Formula

end Rql

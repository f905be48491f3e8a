import Rql.Predicate
import Rql.Proofs.Outcome
import Rql.Proofs.Predicate.Truth
import Rql.Proofs.Term.Resemblance

/-!
# The notation of predicates

A predicate is written as the term `toTerm` makes of it, and read by way of the term that its text is a
notation of. A comparison is `IsPlain` if neither its field nor any value without quotes needs quotes; a
field is never written with any.

Main statement: what is written of a predicate is read as that predicate exactly if the predicate is
well formed and its comparisons are plain (`reads_render_iff`). In one direction, a plain predicate has a
notation as a term. In the other, reading forgets only what `Resembles` allows for, so a text that is
written of the predicate and read as it is a notation of `toTerm` itself.

Of a call, only the field can need quotes that are not written (`printable_of_ofText`).
-/

namespace Rql

open Term (Bare IsName HasNotation HaveNotations Resembles AllResemble)

/-- Neither the field nor a bare value needs quotes. -/
structure Comparison.IsPlain (c : Comparison) : Prop where
  field : Bare .argument c.field.toList
  values : ∀ l ∈ c.values, l.quoted = false → Bare .argument l.text.toList

instance (c : Comparison) : Decidable c.IsPlain :=
  decidable_of_iff (Bare .argument c.field.toList ∧
      ∀ l ∈ c.values, l.quoted = false → Bare .argument l.text.toList)
    ⟨fun h => ⟨h.1, h.2⟩, fun h => ⟨h.field, h.values⟩⟩

theorem Operator.isName_token (op : Operator) : IsName op.token.toList := by
  cases op <;> exact ⟨by decide, List.all_eq_true.mp (by decide)⟩

theorem Conjunction.isName_token (c : Conjunction) : IsName c.token.toList := by
  cases c <;> exact ⟨by decide, List.all_eq_true.mp (by decide)⟩

theorem Operator.ofToken?_token (op : Operator) : ofToken? op.token = some op := by
  cases op <;> decide

theorem Conjunction.ofToken?_token (c : Conjunction) : ofToken? c.token = some c := by
  cases c <;> decide

/-- No operator has the name of a conjunction. -/
theorem Conjunction.ofToken?_operator (op : Operator) : ofToken? op.token = none := by
  cases op <;> decide

namespace Predicate

/-- What the checked ways to build a predicate see to. -/
structure Checked (p : Predicate) : Prop where
  wellFormed : p.wellFormed = true
  field : ∀ c ∈ p.comparisons, c.field ≠ ""

/-- Well formed, with nothing in it that needs quotes and has none. -/
structure Printable (p : Predicate) : Prop where
  wellFormed : p.wellFormed = true
  plain : ∀ c ∈ p.comparisons, c.IsPlain

theorem checked_iff {p : Predicate} :
    p.Checked ↔ p.wellFormed = true ∧ ∀ c ∈ p.comparisons, c.field ≠ "" :=
  ⟨fun h => ⟨h.wellFormed, h.field⟩, fun h => ⟨h.1, h.2⟩⟩

theorem printable_iff {p : Predicate} :
    p.Printable ↔ p.wellFormed = true ∧ ∀ c ∈ p.comparisons, c.IsPlain :=
  ⟨fun h => ⟨h.wellFormed, h.plain⟩, fun h => ⟨h.1, h.2⟩⟩

instance (p : Predicate) : Decidable p.Printable :=
  decidable_of_iff (p.wellFormed = true ∧ ∀ c ∈ p.comparisons, c.IsPlain) printable_iff.symm

/-- What is asked of a well-formed group and of each of its comparisons is asked of its members. -/
theorem wellFormed_and_forall_group_iff {P : Comparison → Prop} {conjunction : Conjunction}
    {ps : List Predicate} :
    ((group conjunction ps).wellFormed = true ∧ ∀ c ∈ (group conjunction ps).comparisons, P c)
      ↔ ps ≠ [] ∧ ∀ p ∈ ps, p.wellFormed = true ∧ ∀ c ∈ p.comparisons, P c := by
  rw [wellFormed_group_iff]
  constructor
  · rintro ⟨⟨hne, hwell⟩, hall⟩
    exact ⟨hne, fun p hp => ⟨hwell p hp, forall_comparisonsOfMembers.mp hall p hp⟩⟩
  · rintro ⟨hne, h⟩
    exact ⟨⟨hne, fun p hp => (h p hp).1⟩, forall_comparisonsOfMembers.mpr fun p hp => (h p hp).2⟩

theorem checked_group_iff {conjunction : Conjunction} {ps : List Predicate} :
    (group conjunction ps).Checked ↔ ps ≠ [] ∧ ∀ p ∈ ps, p.Checked := by
  simp only [checked_iff, wellFormed_and_forall_group_iff]

theorem printable_group_iff {conjunction : Conjunction} {ps : List Predicate} :
    (group conjunction ps).Printable ↔ ps ≠ [] ∧ ∀ p ∈ ps, p.Printable := by
  simp only [printable_iff, wellFormed_and_forall_group_iff]

mutual

/-- The term that a predicate is written as. -/
def toTerm : Predicate → Term
  | .compare c => .call c.op.token (.word (.bare c.field) :: c.values.map .word)
  | .group conjunction members => .call conjunction.token (toTerms members)

/-- The terms that predicates are written as. -/
def toTerms : List Predicate → List Term
  | [] => []
  | member :: rest => toTerm member :: toTerms rest

end

/-! ## Writing -/

theorem renderArgs_eq_join (ts : List Term) :
    Term.renderArgs ts = Text.join "," (ts.map Term.render) := by
  induction ts with
  | nil => rfl
  | cons t ts ih =>
    cases ts with
    | nil => rfl
    | cons u us =>
      rw [Term.renderArgs, ih]
      · rfl
      · exact List.cons_ne_nil u us

mutual

theorem render_toTerm : (p : Predicate) → (toTerm p).render = p.render
  | .compare c => by
      have hmap : (c.values.map Term.word).map Term.render = c.values.map Literal.render := by
        rw [List.map_map]
        rfl
      rw [toTerm, Term.render, render, Comparison.render, renderArgs_eq_join, List.map_cons, hmap]
      rfl
  | .group conjunction members => by
      rw [toTerm, Term.render, render, renderArgs_toTerms members]

theorem renderArgs_toTerms : (ps : List Predicate) →
    Term.renderArgs (toTerms ps) = renderMembers ps
  | [] => rfl
  | [p] => by
      rw [toTerms, toTerms, Term.renderArgs, renderMembers, render_toTerm p]
  | p :: q :: rest => by
      rw [toTerms, toTerms, Term.renderArgs, renderMembers, render_toTerm p, ← toTerms,
        renderArgs_toTerms (q :: rest)]
      · exact List.cons_ne_nil q rest
      · exact List.cons_ne_nil _ _

end

theorem haveNotations_words (ls : List Literal) :
    HaveNotations (ls.map .word) ↔ ∀ l ∈ ls, l.quoted = false → Bare .argument l.text.toList := by
  induction ls with
  | nil => simp [HaveNotations]
  | cons l ls ih => rw [List.map_cons, HaveNotations, HasNotation, ih, List.forall_mem_cons]

mutual

/-- A predicate has a notation as a term if its comparisons are plain. -/
theorem hasNotation_toTerm (place : Term.Place) : (p : Predicate) →
    (HasNotation place (toTerm p) ↔ ∀ c ∈ p.comparisons, c.IsPlain)
  | .compare c => by
      rw [toTerm, HasNotation, HaveNotations, HasNotation, haveNotations_words, comparisons,
        List.forall_mem_singleton]
      constructor
      · rintro ⟨-, hfield, hvalues⟩
        exact ⟨hfield rfl, hvalues⟩
      · intro h
        exact ⟨c.op.isName_token, fun _ => h.field, h.values⟩
  | .group conjunction members => by
      rw [toTerm, HasNotation, haveNotations_toTerms members, comparisons]
      exact and_iff_right conjunction.isName_token

theorem haveNotations_toTerms : (ps : List Predicate) →
    (HaveNotations (toTerms ps) ↔ ∀ c ∈ comparisonsOfMembers ps, c.IsPlain)
  | [] => by simp [toTerms, HaveNotations, comparisonsOfMembers]
  | p :: rest => by
      rw [toTerms, HaveNotations, hasNotation_toTerm .argument p, haveNotations_toTerms rest,
        comparisonsOfMembers, List.forall_mem_append]

end

/-! ## Reading -/

theorem valuesOfTerms_words (op : Operator) (ls : List Literal) :
    valuesOfTerms op (ls.map .word) = .ok ls := by
  rw [valuesOfTerms, List.mapM_map]
  exact mapM_eq_self fun l _ => rfl

theorem valuesOfTerms_ok {op : Operator} {args : List Term} {values : List Literal}
    (h : valuesOfTerms op args = .ok values) : args = values.map .word := by
  induction args generalizing values with
  | nil => rw [← Except.ok.inj h]; rfl
  | cons arg args ih =>
    obtain ⟨l, ls, hl, hls, rfl⟩ := mapM_cons_ok h
    cases arg with
    | call name args => exact absurd hl (by simp)
    | word m => rw [← Except.ok.inj hl, ih hls, List.map_cons]

theorem make_ok {op : Operator} {field : String} {values : List Literal} {c : Comparison}
    (h : Comparison.make op field values = .ok c) :
    c = ⟨op, field, values⟩ ∧ field ≠ "" ∧ c.hasArity = true := by
  rw [Comparison.make] at h
  split at h
  · exact absurd h (by simp)
  next hne =>
  split at h
  · next ha =>
    obtain rfl := Except.ok.inj h
    exact ⟨rfl, hne, ha⟩
  · exact absurd h (by simp)

/-- What a call of an operator that is a comparison looks like. -/
theorem ofOperatorCall_ok {op : Operator} {args : List Term} {p : Predicate}
    (h : ofOperatorCall op args = .ok p) :
    ∃ (field : Literal) (c : Comparison), args = .word field :: c.values.map .word ∧
      c.op = op ∧ c.field = field.text ∧ c.field ≠ "" ∧ c.hasArity = true ∧ p = .compare c := by
  cases args with
  | nil => exact absurd h (by simp [ofOperatorCall])
  | cons arg args =>
    cases arg with
    | call name args => exact absurd h (by simp [ofOperatorCall])
    | word field =>
      rw [ofOperatorCall] at h
      obtain ⟨values, hvalues, h⟩ := bind_ok h
      obtain ⟨c, hc, h⟩ := bind_ok h
      obtain ⟨rfl, hne, harity⟩ := make_ok hc
      exact ⟨field, _, by rw [valuesOfTerms_ok hvalues], rfl, rfl, hne, harity,
        (Except.ok.inj h).symm⟩

theorem checked_of_ofOperatorCall {op : Operator} {args : List Term} {p : Predicate}
    (h : ofOperatorCall op args = .ok p) : p.Checked := by
  obtain ⟨_, c, -, -, -, hne, harity, rfl⟩ := ofOperatorCall_ok h
  exact ⟨harity, List.forall_mem_singleton.mpr hne⟩

/-- What a call that is a predicate looks like. -/
theorem ofTerm_call_ok {name : String} {args : List Term} {p : Predicate}
    (h : ofTerm (.call name args) = .ok p) :
    (∃ conjunction members, Conjunction.ofToken? name = some conjunction ∧
        ofTerms args = .ok members ∧ members ≠ [] ∧ p = .group conjunction members) ∨
      ∃ op, Conjunction.ofToken? name = none ∧ Operator.ofToken? name = some op ∧
        ofOperatorCall op args = .ok p := by
  rw [ofTerm] at h
  split at h
  · next conjunction hconj =>
    split at h
    · exact absurd h (by simp)
    · next members hmembers =>
      rw [makeGroup] at h
      split at h
      · exact absurd h (by simp)
      · next hne =>
        exact .inl ⟨conjunction, members, hconj, hmembers, fun he => hne (by rw [he]; rfl),
          (Except.ok.inj h).symm⟩
  · next hconj =>
    split at h
    · next op hop => exact .inr ⟨op, hconj, hop, h⟩
    · exact absurd h (by simp)

theorem ofTerms_cons_ok {t : Term} {ts : List Term} {ps : List Predicate}
    (h : ofTerms (t :: ts) = .ok ps) :
    ∃ p rest, ofTerm t = .ok p ∧ ofTerms ts = .ok rest ∧ ps = p :: rest := by
  rw [ofTerms] at h
  split at h
  · exact absurd h (by simp)
  next p hp =>
  split at h
  · exact absurd h (by simp)
  · next rest hrest => exact ⟨p, rest, hp, hrest, (Except.ok.inj h).symm⟩

mutual

/-- What is read is checked. -/
theorem checked_of_ofTerm : (t : Term) → {p : Predicate} → ofTerm t = .ok p → p.Checked
  | .word _, _, h => absurd h (by simp [ofTerm])
  | .call _ args, p, h => by
      rcases ofTerm_call_ok h with ⟨conjunction, members, -, hmembers, hne, rfl⟩ | ⟨op, -, -, hop⟩
      · exact checked_group_iff.mpr ⟨hne, checked_of_ofTerms args hmembers⟩
      · exact checked_of_ofOperatorCall hop

theorem checked_of_ofTerms : (ts : List Term) → {ps : List Predicate} → ofTerms ts = .ok ps →
    ∀ p ∈ ps, p.Checked
  | [], _, h => by
      obtain rfl := Except.ok.inj h
      exact fun _ hp => absurd hp List.not_mem_nil
  | t :: ts, _, h => by
      obtain ⟨p, rest, hp, hrest, rfl⟩ := ofTerms_cons_ok h
      exact List.forall_mem_cons.mpr ⟨checked_of_ofTerm t hp, checked_of_ofTerms ts hrest⟩

end

mutual

/-- A checked predicate is read from the term that it is written as. -/
theorem ofTerm_toTerm : (p : Predicate) → p.Checked → ofTerm (toTerm p) = .ok p
  | .compare c, h => by
      have hfield : c.field ≠ "" := h.field c (List.mem_singleton.mpr rfl)
      have hmake : Comparison.make c.op c.field c.values = .ok c := by
        rw [Comparison.make, if_neg hfield]
        exact if_pos h.wellFormed
      rw [toTerm, ofTerm, Conjunction.ofToken?_operator, Operator.ofToken?_token]
      simp only [ofOperatorCall, Literal.bare, valuesOfTerms_words]
      simp only [bind, Except.bind, hmake]
      rfl
  | .group conjunction members, h => by
      obtain ⟨hne, hmembers⟩ := checked_group_iff.mp h
      rw [toTerm, ofTerm, Conjunction.ofToken?_token]
      simp only [ofTerms_toTerms members hmembers]
      rw [makeGroup, if_neg (by rwa [List.isEmpty_iff])]

theorem ofTerms_toTerms : (ps : List Predicate) → (∀ p ∈ ps, p.Checked) →
    ofTerms (toTerms ps) = .ok ps
  | [], _ => rfl
  | p :: rest, h => by
      obtain ⟨hp, hrest⟩ := List.forall_mem_cons.mp h
      rw [toTerms, ofTerms, ofTerm_toTerm p hp, ofTerms_toTerms rest hrest]

end

mutual

/-- The values of a call are plain as they stand. -/
theorem plainValues_of_ofTerm {place : Term.Place} : (t : Term) → HasNotation place t →
    {p : Predicate} → ofTerm t = .ok p →
    ∀ c ∈ p.comparisons, ∀ l ∈ c.values, l.quoted = false → Bare .argument l.text.toList
  | .word _, _, _, h => absurd h (by simp [ofTerm])
  | .call _ args, ⟨_, hargs⟩, p, h => by
      rcases ofTerm_call_ok h with ⟨conjunction, members, -, hmembers, -, rfl⟩ | ⟨op, -, -, hop⟩
      · exact forall_comparisonsOfMembers.mpr (plainValues_of_ofTerms args hargs hmembers)
      · obtain ⟨field, c, rfl, -, -, -, -, rfl⟩ := ofOperatorCall_ok hop
        exact List.forall_mem_singleton.mpr ((haveNotations_words c.values).mp hargs.2)

theorem plainValues_of_ofTerms : (ts : List Term) → HaveNotations ts →
    {ps : List Predicate} → ofTerms ts = .ok ps →
    ∀ p ∈ ps, ∀ c ∈ p.comparisons, ∀ l ∈ c.values, l.quoted = false → Bare .argument l.text.toList
  | [], _, _, h => by
      obtain rfl := Except.ok.inj h
      exact fun _ hp => absurd hp List.not_mem_nil
  | t :: ts, ⟨ht, hts⟩, _, h => by
      obtain ⟨p, rest, hp, hrest, rfl⟩ := ofTerms_cons_ok h
      exact List.forall_mem_cons.mpr
        ⟨plainValues_of_ofTerm t ht hp, plainValues_of_ofTerms ts hts hrest⟩

end

theorem allResemble_words (ls : List Literal) : AllResemble (ls.map .word) (ls.map .word) := by
  induction ls with
  | nil => exact .nil
  | cons l ls ih => exact .cons (.word rfl id) ih

mutual

/-- Reading forgets the case of names and the quotes around fields, and nothing else. -/
theorem resembles_of_ofTerm : (t : Term) → {p : Predicate} → ofTerm t = .ok p →
    Resembles t (toTerm p)
  | .word _, _, h => absurd h (by simp [ofTerm])
  | .call _ args, p, h => by
      rcases ofTerm_call_ok h with ⟨conjunction, members, -, hmembers, -, rfl⟩ | ⟨op, -, -, hop⟩
      · exact .call conjunction.isName_token (allResemble_of_ofTerms args hmembers)
      · obtain ⟨field, c, rfl, -, hfield, -, -, rfl⟩ := ofOperatorCall_ok hop
        exact .call c.op.isName_token
          (.cons (.word hfield.symm (fun hq => absurd hq Bool.false_ne_true)) (allResemble_words _))

theorem allResemble_of_ofTerms : (ts : List Term) → {ps : List Predicate} → ofTerms ts = .ok ps →
    AllResemble ts (toTerms ps)
  | [], _, h => by
      obtain rfl := Except.ok.inj h
      exact .nil
  | t :: ts, _, h => by
      obtain ⟨p, rest, hp, hrest, rfl⟩ := ofTerms_cons_ok h
      exact .cons (resembles_of_ofTerm t hp) (allResemble_of_ofTerms ts hrest)

end

/-! ## Reading what is written -/

theorem Printable.checked {p : Predicate} (h : p.Printable) : p.Checked := by
  refine ⟨h.wellFormed, fun c hc he => (h.plain c hc).field.ne_nil ?_⟩
  rw [he]
  rfl

/-- **What is written of a predicate is read as it exactly if the predicate is printable.** -/
theorem reads_render_iff (p : Predicate) :
    (Term.ofText p.render >>= ofTerm) = .ok p ↔ p.Printable := by
  constructor
  · intro h
    obtain ⟨t, ht, hp⟩ := bind_ok h
    have hpadded : Term.Padded .alone p.render.toList t := Term.padded_of_ofChars .alone ht nofun
    -- the text is that of `toTerm p`, and `t` resembles it
    have heq : t = toTerm p := by
      have htext : p.render.toList ++ [] = (toTerm p).render.toList ++ [] := by rw [render_toTerm]
      exact (Term.eq_render_of_padded hpadded (toTerm p) [] [] (resembles_of_ofTerm t hp)
        Term.ends_nil htext).1
    have hnotation := Term.hasNotation_of_padded hpadded
    rw [heq] at hnotation
    exact ⟨(checked_of_ofTerm t hp).wellFormed, (hasNotation_toTerm .alone p).mp hnotation⟩
  · intro h
    have hnotation := (hasNotation_toTerm .alone p).mpr h.plain
    have hread : Term.ofText p.render = .ok (toTerm p) := by
      rw [← render_toTerm]
      exact Term.ofChars_of_exact (Term.exact_render (toTerm p) hnotation)
    rw [hread]
    exact ofTerm_toTerm p h.checked

/-- Printable predicates are told by what is written of them. -/
theorem map_render_inj {ps qs : List Predicate} (hp : ∀ p ∈ ps, p.Printable)
    (hq : ∀ q ∈ qs, q.Printable) (h : ps.map render = qs.map render) : ps = qs := by
  have hread : ∀ {rs : List Predicate}, (∀ r ∈ rs, r.Printable) →
      (rs.map render).map (fun text => Term.ofText text >>= ofTerm) = rs.map Except.ok := by
    intro rs hrs
    rw [List.map_map]
    exact List.map_congr_left fun r hr => (reads_render_iff r).mpr (hrs r hr)
  have hok : ps.map (Except.ok (ε := Fault)) = qs.map Except.ok := by
    rw [← hread hp, ← hread hq, h]
  exact List.map_injective_iff.mpr (fun _ _ => Except.ok.inj) hok

/-- What was read of a text is printable if its fields are: of a call no value needs quotes that it does
not have. -/
theorem printable_of_ofText {text : String} {p : Predicate}
    (h : (Term.ofText text >>= ofTerm) = .ok p)
    (hfield : ∀ c ∈ p.comparisons, Bare .argument c.field.toList) : p.Printable := by
  obtain ⟨t, ht, hp⟩ := bind_ok h
  have hnotation := Term.hasNotation_of_padded (Term.padded_of_ofChars .alone ht nofun)
  have hvalues := plainValues_of_ofTerm t hnotation hp
  exact ⟨(checked_of_ofTerm t hp).wellFormed, fun c hc => ⟨hfield c hc, hvalues c hc⟩⟩

end Predicate

end Rql

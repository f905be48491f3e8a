import Rql.Proofs.Request.Reading

/-!
# Requests that are written out and read again

The predicates of a statement can be written as one key, the group that they form (`renderTogether`), or
as one key each. Printable predicates come back either way (`ofParameters_render`).

A statement that was read need not be printable. A field in quotes, or the value of `field=value`, may
hold a comma or a parenthesis, and neither is written in quotes. Such a statement does not come back: it
does so exactly if all of its comparisons are plain (`reread_iff`).
-/

namespace Rql

open Parameter (IsCallKey isCallKey_append)

namespace Predicate

/-- Predicates and how they combine as the key of one parameter. -/
def renderTogether (conjunction : Conjunction) (ps : List Predicate) : String :=
  conjunction.token ++ "(" ++ Text.join "," (ps.map render) ++ ")"

theorem renderMembers_eq_join (ps : List Predicate) :
    renderMembers ps = Text.join "," (ps.map render) := by
  induction ps with
  | nil => rfl
  | cons p ps ih =>
    cases ps with
    | nil => rfl
    | cons q qs =>
      rw [renderMembers, ih]
      · rfl
      · exact List.cons_ne_nil q qs

theorem renderTogether_eq_render (conjunction : Conjunction) (ps : List Predicate) :
    renderTogether conjunction ps = (group conjunction ps).render := by
  rw [renderTogether, render, renderMembers_eq_join]

/-- Every predicate is written as a call. -/
theorem isCallKey_render (p : Predicate) : IsCallKey p.render := by
  cases p with
  | compare c => exact isCallKey_append c.op.isName_token _
  | group conjunction members => exact isCallKey_append conjunction.isName_token _

end Predicate

namespace Statement

open Predicate (renderTogether)

variable {config : Config} {table : Table} {params : List (String × String)} {s : Statement}

/-! ## Keys without values -/

theorem last?_predicates {α : Type} {what : Parameter → Option α} {ps : List Predicate}
    (h : ∀ p, what (.predicate p) = none) : last? what (ps.map .predicate) = none := by
  have hnone : (ps.map Parameter.predicate).filterMap what = [] := by
    rw [List.filterMap_map]
    exact List.filterMap_eq_nil_iff.mpr fun p _ => h p
  rw [last?, hnone]
  rfl

/-- Predicates say nothing about the order or the page. -/
theorem assemble_predicates (config : Config) (name : String) (ps : List Predicate) :
    assemble config name (ps.map .predicate) =
      .ok { table := name
            conjunction := (openGroup ps).1
            predicates := (openGroup ps).2
            page := { maxRows := config.defaultPageSize } } := by
  have hpage : pageOf config (ps.map .predicate) = .ok { maxRows := config.defaultPageSize } := by
    rw [pageOf, last?_predicates fun _ => rfl, last?_predicates fun _ => rfl,
      last?_predicates fun _ => rfl, last?_predicates fun _ => rfl]
    rfl
  have hpreds : (ps.map .predicate).filterMap Parameter.predicate? = ps := by
    rw [List.filterMap_map]
    exact List.filterMap_some
  have horders : (ps.map .predicate).flatMap Parameter.orders = [] := by
    rw [List.flatMap_map]
    exact List.flatMap_eq_nil_iff.mpr fun _ _ => rfl
  rw [assemble, hpage, hpreds, horders]
  rfl

/-- A request for nothing but predicates. -/
theorem ofParameters_predicates (config : Config) (table : Table) (params : List (String × String))
    (ps : List Predicate) (h : given config params = .ok (ps.map .predicate)) :
    ofParameters config table params =
      .ok { table := table.name
            conjunction := (openGroup ps).1
            predicates := (openGroup ps).2
            page := { maxRows := config.defaultPageSize } } := by
  rw [ofParameters_eq, h]
  exact congrArg (Except.mapError Error.malformed) (assemble_predicates config table.name ps)

theorem given_render (config : Config) {ps : List Predicate} (h : ∀ p ∈ ps, p.Printable) :
    given config (ps.map fun p => (p.render, "")) = .ok (ps.map .predicate) := by
  have hkeys : ∀ key ∈ ps.map Predicate.render, Term.looksLikeCall key = true := by
    intro key hkey
    obtain ⟨p, -, rfl⟩ := List.mem_map.mp hkey
    exact p.isCallKey_render.looksLikeCall
  have hreads : List.Forall₂ (fun key p => (Term.ofText key >>= Predicate.ofTerm) = .ok p)
      (ps.map Predicate.render) ps := by
    rw [List.forall₂_map_left_iff, List.forall₂_same]
    exact fun p hp => (Predicate.reads_render_iff p).mpr (h p hp)
  have hgiven := given_calls config hkeys hreads
  rwa [List.map_map] at hgiven

/-- A request that is a single call. -/
theorem ofParameters_call (config : Config) (table : Table) {key : String} (hkey : IsCallKey key) :
    ofParameters config table [(key, "")] =
      ((Term.ofText key >>= Predicate.ofTerm).map fun p =>
        { table := table.name
          conjunction := (openGroup [p]).1
          predicates := (openGroup [p]).2
          page := { maxRows := config.defaultPageSize } : Statement }).mapError .malformed := by
  have hgiven := given_call config hkey.looksLikeCall
  cases hp : Term.ofText key >>= Predicate.ofTerm with
  | error fault =>
    rw [hp] at hgiven
    exact ofParameters_error hgiven
  | ok p =>
    rw [hp] at hgiven
    exact ofParameters_predicates config table _ [p] hgiven

/-! ## Both ways to write predicates -/

theorem ofParameters_renderTogether (config : Config) (table : Table) (conjunction : Conjunction)
    {ps : List Predicate} (hne : ps ≠ []) (h : ∀ p ∈ ps, p.Printable) :
    ofParameters config table [(renderTogether conjunction ps, "")] =
      .ok { table := table.name
            conjunction
            predicates := ps
            page := { maxRows := config.defaultPageSize } } := by
  have hgroup : (Predicate.group conjunction ps).Printable := Predicate.printable_group_iff.mpr ⟨hne, h⟩
  rw [Predicate.renderTogether_eq_render, ofParameters_call config table (Predicate.isCallKey_render _),
    (Predicate.reads_render_iff _).mpr hgroup]
  rfl

theorem ofParameters_renderEach (config : Config) (table : Table) {ps : List Predicate}
    (hlen : 2 ≤ ps.length) (h : ∀ p ∈ ps, p.Printable) :
    ofParameters config table (ps.map fun p => (p.render, "")) =
      .ok { table := table.name
            conjunction := .and
            predicates := ps
            page := { maxRows := config.defaultPageSize } } := by
  -- a group that does not stand alone stays a group
  have hopen : openGroup ps = (.and, ps) := by
    unfold openGroup
    split
    · simp at hlen
    · rfl
  rw [ofParameters_predicates config table _ ps (given_render config h), hopen]

/-- **Printable predicates are read again from what is written of them**, as one key or as several. -/
theorem ofParameters_render (config : Config) (table : Table) (conjunction : Conjunction)
    (ps : List Predicate) (hne : ps ≠ []) (h : ∀ p ∈ ps, p.Printable) :
    ofParameters config table [(renderTogether conjunction ps, "")] =
        .ok { table := table.name
              conjunction
              predicates := ps
              page := { maxRows := config.defaultPageSize } } ∧
      (2 ≤ ps.length →
        ofParameters config table (ps.map fun p => (p.render, "")) =
          .ok { table := table.name
                conjunction := .and
                predicates := ps
                page := { maxRows := config.defaultPageSize } }) := by
  exact ⟨ofParameters_renderTogether config table conjunction hne h,
    fun hlen => ofParameters_renderEach config table hlen h⟩

/-- A table of which only the name matters. -/
def places : Table where
  name := "places"
  backend := .sql .ansi

/-- A value in quotes, with a comma and a quote in it, beside a group. -/
def nearby : List Predicate :=
  [.compare ⟨.eq, "city", [.ofQuoted "New, \"York\""]⟩,
    .group .or [.compare ⟨.n, "state", []⟩, .compare ⟨.isIn, "rank", [.bare "1", .bare "2"]⟩]]

/-- Quotes, commas and a group come back, under `or` as one key and under `and` as two. -/
theorem ofParameters_render_nearby :
    ofParameters {} places [("or(eq(city,\"New, \\\"York\\\"\"),or(n(state),in(rank,1,2)))", "")] =
        .ok { table := "places", conjunction := .or, predicates := nearby } ∧
      ofParameters {} places
          [("eq(city,\"New, \\\"York\\\"\")", ""), ("or(n(state),in(rank,1,2))", "")] =
        .ok { table := "places", conjunction := .and, predicates := nearby } := by
  have htogether : renderTogether .or nearby =
      "or(eq(city,\"New, \\\"York\\\"\"),or(n(state),in(rank,1,2)))" := by decide
  have hsingly : (nearby.map fun p => (p.render, "")) =
      [("eq(city,\"New, \\\"York\\\"\")", ""), ("or(n(state),in(rank,1,2))", "")] := by decide
  obtain ⟨hone, hseveral⟩ := ofParameters_render {} places .or nearby (by decide) (by decide)
  rw [htogether] at hone
  rw [hsingly] at hseveral
  exact ⟨hone, hseveral (by decide)⟩

/-- **A statement that was read is read again from what is written of its predicates exactly if its
comparisons are plain.** -/
theorem reread_iff (h : ofParameters config table params = .ok s) (hne : s.predicates ≠ []) :
    (∃ again, ofParameters config table [(renderTogether s.conjunction s.predicates, "")] = .ok again ∧
        again.predicates = s.predicates ∧ again.conjunction = s.conjunction) ↔
      ∀ c ∈ s.comparisons, c.IsPlain := by
  have hchecked := checked_of_ofParameters h
  constructor
  · rintro ⟨again, hagain, hpreds, hconj⟩
    rw [Predicate.renderTogether_eq_render,
      ofParameters_call config table (Predicate.isCallKey_render _)] at hagain
    obtain ⟨p, hp, rfl⟩ := map_ok (mapError_ok hagain)
    have hgroup : p = .group s.conjunction s.predicates := by
      -- what is read from the text of a group is a group
      obtain ⟨t, ht, hp⟩ := bind_ok hp
      obtain ⟨args, rfl⟩ := Term.exists_args_of_ofText s.conjunction.isName_token ht
      rcases Predicate.ofTerm_call_ok hp with ⟨c, members, -, -, -, rfl⟩ | ⟨op, hnone, -⟩
      · exact congrArg₂ Predicate.group hconj hpreds
      · rw [Conjunction.ofToken?_token] at hnone
        exact absurd hnone (by simp)
    rw [hgroup] at hp
    exact ((Predicate.reads_render_iff _).mp hp).plain
  · intro hplain
    have hprintable : ∀ p ∈ s.predicates, p.Printable := fun p hp =>
      ⟨(hchecked p hp).wellFormed, Predicate.forall_comparisonsOfMembers.mp hplain p hp⟩
    exact ⟨_, ofParameters_renderTogether config table s.conjunction hne hprintable, rfl, rfl⟩

/-- The first argument of a call is the field, whatever is in its quotes. Without them it is read as two
arguments: the request is accepted, but it is another one. -/
theorem not_reread_quoted_field :
    ofParameters {} places [("in('a,b',c)", "")] =
        .ok { table := "places", predicates := [.compare ⟨.isIn, "a,b", [.bare "c"]⟩] } ∧
      ofParameters {} places [("and(in(a,b,c))", "")] =
        .ok { table := "places", predicates := [.compare ⟨.isIn, "a", [.bare "b", .bare "c"]⟩] } ∧
      ¬ ∃ again, ofParameters {} places [("and(in(a,b,c))", "")] = .ok again ∧
        again.predicates = [.compare ⟨.isIn, "a,b", [.bare "c"]⟩] ∧ again.conjunction = .and := by
  have hread : ofParameters {} places [("in('a,b',c)", "")] =
      .ok { table := "places", predicates := [.compare ⟨.isIn, "a,b", [.bare "c"]⟩] } := by
    have hterm : Term.ofText "in('a,b',c)" =
        .ok (.call "in" [.word (.ofQuoted "a,b"), .word (.bare "c")]) := by with_unfolding_all rfl
    rw [ofParameters_call {} places ⟨by decide, by decide⟩, hterm]
    rfl
  have hagain : ofParameters {} places [("and(in(a,b,c))", "")] =
      .ok { table := "places", predicates := [.compare ⟨.isIn, "a", [.bare "b", .bare "c"]⟩] } := by
    have hterm : Term.ofText "and(in(a,b,c))" =
        .ok (.call "and" [.call "in" [.word (.bare "a"), .word (.bare "b"), .word (.bare "c")]]) := by
      with_unfolding_all rfl
    rw [ofParameters_call {} places ⟨by decide, by decide⟩, hterm]
    rfl
  have htext : renderTogether .and [.compare ⟨.isIn, "a,b", [.bare "c"]⟩] = "and(in(a,b,c))" := by decide
  refine ⟨hread, hagain, fun h => ?_⟩
  rw [← htext] at h
  exact absurd ((reread_iff hread (by simp)).mp h) (by decide)

/-- The value of `field=value` is one value, whatever is in it. Without quotes it is read as two. -/
theorem not_reread_comma :
    ofParameters {} places [("city", "a,b")] =
        .ok { table := "places", predicates := [.compare ⟨.eq, "city", [.bare "a,b"]⟩] } ∧
      renderTogether .and [.compare ⟨.eq, "city", [.bare "a,b"]⟩] = "and(eq(city,a,b))" ∧
      ofParameters {} places [("and(eq(city,a,b))", "")] =
        .error (.malformed (.wrongValueCount .eq "city" 2)) := by
  have hterm : Term.ofText "and(eq(city,a,b))" =
      .ok (.call "and" [.call "eq" [.word (.bare "city"), .word (.bare "a"), .word (.bare "b")]]) := by
    with_unfolding_all rfl
  refine ⟨?_, by decide, ?_⟩
  · exact ofParameters_predicates {} places [("city", "a,b")] [.compare ⟨.eq, "city", [.bare "a,b"]⟩]
      (by with_unfolding_all rfl)
  · rw [ofParameters_call {} places ⟨by decide, by decide⟩, hterm]
    rfl

end Statement

end Rql

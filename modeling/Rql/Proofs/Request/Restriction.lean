import Rql.Proofs.Request.Assurance
import Rql.Proofs.Session.Steps

/-!
# Keys of entities only restrict

A request with keys asks for what its query string asks for, among the rows with these keys. The key
predicate has to hold beside the whole statement, whichever way the predicates of the statement combine:
alternatives are put into one group first (`holds_restrict`). Without that step a row outside of the keys
could come in through one of the alternatives.

Here it matters that alternatives are never empty. Nothing is asked where there are no predicates, but
nothing can satisfy an empty group under `or`. A query string makes no such statement
(`Statement.ne_nil_of_or`).
-/

namespace Rql

/-- **A predicate that is put in front holds beside the statement.** -/
theorem Statement.holds_restrict {s : Statement} (p : Predicate)
    (hor : s.conjunction = .or → s.predicates ≠ []) (v : Comparison → Bool) :
    (s.restrict p).holds v = (p.holds v && s.holds v) := by
  rw [restrict]
  cases hc : s.conjunction with
  | and =>
    show Predicate.holdTogether v .and (p :: s.predicates) = _
    rw [holds, hc, Predicate.holdTogether_and, Predicate.holdTogether_and, List.all_cons]
  | or =>
    have hs : s.holds v = Predicate.holds v (.group .or s.predicates) := by
      rw [holds, hc, Predicate.holdTogether_of_ne_nil v .or (hor hc), Predicate.holds]
    show Predicate.holdTogether v .and [p, .group .or s.predicates] = _
    rw [Predicate.holdTogether_and, hs, List.all_cons, List.all_cons, List.all_nil, Bool.and_true]

/-- `s` asks for those of the rows that `alone` asks for whose `key` is one of the literals. -/
structure Statement.Restricts (s alone : Statement) (key : String) (literals : List Literal) :
    Prop where
  holds : ∀ v : Comparison → Bool, s.holds v = (v ⟨.isIn, key, literals⟩ && alone.holds v)
  order : s.order = alone.order
  page : s.page = alone.page

theorem Statement.restricts_restrict {alone : Statement} {key : String} {literals : List Literal}
    (hor : alone.conjunction = .or → alone.predicates ≠ []) :
    (alone.restrict (.compare ⟨.isIn, key, literals⟩)).Restricts alone key literals where
  holds v := by rw [holds_restrict _ hor, Predicate.holds]
  order := by rw [restrict]; split <;> rfl
  page := by rw [restrict]; split <;> rfl

variable {session : Session} {r : Request} {t : Table} {s : Statement} {keys key : String}

/-- **A request with keys asks for nothing outside of them, and for no less inside.** -/
theorem restricts_of_statement (hkeys : r.keys = some keys) (hblank : Text.allBlank keys = false)
    (hkey : t.keyColumns = [key]) (h : session.statement r = .ok (t, s)) :
    ∃ alone pieces literals, QueryString.statement session.config t r.query = .ok alone
      ∧ Term.arguments keys.toList = .ok pieces
      ∧ List.Forall₂ (fun piece l => Literal.ofTrimmed piece = .ok l) pieces literals
      ∧ s.Restricts alone key literals := by
  have hsignificant : r.significantKeys = some keys := by
    rw [Request.significantKeys, hkeys]
    exact Option.filter_eq_some_iff.mpr ⟨rfl, by rw [hblank]; rfl⟩
  obtain ⟨alone, halone, hs⟩ := Session.statementOn_ok (Session.statement_ok h).2
  obtain ⟨params, hparams⟩ := ofParameters_of_queryString halone
  rcases hs with ⟨hnone, -⟩ | ⟨keys', p, hsome, hp, rfl⟩
  · exact absurd (hsignificant.symm.trans hnone) (by simp)
  · obtain rfl := Option.some.inj (hsignificant.symm.trans hsome)
    obtain ⟨key', pieces, literals, hkey', hpieces, hliterals, c, hc, rfl⟩ := Table.keyPredicate_ok hp
    obtain rfl : key' = key := List.head_eq_of_cons_eq (hkey'.symm.trans hkey)
    obtain ⟨rfl, -, -⟩ := Predicate.make_ok hc
    exact ⟨alone, pieces, literals, halone, hpieces, forall₂_of_mapM hliterals fun _ _ _ => id,
      Statement.restricts_restrict (Statement.ne_nil_of_or hparams)⟩

/-- The second page of the alternatives, best rank first. -/
def ranked : Request where
  table := "players"
  query := "or(sw(club.name,Fen),gt(rank,5))&order=-rank&page=2"
  keys := some " 7 ,'a,b'"

/-- The same as a statement, with the keys in front of the group of alternatives. -/
def rankedAmongKeys : Statement where
  table := "players"
  predicates := [
    .compare ⟨.isIn, "id", [.bare "7", .ofQuoted "a,b"]⟩,
    .group .or [.compare ⟨.sw, "club.name", [.bare "Fen"]⟩, .compare ⟨.gt, "rank", [.bare "5"]⟩]]
  order := [⟨"rank", .desc⟩]
  page := { offset := 100 }

theorem restricts_ranked :
    Text.allBlank " 7 ,'a,b'" = false ∧ players.keyColumns = ["id"]
      ∧ (Session.new {} ⟨[players]⟩).statement ranked = .ok (players, rankedAmongKeys)
      ∧ ∃ alone pieces literals, QueryString.statement {} players ranked.query = .ok alone
        ∧ Term.arguments " 7 ,'a,b'".toList = .ok pieces
        ∧ List.Forall₂ (fun piece l => Literal.ofTrimmed piece = .ok l) pieces literals
        ∧ rankedAmongKeys.Restricts alone "id" literals := by
  have hstatement :
      (Session.new {} ⟨[players]⟩).statement ranked = .ok (players, rankedAmongKeys) :=
    ok_of_toOption (by decide +kernel)
  have hblank : Text.allBlank " 7 ,'a,b'" = false := by decide +kernel
  have hrestricts := restricts_of_statement (r := ranked) rfl hblank rfl hstatement
  exact ⟨hblank, rfl, hstatement, hrestricts⟩

end Rql

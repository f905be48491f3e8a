import Rql.Proofs.Outcome
import Rql.Session.Basic

/-!
# What a request went through

One lemma for each step that a session takes with a request: the table is found, the query string is
read, and where there are keys their predicate is built and put in front (`statement_ok`). Compiling and
explaining begin with the same steps (`asked`) and part only behind them.
-/

namespace Rql

/-- What a list of keys went through: it has its pieces, each piece is a literal, and the literals are
compared with the one key column. -/
theorem Table.keyPredicate_ok {t : Table} {keys : String} {p : Predicate}
    (h : t.keyPredicate keys = .ok p) :
    ∃ key pieces literals, t.keyColumns = [key]
      ∧ Term.arguments keys.toList = .ok pieces ∧ pieces.mapM Literal.ofTrimmed = .ok literals
      ∧ ∃ c, Comparison.make .isIn key literals = .ok c ∧ p = .compare c := by
  rw [keyPredicate] at h
  split at h
  · next key hkey =>
    obtain ⟨literals, hliterals, h⟩ := bind_ok (mapError_ok h)
    obtain ⟨pieces, hpieces, hliterals⟩ := bind_ok hliterals
    obtain ⟨c, hc, h⟩ := bind_ok h
    exact ⟨key, pieces, literals, hkey, hpieces, hliterals, c, hc, (Except.ok.inj h).symm⟩
  · exact absurd h (by simp)

namespace Session

variable {s : Session} {r : Request} {t : Table} {statement : Statement}

theorem statement_ok (h : s.statement r = .ok (t, statement)) :
    s.table r.table = .ok t ∧ s.statementOn t r = .ok statement := by
  obtain ⟨t', ht, h⟩ := bind_ok h
  split at h
  · next statement' hstatement =>
    obtain ⟨rfl, rfl⟩ := Prod.mk.inj (Except.ok.inj h)
    exact ⟨ht, hstatement⟩
  · exact absurd h throw_ne_ok

/-- The query string is read whether there are keys or not. -/
theorem statementOn_ok (h : s.statementOn t r = .ok statement) :
    ∃ plain, QueryString.statement s.config t r.query = .ok plain
      ∧ ((r.significantKeys = none ∧ statement = plain)
        ∨ ∃ keys p, r.significantKeys = some keys ∧ t.keyPredicate keys = .ok p
          ∧ statement = plain.restrict p) := by
  obtain ⟨plain, hplain, h⟩ := bind_ok h
  refine ⟨plain, hplain, ?_⟩
  split at h
  · next hkeys => exact .inl ⟨hkeys, (Except.ok.inj h).symm⟩
  · next keys hkeys =>
    obtain ⟨p, hp, h⟩ := bind_ok h
    exact .inr ⟨keys, p, hkeys, hp, (Except.ok.inj h).symm⟩

theorem table_ok {name : String} (h : s.table name = .ok t) : s.catalog.find? name = some t := by
  rw [table] at h
  split at h
  · next ht => rw [ht, Except.ok.inj h]
  · exact absurd h (by simp)

/-! ## Lines -/

/-- The table and the statement that a line asks for. -/
def asked (s : Session) (line : String) : Except Failure (Table × Statement) := do
  s.statement (← Request.ofLine line)

variable {line : String}

theorem asked_ok (h : s.asked line = .ok (t, statement)) :
    ∃ r, Request.ofLine line = .ok r ∧ s.catalog.find? r.table = some t := by
  obtain ⟨r, hr, h⟩ := bind_ok h
  exact ⟨r, hr, table_ok (statement_ok h).1⟩

theorem compileLine_eq (s : Session) (line : String) :
    s.compileLine line = (s.asked line >>= fun (t, statement) =>
      (s.registry.compile t statement).mapError .ofError) := by
  rw [compileLine, asked, bind_assoc]

theorem planLine_eq (s : Session) (line : String) :
    s.planLine line = (s.asked line >>= fun (t, statement) =>
      explainable t >>= fun _ =>
        .ok (Partition.Plan.ofStatement s.config.wildcard t statement)) := by
  rw [planLine, asked, bind_assoc]
  rfl

end Session

end Rql

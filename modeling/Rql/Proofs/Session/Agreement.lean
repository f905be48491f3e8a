import Rql.Proofs.Partition.Accounting
import Rql.Proofs.Session.Steps

/-!
# Explaining agrees with compiling

The two commands get at a plan by different ways. Compiling asks the registry for the compiler of the
backend, which was put there when the session was opened (`find?_standard`); explaining plans by itself,
with the glyph of the settings. And they part at different places of the pipeline: a refusal by the planner
fails the one and is what the other explains.

`Agree` sets the two answers to one line side by side, and `agree_of_partitionKey` says that they belong
together for every line about a partition table, whatever the settings, the tables and the line.
-/

namespace Rql

namespace Registry

/-! ## Finding a compiler -/

theorem find?_register (r : Registry) (c : Compiler) (b : Backend) :
    (r.register c).find? b = if c.backend = b then some c else r.find? b := by
  rw [find?, register, List.find?_cons]
  by_cases hc : c.backend = b
  · rw [decide_eq_true hc, if_pos hc]
  · rw [decide_eq_false hc, if_neg hc, find?]
    show List.find? _ (r.compilers.filter _) = _
    rw [List.find?_filter]
    congr 1
    funext other
    by_cases ho : other.backend = b
    · simp [ho, Ne.symm hc]
    · simp [ho]

/-- Registering a compiler for each of some backends. The last one for a backend counts, so it does not
matter that all of them are of one family. -/
theorem find?_foldl_register {f : Backend → Compiler} (hf : ∀ b, (f b).backend = b) (b : Backend) :
    ∀ (backends : List Backend) (r : Registry),
      ((backends.map f).foldl register r).find? b = if b ∈ backends then some (f b) else r.find? b := by
  intro backends
  induction backends with
  | nil => intro r; rw [if_neg List.not_mem_nil]; rfl
  | cons first rest ih =>
    intro r
    rw [List.map_cons, List.foldl_cons, ih, find?_register, hf]
    by_cases hrest : b ∈ rest
    · rw [if_pos hrest, if_pos (List.mem_cons_of_mem first hrest)]
    · rw [if_neg hrest]
      by_cases hb : first = b
      · rw [if_pos hb, if_pos (List.mem_cons.mpr (.inl hb.symm)), hb]
      · rw [if_neg hb, if_neg (List.not_mem_cons_of_ne_of_not_mem (Ne.symm hb) hrest)]

theorem mem_backends (b : Backend) : b ∈ backends := by
  cases b with
  | sql dialect => cases dialect <;> decide
  | partitionKey => decide
  | search => decide

theorem backend_forBackend (wildcard : Char) (identityField : String) (b : Backend) :
    (Compiler.forBackend wildcard identityField b).backend = b := by
  cases b <;> rfl

/-- **The standard registry knows every backend, with the settings it was made from.** -/
theorem find?_standard (config : Config) (b : Backend) :
    (standard config).find? b = some (.forBackend config.wildcard config.identityField b) := by
  rw [standard, find?_foldl_register (backend_forBackend _ _), if_pos (mem_backends b)]

theorem compile_standard (config : Config) (t : Table) (s : Statement) :
    (standard config).compile t s =
      (Compiler.forBackend config.wildcard config.identityField t.backend).compile t s := by
  rw [compile, find?_standard]

end Registry

/-- What is said of a refusal, in full. -/
theorem Partition.Explanation.render_ofError (e : Error) :
    (ofError e).render =
      "plan: rejected\n  code     " ++ e.code ++ "\n  reason   " ++ e.message ++ "\n" := by
  have hcode : "code".length = 4 := rfl
  have hreason : "reason".length = 6 := rfl
  apply String.toList_inj.mp
  simp [render, ofError, renderRow, Label.word, labelWidth, Text.join, hcode, hreason,
    List.replicate_succ]

namespace Session

/-- The answers of a session to one line, to be compiled and to be explained. -/
structure Agree (s : Session) (line : String) : Prop where
  /-- A plan that is compiled is the plan that is explained. -/
  planned : ∀ p, s.compileLine line = .ok (.keyCondition p) →
    s.answerCompile line = .ok (.object [("kind", .string "key_condition"), ("query", p.toJson)])
      ∧ s.answerExplain line = .ok (.object [
          ("accepted", .bool true),
          ("plan", p.toJson),
          ("explain", .string (Partition.Explanation.ofPlan p).render)])
  /-- What the planner refuses is explained with code and message of the refusal. -/
  refused : ∀ t statement e, s.asked line = .ok (t, statement) →
    s.registry.compile t statement = .error e →
    s.answerCompile line = .error ⟨e.code, e.message⟩
      ∧ s.answerExplain line = .ok (.object [
          ("accepted", .bool false),
          ("plan", .null),
          ("explain", .string
            ("plan: rejected\n  code     " ++ e.code ++ "\n  reason   " ++ e.message ++ "\n"))])
  /-- What fails before there is a statement fails both in the same way. -/
  failed : ∀ f, s.asked line = .error f →
    s.answerCompile line = .error f ∧ s.answerExplain line = .error f
  /-- There is no other case. -/
  complete : (∃ p, s.compileLine line = .ok (.keyCondition p))
    ∨ (∃ t statement e, s.asked line = .ok (t, statement)
        ∧ s.registry.compile t statement = .error e)
    ∨ ∃ f, s.asked line = .error f

variable {s : Session} {line : String} {t : Table} {statement : Statement}

theorem compileLine_of_asked (h : s.asked line = .ok (t, statement)) :
    s.compileLine line = (s.registry.compile t statement).mapError .ofError := by
  rw [compileLine_eq, h]
  rfl

/-- On a partition table explaining always comes to the planner. -/
theorem planLine_of_asked (h : s.asked line = .ok (t, statement)) (ht : t.backend = .partitionKey) :
    s.planLine line = .ok (Partition.Plan.ofStatement s.config.wildcard t statement) := by
  rw [planLine_eq, h]
  show (explainable t >>= fun _ => _) = _
  rw [explainable, if_pos ht]
  rfl

/-- Both commands fail with what the common steps fail with. -/
theorem agree_of_failed {f : Failure} (h : s.asked line = .error f) : s.Agree line := by
  have hcompile : s.compileLine line = .error f := by rw [compileLine_eq, h]; rfl
  have hplan : s.planLine line = .error f := by rw [planLine_eq, h]; rfl
  refine ⟨fun p hp => ?_, fun t statement e he => ?_, fun f' hf => ?_, .inr (.inr ⟨f, h⟩)⟩
  · exact absurd (hcompile.symm.trans hp) (by simp)
  · exact absurd (h.symm.trans he) (by simp)
  · obtain rfl := Except.error.inj (h.symm.trans hf)
    rw [answerCompile, answerExplain, hcompile, hplan]
    exact ⟨rfl, rfl⟩

/-- Behind the common steps one planner decides both answers, if the registry has it. -/
theorem agree_of_asked (h : s.asked line = .ok (t, statement)) (ht : t.backend = .partitionKey)
    (hregistry : s.registry.compile t statement =
      (Partition.Plan.ofStatement s.config.wildcard t statement).map .keyCondition) :
    s.Agree line := by
  have hcompile := compileLine_of_asked h
  have hplan := planLine_of_asked h ht
  cases hp : Partition.Plan.ofStatement s.config.wildcard t statement with
  | ok p =>
    rw [hp] at hplan hregistry
    rw [hregistry] at hcompile
    refine ⟨fun p' hp' => ?_, fun t' statement' e hasked he => ?_, fun f hf => ?_, .inl ⟨p, hcompile⟩⟩
    · obtain rfl := Compiled.keyCondition.inj (Except.ok.inj (hcompile.symm.trans hp'))
      rw [answerCompile, answerExplain, hcompile, hplan]
      exact ⟨rfl, rfl⟩
    · obtain ⟨rfl, rfl⟩ := Prod.mk.inj (Except.ok.inj (h.symm.trans hasked))
      exact absurd (hregistry.symm.trans he) (by simp [Except.map])
    · exact absurd (h.symm.trans hf) (by simp)
  | error e =>
    rw [hp] at hplan hregistry
    rw [hregistry] at hcompile
    refine ⟨fun p' hp' => ?_, fun t' statement' e' hasked he => ?_, fun f hf => ?_,
      .inr (.inl ⟨t, statement, e, h, hregistry⟩)⟩
    · exact absurd (hcompile.symm.trans hp') (by simp [Except.map, Except.mapError])
    · obtain ⟨rfl, rfl⟩ := Prod.mk.inj (Except.ok.inj (h.symm.trans hasked))
      obtain rfl := Except.error.inj (hregistry.symm.trans he)
      rw [answerCompile, answerExplain, hcompile, hplan, ← Partition.Explanation.render_ofError]
      exact ⟨rfl, rfl⟩
    · exact absurd (h.symm.trans hf) (by simp)

/-- **On a partition table explaining agrees with compiling**, whatever the settings and the tables. -/
theorem agree_of_partitionKey (config : Config) (catalog : Catalog) (line : String)
    (h : ∀ r t, Request.ofLine line = .ok r → catalog.find? r.table = some t →
      t.backend = .partitionKey) :
    (new config catalog).Agree line := by
  cases hasked : (new config catalog).asked line with
  | error f => exact agree_of_failed hasked
  | ok found =>
    obtain ⟨t, statement⟩ := found
    obtain ⟨r, hr, hfind⟩ := asked_ok hasked
    have ht := h r t hr hfind
    refine agree_of_asked hasked ht ?_
    show (Registry.standard config).compile t statement = _
    rw [Registry.compile_standard, ht]
    rfl

/-- A request for an order that a scan cannot give. -/
def byColor : String :=
  "\x7b\"table\": \"Orders\", \"query\": \"eq(color,red)&order=color\"\x7d"

/-- The same as a statement. -/
def redByColor : Statement where
  table := "orders"
  predicates := [.compare ⟨.eq, "color", [.bare "red"]⟩]
  order := [⟨"color", .asc⟩]

/-- The line comes as far as the planner, which refuses it. -/
theorem agree_byColor :
    (∀ r t, Request.ofLine byColor = .ok r →
        (⟨[Partition.orders]⟩ : Catalog).find? r.table = some t → t.backend = .partitionKey)
      ∧ (new {} ⟨[Partition.orders]⟩).asked byColor = .ok (Partition.orders, redByColor)
      ∧ Partition.Plan.ofStatement '*' Partition.orders redByColor
          = .error (.unsupportedSort "color" .scan)
      ∧ (new {} ⟨[Partition.orders]⟩).Agree byColor := by
  have hbackend : ∀ r t, Request.ofLine byColor = .ok r →
      (⟨[Partition.orders]⟩ : Catalog).find? r.table = some t → t.backend = .partitionKey := by
    intro r t _ hfind
    have ht : t = Partition.orders := List.mem_singleton.mp (List.mem_of_find?_eq_some hfind)
    rw [ht]
    rfl
  have hasked : (new {} ⟨[Partition.orders]⟩).asked byColor = .ok (Partition.orders, redByColor) :=
    ok_of_toOption (by decide +kernel)
  exact ⟨hbackend, hasked, rfl, agree_of_partitionKey {} _ byColor hbackend⟩

end Session

end Rql

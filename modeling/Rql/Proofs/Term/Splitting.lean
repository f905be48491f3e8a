import Rql.Proofs.Session.Steps
import Rql.Proofs.Term.Rendering
import Rql.Proofs.Text.Cuts

/-!
# Splitting again what was split

An argument list falls into its arguments, and nothing is left to be done with these: each of them is an
argument list of one, and with commas between them they are an argument list of all. `IsArgument` is what
carries this. It asks that the scan, from where every argument starts, comes out behind the argument outside
of quotes and parentheses. A piece of a list has this by itself (`piecesFrom_ok`), and it keeps it without its
margins, because blanks never lead out of a quote (`Scan.eq_of_pass?_blank`).

A literal is written as such an argument (`isArgument_render`), and taking the quotes off gives it back
(`ofTrimmed_render`). So lists of literals that are written survive the splitting whatever they hold, and
these are the literals that entity keys stand for.
-/

namespace Rql.Term

open Text (Blank Trimmed isBlank)

/-- A text without margins that the scan passes as one argument. -/
structure IsArgument (cs : List Char) : Prop where
  trimmed : Trimmed cs
  passes : Scan.start.pass? cs = some (.text 0 false)

namespace Scan

/-- Where the scan is between quotes, these are quotes. -/
def Genuine : Scan → Prop
  | .text .. => True
  | .quoted _ quote _ => isQuote quote = true

theorem Genuine.step {scan next : Scan} {c : Char} (h : scan.Genuine)
    (hstep : scan.step c = .ok (.inside next)) : next.Genuine := by
  cases scan with
  | quoted depth quote escaped =>
    cases escaped with
    | true =>
      obtain rfl := Step.inside.inj (Except.ok.inj hstep)
      exact h
    | false =>
      rw [Scan.step] at hstep
      split at hstep
      · obtain rfl := Step.inside.inj (Except.ok.inj hstep)
        exact h
      · split at hstep
        · obtain rfl := Step.inside.inj (Except.ok.inj hstep)
          trivial
        · obtain rfl := Step.inside.inj (Except.ok.inj hstep)
          exact h
  | text depth fresh =>
    by_cases hq : (isQuote c && fresh) = true
    · rw [Scan.step, if_pos hq] at hstep
      obtain rfl := Step.inside.inj (Except.ok.inj hstep)
      exact (Bool.and_eq_true_iff.mp hq).1
    · -- no quote opens, so the scan stays outside of quotes
      rw [Scan.step, if_neg hq] at hstep
      cases next with
      | text depth' fresh' => trivial
      | quoted depth' quote escaped =>
        exfalso
        repeat' split at hstep
        all_goals exact absurd hstep (by simp)

theorem Genuine.pass? {scan next : Scan} {cs : List Char} (h : scan.Genuine)
    (hpass : scan.pass? cs = some next) : next.Genuine := by
  induction cs generalizing scan with
  | nil => rwa [← Option.some.inj hpass]
  | cons c cs ih =>
    rw [Scan.pass?] at hpass
    split at hpass
    · next hstep => exact ih (h.step hstep) hpass
    · exact absurd hpass (by simp)

/-- Blanks do not lead out of quotes, so what was reached behind them was reached before them. -/
theorem Genuine.eq_of_pass?_blank {scan : Scan} {cs : List Char} {depth : Nat} {fresh : Bool}
    (h : scan.Genuine) (hb : Blank cs) (hpass : scan.pass? cs = some (.text depth fresh)) :
    scan = .text depth fresh := by
  induction cs generalizing scan with
  | nil => exact Option.some.inj hpass
  | cons c cs ih =>
    have hc : isBlank c = true := hb c List.mem_cons_self
    have hcs : Blank cs := fun d hd => hb d (List.mem_cons_of_mem c hd)
    cases scan with
    | text d f =>
      rw [pass?_blank hb] at hpass
      exact Option.some.inj hpass
    | quoted d quote escaped =>
      exfalso
      cases escaped with
      | true =>
        -- what the backslash escapes is passed, and the quote stays open
        rw [pass?_cons step_escaped] at hpass
        exact absurd (ih (by exact h) hcs hpass) (by simp)
      | false =>
        have hquote : c ≠ quote := by
          rintro rfl
          exact Bool.false_ne_true ((isBlank_of_isQuote h).symm.trans hc)
        by_cases hback : c = '\\'
        · rw [hback] at hc
          exact absurd hc (by decide)
        · rw [pass?_cons (step_inside hback hquote)] at hpass
          exact absurd (ih (by exact h) hcs hpass) (by simp)

end Scan

/-! ## Arguments -/

theorem IsArgument.ne_nil {cs : List Char} (h : IsArgument cs) : cs ≠ [] := by
  rintro rfl
  exact absurd h.passes (by decide)

/-- **What passes as one argument does so without its margins.** -/
theorem isArgument_trim {cs : List Char} (h : Scan.start.pass? cs = some (.text 0 false)) :
    IsArgument (Text.trim cs) := by
  obtain ⟨before, after, hbefore, hafter, hcs⟩ := Text.exists_padded cs
  refine ⟨Text.trimmed_trim cs, ?_⟩
  -- the margin in front leaves the scan where it starts
  rw [hcs, List.append_assoc, Scan.start, Scan.pass?_append (Scan.pass?_blank hbefore 0 true)] at h
  obtain ⟨mid, hmid⟩ := Scan.exists_pass?_of_append h
  rw [Scan.pass?_append hmid] at h
  have hstart : (Scan.text 0 true).Genuine := trivial
  rw [Scan.start, hmid, (hstart.pass? hmid).eq_of_pass?_blank hafter h]

/-- **The pieces of an argument list are arguments**, once they are trimmed. -/
theorem isArgument_of_piecesFrom {cs : List Char} {pieces : List (List Char)}
    (h : piecesFrom .start cs = .ok pieces) : ∀ piece ∈ pieces, IsArgument (Text.trim piece) := by
  induction pieces generalizing cs with
  | nil => exact fun _ hp => absurd hp List.not_mem_nil
  | cons piece pieces ih =>
    obtain ⟨first, rest, heq, hpass, hcs⟩ := piecesFrom_ok h
    obtain ⟨rfl, rfl⟩ := List.cons.inj heq
    intro p hp
    rcases List.mem_cons.mp hp with rfl | hp
    · exact isArgument_trim hpass
    · rcases hcs with ⟨-, rfl⟩ | ⟨behind, -, hbehind⟩
      · exact absurd hp List.not_mem_nil
      · exact ih hbehind p hp

/-- With commas between them, texts that pass are the pieces. -/
theorem piecesFrom_intercalate {cs : List Char} {rest : List (List Char)}
    (h : ∀ arg ∈ cs :: rest, Scan.start.pass? arg = some (.text 0 false)) :
    piecesFrom .start ([','].intercalate (cs :: rest)) = .ok (cs :: rest) := by
  induction rest generalizing cs with
  | nil =>
    have hend : piecesFrom (.text 0 false) [] = .ok [[]] := rfl
    have hall := piecesFrom_append (h cs List.mem_cons_self) hend
    rw [List.append_nil] at hall
    rwa [List.intercalate_singleton]
  | cons next rest ih =>
    have hrest := ih fun arg harg => h arg (List.mem_cons_of_mem cs harg)
    -- behind the first text the scan is outside of everything, so the comma cuts
    have hcut : piecesFrom (.text 0 false) (',' :: [','].intercalate (next :: rest))
        = .ok ([] :: next :: rest) := by
      rw [piecesFrom, Scan.step_cut]
      simp only [hrest]
      rfl
    have hall := piecesFrom_append (h cs List.mem_cons_self) hcut
    rwa [List.append_nil] at hall

theorem arguments_intercalate {args : List (List Char)} (hne : args ≠ [])
    (h : ∀ arg ∈ args, IsArgument arg) : arguments ([','].intercalate args) = .ok args := by
  obtain ⟨cs, rest, rfl⟩ := List.exists_cons_of_ne_nil hne
  rw [arguments_eq (piecesFrom_intercalate fun arg harg => (h arg harg).passes),
    Text.map_trim_eq_self fun arg harg => (h arg harg).trimmed]

/-! ## Argument lists as strings -/

theorem isArgument_of_splitArguments {s : String} {args : List String}
    (h : splitArguments s = .ok args) : args ≠ [] ∧ ∀ arg ∈ args, IsArgument arg.toList := by
  obtain ⟨texts, htexts, rfl⟩ := map_ok h
  obtain ⟨pieces, hpieces, rfl⟩ := arguments_ok htexts
  constructor
  · obtain ⟨first, rest, rfl, -⟩ := piecesFrom_ok hpieces
    exact List.cons_ne_nil _ _
  · intro arg harg
    obtain ⟨text, htext, rfl⟩ := List.mem_map.mp harg
    obtain ⟨piece, hpiece, rfl⟩ := List.mem_map.mp htext
    rw [String.toList_ofList]
    exact isArgument_of_piecesFrom hpieces piece hpiece

theorem arguments_toList_join {args : List String} (hne : args ≠ [])
    (h : ∀ arg ∈ args, IsArgument arg.toList) :
    arguments (Text.join "," args).toList = .ok (args.map String.toList) := by
  rw [Text.toList_join_comma]
  refine arguments_intercalate (by simpa using hne) fun text htext => ?_
  obtain ⟨arg, harg, rfl⟩ := List.mem_map.mp htext
  exact h arg harg

/-- **Arguments with commas between them fall into these arguments.** -/
theorem splitArguments_join {args : List String} (hne : args ≠ [])
    (h : ∀ arg ∈ args, IsArgument arg.toList) : splitArguments (Text.join "," args) = .ok args := by
  have hback : (args.map String.toList).map String.ofList = args := by
    rw [List.map_map]
    exact (List.map_congr_left fun _ _ => String.ofList_toList).trans (List.map_id args)
  rw [splitArguments, arguments_toList_join hne h]
  exact congrArg Except.ok hback

/-! ## Literals -/

theorem isArgument_render {l : Literal} (h : HasNotation .argument (.word l)) :
    IsArgument l.render.toList :=
  ⟨(exact_render_word h).trimmed, Scan.pass?_of_exact (exact_render_word h)⟩

theorem ofTrimmed_bare {place : Place} {cs : List Char} (h : Bare place cs) :
    Literal.ofTrimmed cs = .ok (.bare (.ofList cs)) := by
  obtain ⟨c, rest, rfl⟩ := List.exists_cons_of_ne_nil h.ne_nil
  have hc : isQuote c = false := h.unquoted c rfl
  rw [Literal.ofTrimmed, hc]
  rfl

theorem ofTrimmed_quoted {quote : Char} {inside text : List Char} (hq : isQuote quote = true)
    (h : Quoted quote inside text) :
    Literal.ofTrimmed (quote :: (inside ++ [quote])) = .ok (.ofQuoted (.ofList text)) := by
  rw [Literal.ofTrimmed, if_pos hq, unquote?_append (ne_backslash_of_isQuote hq) h]

/-- **Taking the quotes off gives back the literal that was written.** -/
theorem ofTrimmed_render {place : Place} {l : Literal} (h : HasNotation place (.word l)) :
    Literal.ofTrimmed l.render.toList = .ok l := by
  cases l with
  | mk text quoted =>
    cases quoted with
    | true =>
      rw [toList_render_quoted rfl, ofTrimmed_quoted (by decide) (quoted_escape text.toList),
        String.ofList_toList]
      rfl
    | false =>
      rw [toList_render_bare rfl, ofTrimmed_bare (h rfl), String.ofList_toList]
      rfl

theorem ofText_render_literal {place : Place} {l : Literal} (h : HasNotation place (.word l)) :
    Literal.ofText l.render = .ok l := by
  rw [Literal.ofText, Text.trim_eq_self (exact_render_word h).trimmed, ofTrimmed_render h]

/-- The literal is quoted, or it is a word that needs no quotes among others. -/
def IsListed (l : Literal) : Prop :=
  l.quoted = true ∨ Bare .argument l.text.toList

instance (l : Literal) : Decidable (IsListed l) :=
  inferInstanceAs (Decidable (_ ∨ _))

theorem IsListed.hasNotation {l : Literal} (h : IsListed l) : HasNotation .argument (.word l) := by
  intro hquoted
  exact h.resolve_left (by rw [hquoted]; exact Bool.false_ne_true)

/-- Literals as they are written in a list. -/
def renderLiterals (ls : List Literal) : String :=
  Text.join "," (ls.map Literal.render)

theorem isArgument_of_mem_map_render {ls : List Literal} (h : ∀ l ∈ ls, IsListed l) :
    ∀ arg ∈ ls.map Literal.render, IsArgument arg.toList := by
  intro arg harg
  obtain ⟨l, hl, rfl⟩ := List.mem_map.mp harg
  exact isArgument_render (h l hl).hasNotation

end Rql.Term

namespace Rql.Table

variable {t : Table} {keys : String} {ls : List Literal} {p : Predicate}

/-- The literals of a list of keys that was written. -/
theorem keyLiterals_renderLiterals (hne : ls ≠ []) (h : ∀ l ∈ ls, Term.IsListed l) :
    keyLiterals (Term.renderLiterals ls) = .ok ls := by
  have hread : ((ls.map Literal.render).map String.toList).mapM Literal.ofTrimmed = .ok ls := by
    rw [List.map_map, List.mapM_map]
    exact mapM_eq_self fun l hl => Term.ofTrimmed_render (h l hl).hasNotation
  rw [keyLiterals, Term.renderLiterals, Term.arguments_toList_join (by simpa using hne)
    (Term.isArgument_of_mem_map_render h)]
  exact hread

/-- A table takes keys exactly if it has one key column, and this one has a name. -/
theorem keyPredicate_ok_iff (h : keyLiterals keys = .ok ls) (hne : ls ≠ []) :
    t.keyPredicate keys = .ok p ↔
      ∃ key, t.keyColumns = [key] ∧ key ≠ "" ∧ p = .compare ⟨.isIn, key, ls⟩ := by
  have hcount : Operator.isIn.arity.accepts ls.length = true :=
    decide_eq_true (List.length_pos_iff.mpr hne)
  have hmake (key : String) (hkey : key ≠ "") :
      Comparison.make .isIn key ls = .ok ⟨.isIn, key, ls⟩ := by
    rw [Comparison.make, if_neg hkey, if_pos hcount]
  constructor
  · intro hp
    obtain ⟨key, pieces, literals, hkeys, hpieces, hliterals, c, hc, rfl⟩ := keyPredicate_ok hp
    have hread : keyLiterals keys = .ok literals := by rw [keyLiterals, hpieces]; exact hliterals
    obtain rfl := Except.ok.inj (h.symm.trans hread)
    have hkey : key ≠ "" := by
      rintro rfl
      exact absurd hc (by simp [Comparison.make])
    rw [hmake key hkey] at hc
    exact ⟨key, hkeys, hkey, congrArg Predicate.compare (Except.ok.inj hc).symm⟩
  · rintro ⟨key, hkeys, hkey, rfl⟩
    rw [keyPredicate, hkeys, h]
    show (Comparison.make .isIn key ls >>= fun c => pure (Predicate.compare c)).mapError
      Error.malformed = _
    rw [hmake key hkey]
    rfl

end Rql.Table

namespace Rql.Term

/-- **Argument lists fall into arguments once and for all**, and written literals into themselves. -/
theorem splitArguments_settles :
    (∀ s args, splitArguments s = .ok args →
      args ≠ []
        ∧ (∀ arg ∈ args, arg ≠ "" ∧ Text.Trimmed arg.toList ∧ splitArguments arg = .ok [arg])
        ∧ splitArguments (Text.join "," args) = .ok args)
      ∧ ∀ ls : List Literal, ls ≠ [] → (∀ l ∈ ls, IsListed l) →
        (∃ pieces, splitArguments (renderLiterals ls) = .ok pieces
          ∧ pieces.mapM Literal.ofText = .ok ls)
        ∧ ∀ t p, Table.keyPredicate t (renderLiterals ls) = .ok p ↔
            ∃ key, t.keyColumns = [key] ∧ key ≠ "" ∧ p = .compare ⟨.isIn, key, ls⟩ := by
  constructor
  · intro s args h
    obtain ⟨hne, hargs⟩ := isArgument_of_splitArguments h
    refine ⟨hne, fun arg harg => ?_, splitArguments_join hne hargs⟩
    have halone : splitArguments (Text.join "," [arg]) = .ok [arg] :=
      splitArguments_join (List.cons_ne_nil arg []) (List.forall_mem_singleton.mpr (hargs arg harg))
    refine ⟨?_, (hargs arg harg).trimmed, halone⟩
    rintro rfl
    exact (hargs "" harg).ne_nil rfl
  · intro ls hne hls
    have hargs := isArgument_of_mem_map_render hls
    refine ⟨⟨ls.map Literal.render, splitArguments_join (by simpa using hne) hargs, ?_⟩, fun t p => ?_⟩
    · rw [List.mapM_map]
      exact mapM_eq_self fun l hl => ofText_render_literal (hls l hl).hasNotation
    · exact Table.keyPredicate_ok_iff (Table.keyLiterals_renderLiterals hne hls) hne

/-- A list with margins of several kinds, and with commas that cut nothing. -/
def rugged : String := " f(a, '),'),\tO'Brien ,\u3000'it\\'s, (' "

/-- A quoted literal with everything that might end it, and a word with a quote inside. -/
def listed : List Literal := [.ofQuoted "a\"),\\ '", .bare "O'Brien 2"]

/-- A table with one key. -/
def crates : Table where
  name := "crates"
  backend := .search
  columns := [.key "id" "text"]

theorem splitArguments_rugged :
    splitArguments rugged = .ok ["f(a, '),')", "O'Brien", "'it\\'s, ('"]
      ∧ splitArguments "f(a, '),'),O'Brien,'it\\'s, ('" = .ok ["f(a, '),')", "O'Brien", "'it\\'s, ('"]
      ∧ renderLiterals listed = "\"a\\\"),\\\\ '\",O'Brien 2"
      ∧ crates.keyPredicate (renderLiterals listed) = .ok (.compare ⟨.isIn, "id", listed⟩) := by
  have hsplit : splitArguments rugged = .ok ["f(a, '),')", "O'Brien", "'it\\'s, ('"] := by
    with_unfolding_all rfl
  have hlisted : ∀ l ∈ listed, IsListed l := by decide
  have hliterals := splitArguments_settles.2 listed (List.cons_ne_nil _ _) hlisted
  exact ⟨hsplit, (splitArguments_settles.1 _ _ hsplit).2.2, by decide,
    (hliterals.2 crates _).mpr ⟨"id", rfl, by decide, rfl⟩⟩

end Rql.Term

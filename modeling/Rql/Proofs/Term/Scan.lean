import Rql.Proofs.Outcome
import Rql.Proofs.Term.Grammar

/-!
# Scanning what the grammar derives

Where a scan of an argument list may cut, told from both sides.

`Scan.pass? scan cs` says where the scan stands behind `cs`, if no argument ends in there and nothing is
wrong. A notation of a term passes (`pass?_of_padded`): however deep it lies and whatever commas,
parentheses and quotes it holds, the scan comes out at the depth it went in, and at no place where an
argument may begin. So of an argument list with the grammar's commas the scan makes the pieces between
them (`piecesFrom_append`).

In the other direction, every piece passes, and the pieces with commas between them are the list
(`piecesFrom_ok`).
-/

namespace Rql.Term

open Text (Blank Trimmed isBlank)

/-- Where the scan stands behind a text in which no argument ends. -/
def Scan.pass? : Scan → List Char → Option Scan
  | scan, [] => some scan
  | scan, c :: cs =>
    match scan.step c with
    | .ok (.inside next) => next.pass? cs
    | _ => none

namespace Scan

theorem pass?_cons {scan next : Scan} {c : Char} (h : scan.step c = .ok (.inside next))
    (cs : List Char) : scan.pass? (c :: cs) = next.pass? cs := by
  rw [pass?, h]

theorem pass?_append {scan next : Scan} {cs : List Char} (h : scan.pass? cs = some next)
    (ds : List Char) : scan.pass? (cs ++ ds) = next.pass? ds := by
  induction cs generalizing scan with
  | nil => rw [← Option.some.inj h]; rfl
  | cons c cs ih =>
    rw [List.cons_append]
    rw [pass?] at h ⊢
    split at h
    · exact ih h
    · exact absurd h (by simp)

theorem exists_pass?_of_append {scan next : Scan} {cs ds : List Char}
    (h : scan.pass? (cs ++ ds) = some next) : ∃ mid, scan.pass? cs = some mid := by
  induction cs generalizing scan with
  | nil => exact ⟨scan, rfl⟩
  | cons c cs ih =>
    rw [List.cons_append] at h
    rw [pass?] at h ⊢
    split at h
    · exact ih h
    · exact absurd h (by simp)

/-! ## One character -/

section

variable {depth : Nat} {fresh : Bool} {c quote : Char}

theorem step_escaped :
    (quoted depth quote true).step c = .ok (.inside (.quoted depth quote false)) := rfl

theorem step_backslash :
    (quoted depth quote false).step '\\' = .ok (.inside (.quoted depth quote true)) := by
  simp [step]

theorem step_unquote (h : quote ≠ '\\') :
    (quoted depth quote false).step quote = .ok (.inside (.text depth false)) := by
  simp [step, h]

theorem step_inside (hb : c ≠ '\\') (hq : c ≠ quote) :
    (quoted depth quote false).step c = .ok (.inside (.quoted depth quote false)) := by
  simp [step, hb, hq]

theorem step_quote (h : isQuote c = true) :
    (text depth true).step c = .ok (.inside (.quoted depth c false)) := by
  simp [step, h]

theorem step_open : (text depth fresh).step '(' = .ok (.inside (.text (depth + 1) true)) := by
  simp [step, isQuote]

theorem step_close :
    (text (depth + 1) fresh).step ')' = .ok (.inside (.text depth false)) := by
  simp [step, isQuote]

theorem step_comma : (text (depth + 1) fresh).step ',' = .ok (.inside (.text (depth + 1) true)) := by
  simp [step, isQuote]

theorem step_cut : (text 0 false).step ',' = .ok .cut := by
  simp [step, isQuote]

theorem step_plain (hq : (isQuote c && fresh) = false) (hp : c ≠ '(' ∧ c ≠ ')') (hc : c ≠ ',') :
    (text depth fresh).step c = .ok (.inside (.text depth (fresh && isBlank c))) := by
  simp [step, hq, hp.1, hp.2, hc]

/-- A bare word begins an argument like any text, unless it begins with a comma. -/
theorem step_head {place : Place} {cs : List Char} (h : Bare place (c :: cs)) (hc : c ≠ ',') :
    (text depth true).step c = .ok (.inside (.text depth false)) := by
  have hp := h.no_parenthesis
  simp only [List.mem_cons, not_or] at hp
  have hquote : (isQuote c && true) = false := by rw [h.unquoted c rfl]; rfl
  rw [step_plain hquote ⟨Ne.symm hp.1.1, Ne.symm hp.2.1⟩ hc, h.trimmed.head c rfl]
  rfl

/-- An argument ends at a comma outside of all parentheses, behind a character that is not blank. -/
theorem eq_of_step_cut {scan : Scan} (h : scan.step c = .ok .cut) : scan = text 0 false ∧ c = ',' := by
  cases scan with
  | quoted depth quote escaped =>
    cases escaped with
    | true => exact absurd h (by simp [step])
    | false =>
      rw [step] at h
      split at h
      · exact absurd h (by simp)
      · split at h <;> exact absurd h (by simp)
  | text depth fresh =>
    rw [step] at h
    by_cases hq : (isQuote c && fresh) = true
    · exact absurd h (by simp [hq])
    by_cases ho : c = '('
    · exact absurd h (by simp [ho, isQuote])
    by_cases hcl : c = ')'
    · by_cases hd : depth = 0 <;> exact absurd h (by simp [hcl, isQuote, hd])
    by_cases hc : c = ','
    · subst hc
      cases fresh with
      | true => by_cases hd : depth = 0 <;> exact absurd h (by simp [isQuote, hd])
      | false =>
        by_cases hd : depth = 0
        · exact ⟨by rw [hd], rfl⟩
        · exact absurd h (by simp [isQuote, hd])
    · exact absurd h (by simp [hq, ho, hcl, hc])

end

theorem eq_of_finish {scan : Scan} {u : Unit} (h : scan.finish = .ok u) : scan = text 0 false := by
  cases scan with
  | quoted depth quote escaped => exact absurd h (by simp [finish])
  | text depth fresh =>
    by_cases hd : depth = 0
    · cases fresh with
      | true => exact absurd h (by simp [finish, hd])
      | false => rw [hd]
    · exact absurd h (by simp [finish, hd])

/-! ## What passes -/

section

variable {cs : List Char}

theorem pass?_blank (h : Blank cs) (depth : Nat) (fresh : Bool) :
    (text depth fresh).pass? cs = some (text depth fresh) := by
  induction cs with
  | nil => rfl
  | cons c cs ih =>
    have hc : isBlank c = true := h c List.mem_cons_self
    have hne (d : Char) (hd : isBlank d = false) : c ≠ d := by
      rintro rfl
      exact Bool.false_ne_true (hd.symm.trans hc)
    rw [pass?_cons (step_plain (by rw [isQuote_of_isBlank hc]; rfl)
      ⟨hne _ (by decide), hne _ (by decide)⟩ (hne _ (by decide))), hc, Bool.and_true]
    exact ih fun d hd => h d (List.mem_cons_of_mem c hd)

theorem pass?_plain (hp : '(' ∉ cs ∧ ')' ∉ cs) (hc : ',' ∉ cs) (depth : Nat) :
    (text depth false).pass? cs = some (text depth false) := by
  induction cs with
  | nil => rfl
  | cons c cs ih =>
    simp only [List.mem_cons, not_or] at hp hc
    rw [pass?_cons (step_plain (Bool.and_false _) ⟨Ne.symm hp.1.1, Ne.symm hp.2.1⟩ (Ne.symm hc.1)),
      Bool.false_and]
    exact ih ⟨hp.1.2, hp.2.2⟩ hc.2

theorem pass?_bare (h : Bare .argument cs) (depth : Nat) :
    (text depth true).pass? cs = some (text depth false) := by
  obtain ⟨c, cs, rfl⟩ := List.exists_cons_of_ne_nil h.ne_nil
  have hp := h.no_parenthesis
  have hc := h.no_comma rfl
  simp only [List.mem_cons, not_or] at hp hc
  rw [pass?_cons (step_head h (Ne.symm hc.1))]
  exact pass?_plain ⟨hp.1.2, hp.2.2⟩ hc.2 depth

theorem pass?_quoted {quote : Char} {inside txt : List Char} (hq : isQuote quote = true)
    (h : Quoted quote inside txt) (depth : Nat) :
    (text depth true).pass? (quote :: (inside ++ [quote])) = some (text depth false) := by
  have hne := ne_backslash_of_isQuote hq
  rw [pass?_cons (step_quote hq)]
  -- between the quotes the scan stays inside, at the same depth
  induction h with
  | nil =>
    rw [List.nil_append, pass?_cons (step_unquote hne)]
    rfl
  | escaped _ ih =>
    rw [List.cons_append, List.cons_append, pass?_cons step_backslash, pass?_cons step_escaped]
    exact ih
  | plain hb hc _ ih =>
    rw [List.cons_append, pass?_cons (step_inside hb hc)]
    exact ih

end

mutual

theorem pass?_of_exact {depth : Nat} : ∀ {cs : List Char} {t : Term}, Exact .argument cs t →
    (text depth true).pass? cs = some (text depth false)
  | _, _, .quoted hq h => pass?_quoted hq h depth
  | _, _, .bare h => pass?_bare h depth
  | _, _, .call hname hgap hargs => by
      rw [List.append_assoc, pass?_append (pass?_bare (hname.bare .argument) depth),
        pass?_append (pass?_blank hgap depth false), pass?_cons step_open,
        pass?_append (pass?_of_arguments hargs), pass?_cons step_close]
      rfl

/-- **A notation of a term passes**, at any depth. -/
theorem pass?_of_padded {depth : Nat} : ∀ {cs : List Char} {t : Term}, Padded .argument cs t →
    (text depth true).pass? cs = some (text depth false)
  | _, _, .intro hb h ha => by
      rw [List.append_assoc, pass?_append (pass?_blank hb depth true),
        pass?_append (pass?_of_exact h)]
      exact pass?_blank ha depth false

/-- Inside of parentheses a whole list of arguments passes. -/
theorem pass?_of_arguments {depth : Nat} : ∀ {cs : List Char} {ts : List Term}, Arguments cs ts →
    (text (depth + 1) true).pass? cs = some (text (depth + 1) ts.isEmpty)
  | _, _, .none h => pass?_blank h (depth + 1) true
  | _, _, .last h => pass?_of_padded h
  | _, _, .cons h hrest => by
      rw [pass?_append (pass?_of_padded h), pass?_cons step_comma, pass?_of_arguments hrest]
      rfl

end

/-! ## What does not pass -/

/-- Outside of parentheses a text that passes has no comma, if it opens no parenthesis and no quote. -/
theorem no_comma_of_pass? {cs : List Char} {next : Scan} (h : (text 0 false).pass? cs = some next)
    (ho : '(' ∉ cs) : ',' ∉ cs := by
  induction cs with
  | nil => exact List.not_mem_nil
  | cons c cs ih =>
    simp only [List.mem_cons, not_or] at ho
    have hclose : c ≠ ')' := by
      rintro rfl
      exact absurd h (by simp [pass?, step, isQuote])
    have hcomma : c ≠ ',' := by
      rintro rfl
      exact absurd h (by simp [pass?, step, isQuote])
    rw [pass?_cons (step_plain (Bool.and_false _) ⟨Ne.symm ho.1, hclose⟩ hcomma),
      Bool.false_and] at h
    exact List.not_mem_cons_of_ne_of_not_mem (Ne.symm hcomma) (ih h ho.2)

end Scan

/-- A bare word that passes is one wherever it stands. -/
theorem Bare.of_pass? {cs : List Char} {next : Scan} (h : Bare .alone cs)
    (hpass : Scan.start.pass? cs = some next) (place : Place) : Bare place cs where
  ne_nil := h.ne_nil
  trimmed := h.trimmed
  unquoted := h.unquoted
  no_parenthesis := h.no_parenthesis
  no_comma _ := by
    obtain ⟨c, cs, rfl⟩ := List.exists_cons_of_ne_nil h.ne_nil
    -- no argument begins with a comma
    have hcomma : c ≠ ',' := by
      rintro rfl
      exact absurd hpass (by simp [Scan.start, Scan.pass?, Scan.step, isQuote])
    have hopen : '(' ∉ cs := fun hmem => h.no_parenthesis.1 (List.mem_cons_of_mem c hmem)
    rw [Scan.start, Scan.pass?_cons (Scan.step_head h hcomma)] at hpass
    exact List.not_mem_cons_of_ne_of_not_mem (Ne.symm hcomma) (Scan.no_comma_of_pass? hpass hopen)

/-! ## Pieces -/

/-- Blanks are the notation of no arguments, and of nothing else. -/
theorem Arguments.blank_iff {cs : List Char} {ts : List Term} (h : Arguments cs ts) :
    Blank cs ↔ ts = [] := by
  constructor
  · intro hb
    -- behind blanks an argument may still begin, behind an argument none may
    have heq := (Scan.pass?_blank hb 1 true).symm.trans (Scan.pass?_of_arguments h)
    have hempty : true = ts.isEmpty := (Scan.text.inj (Option.some.inj heq)).2
    exact List.isEmpty_iff.mp hempty.symm
  · rintro rfl
    cases h with
    | none hb => exact hb

/-- A text that passes stands at the beginning of the first piece. -/
theorem piecesFrom_append {scan next : Scan} {cs rest first : List Char} {pieces : List (List Char)}
    (h : scan.pass? cs = some next) (hrest : piecesFrom next rest = .ok (first :: pieces)) :
    piecesFrom scan (cs ++ rest) = .ok ((cs ++ first) :: pieces) := by
  induction cs generalizing scan with
  | nil => rw [← Option.some.inj h] at hrest; exact hrest
  | cons c cs ih =>
    rw [Scan.pass?] at h
    split at h
    · next next' hstep =>
      rw [List.cons_append, piecesFrom, hstep]
      simp only [ih h]
      rfl
    · exact absurd h (by simp)

/-- **The first piece passes**; it is all, or a comma stands behind it and the other pieces follow. -/
theorem piecesFrom_ok {scan : Scan} {cs : List Char} {pieces : List (List Char)}
    (h : piecesFrom scan cs = .ok pieces) :
    ∃ first rest, pieces = first :: rest ∧ scan.pass? first = some (.text 0 false) ∧
      (cs = first ∧ rest = [] ∨
        ∃ behind, cs = first ++ ',' :: behind ∧ piecesFrom .start behind = .ok rest) := by
  induction cs generalizing scan pieces with
  | nil =>
    rw [piecesFrom] at h
    obtain ⟨_, hfinish, rfl⟩ := map_ok h
    refine ⟨[], [], rfl, ?_, .inl ⟨rfl, rfl⟩⟩
    rw [Scan.pass?, Scan.eq_of_finish hfinish]
  | cons c cs ih =>
    rw [piecesFrom] at h
    split at h
    · exact absurd h (by simp)
    · next hstep =>
      obtain ⟨rfl, rfl⟩ := Scan.eq_of_step_cut hstep
      obtain ⟨rest, hrest, rfl⟩ := map_ok h
      -- the first piece ends here
      exact ⟨[], rest, rfl, rfl, .inr ⟨cs, rfl, hrest⟩⟩
    · next next hstep =>
      obtain ⟨tail, htail, rfl⟩ := map_ok h
      -- the character goes in front of the first piece of what follows
      obtain ⟨first, rest, rfl, hpass, hcs⟩ := ih htail
      refine ⟨c :: first, rest, rfl, by rw [Scan.pass?_cons hstep]; exact hpass, ?_⟩
      rcases hcs with ⟨rfl, hr⟩ | ⟨behind, rfl, hr⟩
      · exact .inl ⟨rfl, hr⟩
      · exact .inr ⟨behind, rfl, hr⟩

end Rql.Term

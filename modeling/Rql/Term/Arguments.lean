import Rql.Error

/-!
# Argument lists

A text that starts with a quote, single or double, is a quoted literal up to the next such quote
(`Literal.ofText`). A backslash takes the character behind it as it is, a quote or another backslash
included. Nothing may follow the closing quote. Any other text is a bare literal.

The commas of an argument list that separate its arguments are those outside of quotes and of inner
parentheses. A quote opens only where an argument may begin: at the start, behind a comma or behind
an opening parenthesis, with blanks in between or not. Elsewhere it is a character like any other,
so `O'Brien` needs no escape. Every argument has at least one character that is not blank.
-/

namespace Rql

/-! ## Quoted literals -/

/-- Starts and ends a quoted literal. -/
def isQuote (c : Char) : Bool :=
  c == '\'' || c == '"'

namespace Literal

/-- What stands before the closing quote, with its escapes taken off, and what stands behind it. -/
def unquote? (quote : Char) : List Char → Option (List Char × List Char)
  | [] => none
  | '\\' :: rest =>
    match rest with
    | [] => none
    | c :: rest => (unquote? quote rest).map fun (inside, behind) => (c :: inside, behind)
  | c :: rest =>
    if c = quote then some ([], rest)
    else (unquote? quote rest).map fun (inside, behind) => (c :: inside, behind)

/-- The literal that a text without blanks at its ends stands for. -/
def ofTrimmed (cs : List Char) : Except Fault Literal :=
  match cs with
  | [] => .ok (bare "")
  | c :: rest =>
    if isQuote c then
      match unquote? c rest with
      | none => .error (.unclosedQuote (.ofList cs))
      | some (inside, []) => .ok (ofQuoted (.ofList inside))
      | some (_, _ :: _) => .error (.textBehindQuote (.ofList cs))
    else .ok (bare (.ofList cs))

/-- The literal that a text stands for. -/
def ofText (s : String) : Except Fault Literal :=
  ofTrimmed (Text.trim s.toList)

end Literal

/-! ## Where the arguments end -/

namespace Term

/-- Why a text is no argument list. -/
inductive SplitFault where
  | unbalancedClose
  | unbalancedOpen
  | unterminatedQuote
  | emptyArgument
deriving DecidableEq, Repr

/-- The fault, told of a text. -/
def SplitFault.fault (text : String) : SplitFault → Fault
  | unbalancedClose => .unbalancedClose text
  | unbalancedOpen => .unbalancedOpen text
  | unterminatedQuote => .unterminatedQuote text
  | emptyArgument => .emptyArgument text

/-- Where in an argument list a scan stands. -/
inductive Scan where
  /-- Outside of quotes, inside `depth` parentheses. At a `fresh` place an argument may begin: there
  is nothing but blanks since the start of the argument or the last comma or opening parenthesis. -/
  | text (depth : Nat) (fresh : Bool)
  /-- Between quotes. An `escaped` character is taken as it is. -/
  | quoted (depth : Nat) (quote : Char) (escaped : Bool)
deriving DecidableEq, Repr

/-- Where every argument starts. -/
def Scan.start : Scan := .text 0 true

/-- What one character does: the scan goes on within the argument, or the argument ends. -/
inductive Step where
  | inside (next : Scan)
  | cut
deriving DecidableEq, Repr

/-- Scans one character. -/
def Scan.step : Scan → Char → Except SplitFault Step
  | .quoted depth quote true, _ => .ok (.inside (.quoted depth quote false))
  | .quoted depth quote false, c =>
    if c = '\\' then .ok (.inside (.quoted depth quote true))
    else if c = quote then .ok (.inside (.text depth false))
    else .ok (.inside (.quoted depth quote false))
  | .text depth fresh, c =>
    if isQuote c && fresh then .ok (.inside (.quoted depth c false))
    else if c = '(' then .ok (.inside (.text (depth + 1) true))
    else if c = ')' then
      if depth = 0 then .error .unbalancedClose else .ok (.inside (.text (depth - 1) false))
    else if c = ',' then
      if depth ≠ 0 then .ok (.inside (.text depth true))
      else if fresh then .error .emptyArgument
      else .ok .cut
    else .ok (.inside (.text depth (fresh && Text.isBlank c)))

/-- The list ends here: outside of quotes and parentheses, behind an argument that is not empty. -/
def Scan.finish : Scan → Except SplitFault Unit
  | .quoted .. => .error .unterminatedQuote
  | .text depth fresh =>
    if depth ≠ 0 then .error .unbalancedOpen
    else if fresh then .error .emptyArgument
    else .ok ()

/-- Puts a character in front of the first piece. -/
def consFirst (c : Char) : List (List Char) → List (List Char)
  | [] => [[c]]
  | piece :: pieces => (c :: piece) :: pieces

/-- The pieces from where the scan stands, the first one without what has been scanned of it. -/
def piecesFrom : Scan → List Char → Except SplitFault (List (List Char))
  | scan, [] => scan.finish.map fun _ => [[]]
  | scan, c :: cs =>
    match scan.step c with
    | .error fault => .error fault
    | .ok .cut => (piecesFrom .start cs).map ([] :: ·)
    | .ok (.inside next) => (piecesFrom next cs).map (consFirst c)

/-- The arguments of a list, without blanks at their ends. -/
def arguments (cs : List Char) : Except Fault (List (List Char)) :=
  match piecesFrom .start cs with
  | .error fault => .error (fault.fault (.ofList cs))
  | .ok pieces => .ok (pieces.map Text.trim)

/-- `arguments` on strings. -/
def splitArguments (s : String) : Except Fault (List String) :=
  (arguments s.toList).map (·.map .ofList)

theorem length_le_of_mem_consFirst {c : Char} {n : Nat} {pieces : List (List Char)}
    (h : ∀ p ∈ pieces, p.length ≤ n) : ∀ p ∈ consFirst c pieces, p.length ≤ n + 1 := by
  cases pieces with
  | nil => simp [consFirst]
  | cons piece pieces =>
    intro p hp
    rcases List.mem_cons.1 hp with rfl | hp
    · simpa using h piece (by simp)
    · exact Nat.le_succ_of_le (h p (by simp [hp]))

theorem length_le_of_mem_piecesFrom {scan : Scan} {cs : List Char} {pieces : List (List Char)}
    (h : piecesFrom scan cs = .ok pieces) : ∀ p ∈ pieces, p.length ≤ cs.length := by
  induction cs generalizing scan pieces with
  | nil =>
    simp only [piecesFrom] at h
    cases hf : scan.finish with
    | error fault => simp [hf, Except.map] at h
    | ok u => simp [hf, Except.map] at h; subst h; simp
  | cons c cs ih =>
    simp only [piecesFrom] at h
    split at h
    · simp at h
    · cases hr : piecesFrom .start cs with
      | error fault => simp [hr, Except.map] at h
      | ok rest =>
        simp only [hr, Except.map, Except.ok.injEq] at h
        subst h
        intro p hp
        rcases List.mem_cons.1 hp with rfl | hp
        · simp
        · exact Nat.le_succ_of_le (ih hr p hp)
    · rename_i next _
      cases hr : piecesFrom next cs with
      | error fault => simp [hr, Except.map] at h
      | ok rest =>
        simp only [hr, Except.map, Except.ok.injEq] at h
        subst h
        exact length_le_of_mem_consFirst (ih hr)

/-- No argument is longer than its list. -/
theorem length_le_of_mem_arguments {cs : List Char} {args : List (List Char)}
    (h : arguments cs = .ok args) : ∀ arg ∈ args, arg.length ≤ cs.length := by
  unfold arguments at h
  split at h
  · simp at h
  · rename_i pieces hp
    simp only [Except.ok.injEq] at h
    subst h
    intro arg harg
    obtain ⟨piece, hmem, rfl⟩ := List.mem_map.1 harg
    exact Nat.le_trans (Text.length_trim_le piece) (length_le_of_mem_piecesFrom hp piece hmem)

end Term

end Rql

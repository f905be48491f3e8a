/-!
# Text

What the notations need of texts: blanks taken off, names compared without case, texts cut and
joined.

* Blanks may stand around a word, a name or a parameter without being part of it. They are the
  characters of the Unicode property White_Space; `trim` takes them off both ends of a text and
  leaves the middle alone.
* Operators, columns, keys and backends are found whatever the case of their letters. Only the
  letters `A` to `Z` have a case here: `É` and `é` are two names.
* A text is cut at every mark, at the first one or at the last one. A cut drops the mark itself and
  keeps everything else, so joining the pieces with the mark gives the text back.
-/

namespace Rql.Text

/-! ## Blank characters -/

/-- The property White_Space as ranges of code points, ends included, in increasing order. -/
def blankRanges : List (Nat × Nat) :=
  [(0x9, 0xD), (0x20, 0x20), (0x85, 0x85), (0xA0, 0xA0), (0x1680, 0x1680), (0x2000, 0x200A),
    (0x2028, 0x2029), (0x202F, 0x202F), (0x205F, 0x205F), (0x3000, 0x3000)]

/-- `c` has the property White_Space. -/
def isBlank (c : Char) : Bool :=
  blankRanges.any fun r => r.1 ≤ c.toNat && c.toNat ≤ r.2

/-- The text from its first character that is not blank. -/
def trimLeft (cs : List Char) : List Char :=
  cs.dropWhile isBlank

/-- The text up to its last character that is not blank. -/
def trimRight (cs : List Char) : List Char :=
  (trimLeft cs.reverse).reverse

/-- The text without the blanks at its two ends. -/
def trim (cs : List Char) : List Char :=
  trimRight (trimLeft cs)

/-- `trim` on strings. -/
def trimmed (s : String) : String :=
  .ofList (trim s.toList)

/-- Nothing but blanks. -/
def allBlank (s : String) : Bool :=
  s.toList.all isBlank

theorem length_trimLeft_le (cs : List Char) : (trimLeft cs).length ≤ cs.length :=
  (List.dropWhile_sublist _).length_le

theorem length_trimRight_le (cs : List Char) : (trimRight cs).length ≤ cs.length := by
  simpa [trimRight] using length_trimLeft_le cs.reverse

theorem length_trim_le (cs : List Char) : (trim cs).length ≤ cs.length :=
  Nat.le_trans (length_trimRight_le _) (length_trimLeft_le _)

/-! ## Names without case -/

/-- The text with its letters `A` to `Z` made small. -/
def foldCase (s : String) : String :=
  .ofList (s.toList.map Char.toLower)

/-- The two names differ at most in the case of ASCII letters. -/
def sameName (a b : String) : Bool :=
  foldCase a == foldCase b

theorem sameName_iff {a b : String} : sameName a b = true ↔ foldCase a = foldCase b := by
  simp [sameName]

@[simp] theorem sameName_refl (a : String) : sameName a a = true := by
  simp [sameName]

theorem sameName_comm (a b : String) : sameName a b = sameName b a := by
  rw [Bool.eq_iff_iff, sameName_iff, sameName_iff, eq_comm]

theorem sameName_trans {a b c : String} (hab : sameName a b = true) (hbc : sameName b c = true) :
    sameName a c = true := by
  rw [sameName_iff] at *
  exact hab.trans hbc

/-! ## Cutting and joining -/

/-- The pieces between the marks, `n + 1` of them for `n` marks. -/
def splitOn (mark : Char) : List Char → List (List Char)
  | [] => [[]]
  | c :: cs =>
    if c = mark then [] :: splitOn mark cs
    else match splitOn mark cs with
      | [] => [[c]]
      | piece :: pieces => (c :: piece) :: pieces

/-- What stands before and after the first mark. -/
def splitFirst? (mark : Char) : List Char → Option (List Char × List Char)
  | [] => none
  | c :: cs =>
    if c = mark then some ([], cs)
    else (splitFirst? mark cs).map fun (before, after) => (c :: before, after)

/-- What stands before and after the last mark. -/
def splitLast? (mark : Char) : List Char → Option (List Char × List Char)
  | [] => none
  | c :: cs =>
    match splitLast? mark cs with
    | some (before, after) => some (c :: before, after)
    | none => if c = mark then some ([], cs) else none

/-- What stands behind the text `front`, if the text starts with it. -/
def behind? : List Char → List Char → Option (List Char)
  | [], cs => some cs
  | _ :: _, [] => none
  | f :: front, c :: cs => if f = c then behind? front cs else none

/-- The texts one after the other with `between` standing between neighbours. -/
def join (between : String) : List String → String
  | [] => ""
  | [s] => s
  | s :: rest => s ++ between ++ join between rest

/-- The text with each occurrence of one character replaced by another. -/
def replaceChar (old new : Char) (s : String) : String :=
  .ofList (s.toList.map fun c => if c = old then new else c)

theorem behind?_eq_some_iff {front cs rest : List Char} :
    behind? front cs = some rest ↔ cs = front ++ rest := by
  induction front generalizing cs with
  | nil => simp [behind?]
  | cons f front ih =>
    cases cs with
    | nil => simp [behind?]
    | cons c cs =>
      by_cases h : f = c
      · simp [behind?, h, ih]
      · simp [behind?, h, eq_comm]

@[simp] theorem join_nil (between : String) : join between [] = "" := rfl

@[simp] theorem join_singleton (between s : String) : join between [s] = s := rfl

theorem join_cons_cons (between s t : String) (rest : List String) :
    join between (s :: t :: rest) = s ++ between ++ join between (t :: rest) := rfl

end Rql.Text

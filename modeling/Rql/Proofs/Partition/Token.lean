import Mathlib.Data.List.Forall2
import Mathlib.Data.List.SplitBy
import Rql.Partition.Condition
import Rql.Proofs.Sql.Token

/-!
# Tokens of filters

A store reads a filter word by word: letters, digits and the marks `#` and `:` run on in one word, so do
the signs `<`, `=` and `>`, every other character stands for itself, and blanks do no more than separate
(`words`). A word that starts with `#` stands for a name and one that starts with `:` for a value; the
tables that go with the filter say which, and a word that they do not know is refused (`resolve`). The
tokens that are left are those of SQL, with the values in their places.

`Spells` says that a text reads as a row of tokens. Texts may be put one behind the other as long as no
word runs on from the first into the second (`Spells.append`).

The tables number their entries. No two numbers are written alike (`append_toString_injective`), so the
placeholder with a number finds the entry with that number and no other (`lookup_numbered`).
-/

namespace Rql.Partition

open Sql (Token isSignChar isStop)

/-! ## Reading words -/

/-- Part of a keyword, a number or a placeholder. -/
def isWordChar (c : Char) : Bool :=
  Sql.isWordChar c || c == '#' || c == ':'

/-- The second character belongs to the word of the first one. -/
def joins (a b : Char) : Bool :=
  (isWordChar a && isWordChar b) || (isSignChar a && isSignChar b)

/-- The words of a text. -/
def words (s : String) : List String :=
  ((s.toList.splitBy joins).filter (· != [' '])).map .ofList

/-- What a word stands for, if the tables know it. -/
def resolve (names : List (String × String)) (values : List (String × Json)) (word : String) :
    Option (Token Json) :=
  if word.toList.head? = some '#' then (names.lookup word).map .name
  else if word.toList.head? = some ':' then (values.lookup word).map .mark
  else some (.text word)

/-- No word goes on from the first text into the second. -/
def Apart (s s' : String) : Prop :=
  ∀ a ∈ s.toList.getLast?, ∀ b ∈ s'.toList.head?, joins a b = false

theorem words_append {s s' : String} (h : Apart s s') : words (s ++ s') = words s ++ words s' := by
  rw [words, String.toList_append, List.splitBy_append h, List.filter_append, List.map_append]
  rfl

theorem joins_of_isStop {a b : Char} (h : isStop a = true ∨ isStop b = true) :
    joins a b = false := by
  have hstop : ∀ c, isStop c = true → isWordChar c = false ∧ isSignChar c = false := by
    intro c hc
    rcases Sql.eq_of_isStop hc with rfl | rfl | rfl | rfl | rfl <;> decide
  rcases h with h | h
  · simp [joins, hstop a h]
  · simp [joins, hstop b h]

/-- The first text ends with a blank, a comma or a parenthesis. -/
theorem apart_of_last {s : String} (h : s.toList.getLast?.any isStop = true) (s' : String) :
    Apart s s' := by
  intro a ha b _
  rw [Option.mem_def.mp ha] at h
  exact joins_of_isStop (.inl h)

/-- The second text starts with a blank, a comma or a parenthesis. -/
theorem apart_of_head (s : String) {s' : String} (h : s'.toList.head?.any isStop = true) :
    Apart s s' := by
  intro a _ b hb
  rw [Option.mem_def.mp hb] at h
  exact joins_of_isStop (.inr h)

/-- The second text follows a text that starts with a blank, a comma or a parenthesis. -/
theorem apart_of_separator (s : String) {sep : String} (h : sep.toList.head?.any isStop = true)
    (s' : String) : Apart s (sep ++ s') := by
  apply apart_of_head
  rw [String.toList_append, List.head?_append]
  cases hc : sep.toList.head? with
  | none => rw [hc] at h; exact absurd h Bool.false_ne_true
  | some c => rw [hc] at h; exact h

/-- Characters of one word are not taken apart. -/
theorem words_of_isWordChar {s : String} (hne : s.toList ≠ [])
    (h : ∀ c ∈ s.toList, isWordChar c = true) : words s = [s] := by
  have hchain : s.toList.IsChain fun a b => joins a b = true := by
    refine List.Pairwise.isChain (List.pairwise_of_forall_mem_list fun a ha b hb => ?_)
    simp [joins, h a ha, h b hb]
  have hblank : (s.toList != [' ']) = true := by
    rw [bne_iff_ne]
    intro he
    exact absurd (h ' ' (by rw [he]; exact List.mem_singleton_self ' ')) (by decide)
  rw [words, List.splitBy_of_isChain hne hchain]
  simp only [List.filter, hblank, List.map_singleton, String.ofList_toList]

example : words "NOT (#f0 >= :v12)" = ["NOT", "(", "#f0", ">=", ":v12", ")"] := by decide

/-- The word is no placeholder. -/
def isPlain (word : String) : Bool :=
  word.toList.head? != some '#' && word.toList.head? != some ':'

/-- The text spells these words, none of them a placeholder, and it starts and ends with a stop. -/
def isSeparator (sep : String) (ws : List String) : Bool :=
  words sep == ws && ws.all isPlain && sep.toList.head?.any isStop && sep.toList.getLast?.any isStop

/-! ## Texts that spell tokens -/

/-- The text reads as these tokens, given what the placeholders stand for. -/
def Spells (names : List (String × String)) (values : List (String × Json)) (s : String)
    (ts : List (Token Json)) : Prop :=
  (words s).mapM (resolve names values) = some ts

section

variable {names : List (String × String)} {values : List (String × Json)} {s s' : String}
  {ts ts' : List (Token Json)}

theorem Spells.append (h : Spells names values s ts) (h' : Spells names values s' ts')
    (ha : Apart s s') : Spells names values (s ++ s') (ts ++ ts') := by
  rw [Spells, words_append ha, List.mapM_append, h, h']
  rfl

/-- A text without placeholders. -/
theorem spells_text (ws : List String) (h : words s = ws ∧ ws.all isPlain = true) :
    Spells names values s (ws.map .text) := by
  obtain ⟨hwords, hplain⟩ := h
  rw [Spells, hwords]
  clear hwords
  induction ws with
  | nil => rfl
  | cons w ws ih =>
    rw [List.all_cons, Bool.and_eq_true] at hplain
    have hw : w.toList.head? ≠ some '#' ∧ w.toList.head? ≠ some ':' := by
      simpa [isPlain] using hplain.1
    rw [List.mapM_cons, resolve, if_neg hw.1, if_neg hw.2, ih hplain.2]
    rfl

/-- Words that end with a stop may stand before any text. -/
theorem Spells.behind {front : String} (ws : List String)
    (hfront : words front = ws ∧ ws.all isPlain = true
      ∧ front.toList.getLast?.any isStop = true) (h : Spells names values s ts) :
    Spells names values (front ++ s) (ws.map .text ++ ts) := by
  obtain ⟨hwords, hplain, hlast⟩ := hfront
  exact (spells_text ws ⟨hwords, hplain⟩).append h (apart_of_last hlast s)

/-- A separator keeps the words beside it apart. -/
theorem Spells.between (h : Spells names values s ts) {sep : String} (ws : List String)
    (hsep : isSeparator sep ws = true) (h' : Spells names values s' ts') :
    Spells names values (s ++ sep ++ s') (ts ++ ws.map .text ++ ts') := by
  simp only [isSeparator, Bool.and_eq_true, beq_iff_eq] at hsep
  obtain ⟨⟨⟨hwords, hplain⟩, hhead⟩, hlast⟩ := hsep
  have hsecond := h'.behind ws ⟨hwords, hplain, hlast⟩
  rw [String.append_assoc, List.append_assoc]
  exact h.append hsecond (apart_of_separator s hhead s')

/-- A text up to its closing parenthesis. -/
theorem Spells.close (h : Spells names values s ts) :
    Spells names values (s ++ ")") (ts ++ [.text ")"]) :=
  h.append (spells_text [")"] (by decide)) (apart_of_head s (by decide))

theorem spells_join {sep : String} {ws : List String} (hsep : isSeparator sep ws = true)
    {texts : List String} {tss : List (List (Token Json))}
    (h : List.Forall₂ (Spells names values) texts tss) :
    Spells names values (Text.join sep texts) ((ws.map .text).intercalate tss) := by
  induction h with
  | nil => rfl
  | cons hfirst hrest ih =>
    cases hrest with
    | nil =>
      rw [Text.join_singleton, List.intercalate_singleton]
      exact hfirst
    | cons hsecond hrest =>
      rw [Text.join_cons_cons, List.intercalate_cons_cons]
      exact hfirst.between ws hsep ih

end

/-! ## Placeholders -/

/-- No two numbers are written alike. -/
theorem append_toString_injective (front : String) :
    Function.Injective fun n : Nat => front ++ toString n := by
  intro m n h
  have hlist : front.toList ++ Nat.toDigits 10 m = front.toList ++ Nat.toDigits 10 n := by
    have := congrArg String.toList h
    simpa using this
  have hnumber := congrArg (Nat.ofDigitChars 10 · 0) (List.append_cancel_left hlist)
  simpa only [Nat.ofDigitChars_ten_toDigits] using hnumber

theorem isWordChar_of_mem_append_toString {front : String}
    (h : front.toList.all isWordChar = true) (n : Nat) :
    ∀ c ∈ (front ++ toString n).toList, isWordChar c = true := by
  intro c hc
  rw [String.toList_append] at hc
  rcases List.mem_append.mp hc with hfront | hdigit
  · exact List.all_eq_true.mp h c hfront
  · have htoList : (toString n).toList = Nat.toDigits 10 n := by simp
    rw [htoList] at hdigit
    have hd : c.isDigit = true := Nat.isDigit_of_mem_toDigits (by decide) (by decide) hdigit
    simp [isWordChar, Sql.isWordChar, Char.isAlphanum, hd]

/-- The entries of a list behind their placeholders. -/
def numbered {α : Type} (mark : Nat → String) (xs : List α) : List (String × α) :=
  xs.zipIdx.map fun (x, n) => (mark n, x)

/-- **The placeholder with a number finds the entry with that number.** -/
theorem lookup_numbered {α : Type} {mark : Nat → String} (hmark : Function.Injective mark)
    (xs : List α) (n : Nat) : (numbered mark xs).lookup (mark n) = xs[n]? := by
  -- generalised over the number of the first entry, since the induction takes it away
  have h : ∀ start, ((xs.zipIdx start).map fun (x, i) => (mark i, x)).lookup (mark (start + n))
      = xs[n]? := by
    induction xs generalizing n with
    | nil => intro start; rfl
    | cons x xs ih =>
      intro start
      rw [List.zipIdx_cons, List.map_cons, List.lookup_cons]
      cases n with
      | zero => simp
      | succ n =>
        have hne : (mark (start + (n + 1)) == mark start) = false := by
          rw [beq_eq_false_iff_ne]
          intro he
          have := hmark he
          omega
        have hnext : start + (n + 1) = start + 1 + n := by omega
        rw [hne, hnext]
        exact ih n (start + 1)
  have := h 0
  rwa [Nat.zero_add] at this

namespace Condition

theorem words_namePlaceholder (n : Nat) : words (namePlaceholder n) = [namePlaceholder n] := by
  refine words_of_isWordChar ?_ (isWordChar_of_mem_append_toString (by decide) n)
  simp [namePlaceholder]

theorem words_valuePlaceholder (n : Nat) : words (valuePlaceholder n) = [valuePlaceholder n] := by
  refine words_of_isWordChar ?_ (isWordChar_of_mem_append_toString (by decide) n)
  simp [valuePlaceholder]

theorem spells_nameIn {fields : List String} {field : String} (h : field ∈ fields)
    (bound : List Json) :
    Spells (numbered namePlaceholder fields) (numbered valuePlaceholder bound)
      (nameIn fields field) [.name field] := by
  have hlookup : (numbered namePlaceholder fields).lookup (nameIn fields field) = some field := by
    have hfind := lookup_numbered (append_toString_injective "#f") fields (fields.idxOf field)
    rwa [List.getElem?_idxOf h] at hfind
  have hhead : (nameIn fields field).toList.head? = some '#' := by
    simp [nameIn, namePlaceholder]
  rw [Spells, nameIn, words_namePlaceholder]
  show [nameIn fields field].mapM _ = _
  rw [List.mapM_cons, resolve, if_pos hhead, hlookup]
  rfl

theorem spells_valuePlaceholder (fields : List String) {bound : List Json} {n : Nat} {value : Json}
    (h : bound[n]? = some value) :
    Spells (numbered namePlaceholder fields) (numbered valuePlaceholder bound)
      (valuePlaceholder n) [.mark value] := by
  have hlookup : (numbered valuePlaceholder bound).lookup (valuePlaceholder n) = some value := by
    have hfind := lookup_numbered (append_toString_injective ":v") bound n
    rwa [h] at hfind
  have hhead : (valuePlaceholder n).toList.head? = some ':' := by
    simp [valuePlaceholder]
  have hname : (valuePlaceholder n).toList.head? ≠ some '#' := by
    rw [hhead]
    decide
  rw [Spells, words_valuePlaceholder, List.mapM_cons, resolve, if_neg hname, if_pos hhead, hlookup]
  rfl

end Condition

end Rql.Partition

import Rql.Term.Arguments

/-!
# Reading terms

A text is a quoted word if it starts with a quote, a call if it has a parenthesis, and a bare word
otherwise. A call runs from its name up to a closing parenthesis at the very end of the text; what
lies between is an argument list, or nothing at all.

`shape` takes one text apart and leaves the arguments of a call as texts. Each of them is shorter
than the call, so reading the arguments in turn ends.
-/

namespace Rql.Term

/-- The characters of the names of calls. -/
def isNameChar (c : Char) : Bool :=
  c.isAlphanum || c == '_'

/-- The name in front of the first parenthesis. -/
def callName (cs : List Char) : List Char :=
  Text.trim (cs.takeWhile (· != '('))

/-- What stands behind the first parenthesis, none if there is no parenthesis. -/
def behindParenthesis? (cs : List Char) : Option (List Char) :=
  match cs.dropWhile (· != '(') with
  | [] => none
  | _ :: rest => some rest

/-- Starts with a quote. -/
def startsQuoted : List Char → Bool
  | [] => false
  | c :: _ => isQuote c

/-- What a text is, with the arguments of a call as texts. -/
inductive Shape where
  | word (l : Literal)
  | call (name : String) (args : List (List Char))

/-- A text without an opening parenthesis as a word. -/
def ofWord (cs : List Char) : Except Fault Shape :=
  if cs.contains ')' then .error (.unbalancedClose (.ofList cs))
  else .ok (.word (.bare (.ofList cs)))

/-- The call with a name and what stands behind its opening parenthesis. -/
def ofCall (cs behind : List Char) : Except Fault Shape :=
  if callName cs = [] ∨ ¬ (callName cs).all isNameChar then .error (.badCallName (.ofList cs))
  else if behind.getLast? ≠ some ')' then .error (.unbalancedOpen (.ofList cs))
  else if behind.dropLast.all Text.isBlank then .ok (.call (.ofList (callName cs)) [])
  else (arguments behind.dropLast).map (.call (.ofList (callName cs)))

/-- The shape of a text without blanks at its ends. -/
def shapeOfTrimmed (cs : List Char) : Except Fault Shape :=
  if cs = [] then .error .emptyExpression
  else if startsQuoted cs then (Literal.ofTrimmed cs).map .word
  else match behindParenthesis? cs with
    | none => ofWord cs
    | some behind => ofCall cs behind

/-- The shape of a text. -/
def shape (text : List Char) : Except Fault Shape :=
  shapeOfTrimmed (Text.trim text)

theorem length_lt_of_behindParenthesis {cs rest : List Char}
    (h : behindParenthesis? cs = some rest) : rest.length < cs.length := by
  unfold behindParenthesis? at h
  split at h
  · simp at h
  · rename_i c r heq
    simp only [Option.some.injEq] at h
    subst h
    have := (List.dropWhile_sublist (· != '(') : (cs.dropWhile (· != '(')).Sublist cs).length_le
    rw [heq, List.length_cons] at this
    exact this

theorem length_le_of_ofCall {cs behind : List Char} {name : String} {args : List (List Char)}
    (h : ofCall cs behind = .ok (.call name args)) : ∀ arg ∈ args, arg.length ≤ behind.length := by
  unfold ofCall at h
  split at h
  · cases h
  · split at h
    · cases h
    · split at h
      · simp only [Except.ok.injEq, Shape.call.injEq] at h
        simp [← h.2]
      · cases ha : arguments behind.dropLast with
        | error fault => simp [ha, Except.map] at h
        | ok found =>
          simp only [ha, Except.map, Except.ok.injEq, Shape.call.injEq] at h
          obtain ⟨-, rfl⟩ := h
          intro arg harg
          have := length_le_of_mem_arguments ha arg harg
          simp at this
          omega

/-- An argument is shorter than the text of its call. -/
theorem length_lt_of_shape {text : List Char} {name : String} {args : List (List Char)}
    (h : shape text = .ok (.call name args)) : ∀ arg ∈ args, arg.length < text.length := by
  unfold shape shapeOfTrimmed at h
  split at h
  · cases h
  · split at h
    · cases hl : Literal.ofTrimmed (Text.trim text) <;> simp [hl, Except.map] at h
    · split at h
      · unfold ofWord at h
        split at h <;> simp at h
      · rename_i behind hb
        intro arg harg
        have h₁ := length_le_of_ofCall h arg harg
        have h₂ := length_lt_of_behindParenthesis hb
        have h₃ := Text.length_trim_le text
        omega

/-- The term that a text stands for. -/
def ofChars (text : List Char) : Except Fault Term :=
  match h : shape text with
  | .error fault => .error fault
  | .ok (.word l) => .ok (.word l)
  | .ok (.call name args) =>
    let read (arg : { a // a ∈ args }) : Except Fault Term :=
      have := length_lt_of_shape h arg.1 arg.2
      ofChars arg.1
    (args.attach.mapM read).map (.call name)
termination_by text.length

/-- `ofChars` on strings. -/
def ofText (s : String) : Except Fault Term :=
  ofChars s.toList

/-- The text has the look of a call: a parenthesis, and no quote in front. -/
def looksLikeCall (s : String) : Bool :=
  let cs := Text.trim s.toList
  !startsQuoted cs && cs.contains '('

end Rql.Term

import Rql.Proofs.Json.OneLine
import Rql.Proofs.Request.Encoding
import Rql.Proofs.Session.Agreement
import Rql.Proofs.Text.Cuts
import Rql.Session.Run

/-!
# One line in, one line out

A session answers every line that holds something with one line, whatever stands on the lines around it.
Two things could go wrong with that. An answer could break its line, but nothing that is written as JSON
does (`Json.unbroken_render`). Or a line could be read differently with how the input comes: whole, in
pieces, or in front of other input. Cutting at the line feeds goes on behind a piece with what is left of
it (`Lines.split_append`), so it does not matter where the pieces end (`answerChunks_eq`).

`LineByLine` says what this comes to for an input whose lines can all be read.
-/

namespace Rql

namespace Lines

variable {input : List UInt8}

/-! ## Cutting input -/

/-- Cutting can stop anywhere and go on with what is left. -/
theorem split_append (front behind : List UInt8) :
    split (front ++ behind) =
      ((split front).1 ++ (split ((split front).2 ++ behind)).1,
        (split ((split front).2 ++ behind)).2) := by
  induction front with
  | nil => rfl
  | cons b front ih =>
    rw [List.cons_append, split, ih, split]
    by_cases hb : b = lineFeed
    · simp only [hb, if_true, List.cons_append]
    · simp only [hb, if_false]
      cases hfront : (split front).1 with
      | cons line lines => rfl
      | nil => simp only [List.nil_append, List.cons_append, split, hb, if_false]

theorem splitAll_append (front behind : List UInt8) :
    splitAll (front ++ behind) =
      (split front).1.map dropReturn ++ splitAll ((split front).2 ++ behind) := by
  rw [splitAll, split_append]
  show (_ ++ _ : List (List UInt8)).map dropReturn ++ _ = _
  rw [List.map_append, List.append_assoc]
  rfl

theorem texts_append (xs ys : List (List UInt8)) : texts (xs ++ ys) = texts xs ++ texts ys := by
  rw [texts, List.map_append, List.filter_append]
  rfl

/-- Reading can stop anywhere and go on with what is left. -/
theorem read_append (front behind : List UInt8) :
    read (front ++ behind) = (readComplete front).1 ++ read ((readComplete front).2 ++ behind) := by
  rw [read, splitAll_append, texts_append]
  rfl

/-- The last line has its end. -/
def Complete (input : List UInt8) : Prop :=
  ∀ b ∈ input.getLast?, b = lineFeed

/-- An end of line leaves nothing behind the lines in front of it. -/
theorem exists_split_lineFeed (bytes : List UInt8) :
    ∃ line lines, split (bytes ++ [lineFeed]) = (line :: lines, []) := by
  induction bytes with
  | nil => exact ⟨[], [], rfl⟩
  | cons b bytes ih =>
    obtain ⟨line, lines, hsplit⟩ := ih
    rw [List.cons_append, split, hsplit]
    by_cases hb : b = lineFeed
    · exact ⟨[], line :: lines, by simp only [hb, if_true]⟩
    · exact ⟨b :: line, lines, by simp only [hb, if_false]⟩

theorem Complete.rest_eq_nil (h : Complete input) : (split input).2 = [] := by
  rcases List.eq_nil_or_concat' input with rfl | ⟨bytes, b, rfl⟩
  · rfl
  · have hb : b = lineFeed := h b (by rw [List.getLast?_concat]; rfl)
    obtain ⟨line, lines, hsplit⟩ := exists_split_lineFeed bytes
    rw [hb, hsplit]

/-- Complete input is read the same in front of other input. -/
theorem Complete.read_append (h : Complete input) (behind : List UInt8) :
    read (input ++ behind) = read input ++ read behind := by
  have hread (behind : List UInt8) :
      read (input ++ behind) = (readComplete input).1 ++ read behind := by
    rw [Lines.read_append]
    show _ ++ read ((split input).2 ++ behind) = _
    rw [h.rest_eq_nil, List.nil_append]
  have hinput := hread []
  rw [List.append_nil, show read [] = [] from rfl, List.append_nil] at hinput
  rw [hread, hinput]

/-- The lines of the input, all of which can be read. -/
def Holds (input : List UInt8) (lines : List String) : Prop :=
  (splitAll input).map decode = lines.map .ok

/-- The lines that hold something. -/
def significant (lines : List String) : List String :=
  lines.filter fun line => !Text.allBlank line

theorem Holds.read_eq {lines : List String} (h : Holds input lines) :
    read input = (significant lines).map .ok := by
  have htexts : texts (splitAll input) = (lines.map Except.ok).filter isSignificant := by
    rw [texts, h]
  rw [read, htexts, List.filter_map]
  rfl

/-! ## Input for given lines -/

open QueryString (utf8 ofBytes?_utf8)

/-- Lines as they stand in an input. -/
def bytesOf (lines : List String) : List UInt8 :=
  lines.flatMap fun line => utf8 line ++ [lineFeed]

theorem split_line {line : List UInt8} (h : lineFeed ∉ line) :
    split (line ++ [lineFeed]) = ([line], []) := by
  induction line with
  | nil => rfl
  | cons b line ih =>
    obtain ⟨hb, hline⟩ := not_or.mp (List.mem_cons.not.mp h)
    rw [List.cons_append, split, ih hline]
    exact if_neg (Ne.symm hb)

theorem decode_utf8 (s : String) : decode (utf8 s) = .ok s := by
  have hread : String.fromUTF8? ⟨(utf8 s).toArray⟩ = some s := ofBytes?_utf8 s
  rw [decode, hread]

/-- Any lines are the lines of some input, if they neither hold an end of line nor run into one. -/
theorem holds_bytesOf {lines : List String}
    (h : ∀ line ∈ lines, lineFeed ∉ utf8 line ∧ (utf8 line).getLast? ≠ some carriageReturn) :
    Holds (bytesOf lines) lines := by
  induction lines with
  | nil => rfl
  | cons line lines ih =>
    obtain ⟨⟨hfeed, hreturn⟩, hlines⟩ := List.forall_mem_cons.mp h
    have hline : dropReturn (utf8 line) = utf8 line := if_neg hreturn
    have hall : splitAll (bytesOf (line :: lines)) = utf8 line :: splitAll (bytesOf lines) := by
      rw [bytesOf, List.flatMap_cons, splitAll_append, split_line hfeed, List.map_singleton, hline]
      rfl
    rw [Holds, hall, List.map_cons, decode_utf8, ih hlines, List.map_cons]

end Lines

/-! ## What is written -/

theorem Response.unbroken_line (r : Response) : Json.Unbroken r.line.toList :=
  Json.unbroken_render r.toJson

namespace Outcome

/-- What comes of some lines and then of others. An error is the end of it. -/
def andThen (first later : Outcome) : Outcome :=
  match first with
  | ⟨_, some _⟩ => first
  | ⟨answers, none⟩ => { later with answers := answers ++ later.answers }

theorem written_append (xs ys : List String) (e f : Option RunError) :
    (Outcome.mk (xs ++ ys) e).written = (Outcome.mk xs f).written ++ (Outcome.mk ys e).written := by
  rw [written, written, written, List.flatMap_append, String.ofList_append]

/-- Answers that do not break their lines are read back line by line. Nothing stands behind the last
end of line. -/
theorem splitOn_written {o : Outcome} (h : ∀ answer ∈ o.answers, '\n' ∉ answer.toList) :
    Text.splitOn '\n' o.written.toList = o.answers.map String.toList ++ [[]] := by
  obtain ⟨answers, error⟩ := o
  rw [written, String.toList_ofList]
  show Text.splitOn '\n' (answers.flatMap _) = answers.map String.toList ++ [[]]
  induction answers with
  | nil => rfl
  | cons answer rest ih =>
    obtain ⟨hanswer, hrest⟩ := List.forall_mem_cons.mp h
    rw [List.flatMap_cons, List.append_assoc, List.singleton_append, Text.splitOn_eq,
      Text.splitFirst?_append hanswer]
    exact congrArg (answer.toList :: ·) (ih hrest)

end Outcome

namespace Session

variable {s : Session} {task : Task}

/-! ## Answering -/

theorem answerAll_append (xs ys : List (Except RunError String)) :
    s.answerAll task (xs ++ ys) = (s.answerAll task xs).andThen (s.answerAll task ys) := by
  induction xs with
  | nil => rfl
  | cons x xs ih =>
    cases x with
    | error e => rfl
    | ok line =>
      rw [List.cons_append, answerAll, ih, answerAll]
      rcases s.answerAll task xs with ⟨answers, _ | e⟩ <;> rfl

theorem answerAll_ok (lines : List String) :
    s.answerAll task (lines.map .ok) = ⟨lines.map fun line => (s.answer task line).line, none⟩ := by
  induction lines with
  | nil => rfl
  | cons line lines ih => rw [List.map_cons, answerAll, ih, List.map_cons]

theorem unbroken_answerAll (lines : List (Except RunError String)) :
    ∀ answer ∈ (s.answerAll task lines).answers, Json.Unbroken answer.toList := by
  induction lines with
  | nil => exact fun answer hanswer => absurd hanswer List.not_mem_nil
  | cons line lines ih =>
    cases line with
    | error e => exact fun answer hanswer => absurd hanswer List.not_mem_nil
    | ok line => exact List.forall_mem_cons.mpr ⟨(s.answer task line).unbroken_line, ih⟩

/-- What is answered in all to input that comes in chunks: the lines of each chunk as soon as they are
complete, and at the end what is left. `pending` is what is left so far. So does `CommandLine.serve`, which
reads the chunks and writes the answers to each. -/
def answerChunks (s : Session) (task : Task) (pending : List UInt8) : List (List UInt8) → Outcome
  | [] => s.answerAll task (Lines.read pending)
  | chunk :: chunks =>
    let (ready, rest) := Lines.readComplete (pending ++ chunk)
    (s.answerAll task ready).andThen (answerChunks s task rest chunks)

/-- **It does not matter in which chunks input comes.** -/
theorem answerChunks_eq (pending : List UInt8) (chunks : List (List UInt8)) :
    s.answerChunks task pending chunks = s.answerInput task (pending ++ chunks.flatten) := by
  induction chunks generalizing pending with
  | nil => rw [List.flatten_nil, List.append_nil, answerChunks, answerInput]
  | cons chunk chunks ih =>
    rw [answerInput, List.flatten_cons, ← List.append_assoc, Lines.read_append (pending ++ chunk),
      answerAll_append]
    exact congrArg (Outcome.andThen _) (ih (Lines.readComplete (pending ++ chunk)).2)

/-- A session answers the lines of an input one by one. -/
structure LineByLine (s : Session) (task : Task) (input : List UInt8) (lines : List String) :
    Prop where
  /-- No line is left without its answer. -/
  finished : (s.answerInput task input).error = none
  /-- The answers come in the order of the lines, and each is made from its own line alone. -/
  answers : (s.answerInput task input).answers =
    (Lines.significant lines).map fun line => (s.answer task line).line
  /-- What is written has one line for each line that holds something. -/
  written : Text.splitOn '\n' (s.answerInput task input).written.toList =
    ((Lines.significant lines).map fun line => (s.answer task line).line.toList) ++ [[]]
  /-- No answer ends its own line or has any other character below U+0020. -/
  unbroken : ∀ answer ∈ (s.answerInput task input).answers, ∀ c ∈ answer.toList, 0x20 ≤ c.toNat
  /-- The same is answered to input that comes in pieces. -/
  chunks : ∀ chunks, chunks.flatten = input →
    s.answerChunks task [] chunks = s.answerInput task input
  /-- Input that follows is answered as if it stood alone, and behind what was written before. -/
  behind : Lines.Complete input → ∀ behind,
    (s.answerInput task (input ++ behind)).written =
        (s.answerInput task input).written ++ (s.answerInput task behind).written
      ∧ (s.answerInput task (input ++ behind)).error = (s.answerInput task behind).error

/-- **One line in, one line out.** -/
theorem answerInput_lineByLine (s : Session) (task : Task) {input : List UInt8} {lines : List String}
    (h : Lines.Holds input lines) : s.LineByLine task input lines := by
  have hinput : s.answerInput task input =
      ⟨(Lines.significant lines).map fun line => (s.answer task line).line, none⟩ := by
    rw [answerInput, h.read_eq, answerAll_ok]
  have hunbroken : ∀ answer ∈ (s.answerInput task input).answers, Json.Unbroken answer.toList :=
    unbroken_answerAll (Lines.read input)
  constructor
  case finished => rw [hinput]
  case answers => rw [hinput]
  case written =>
    rw [Outcome.splitOn_written fun answer hanswer => (hunbroken answer hanswer).not_mem_newline,
      hinput, List.map_map]
    rfl
  case unbroken => exact hunbroken
  case chunks =>
    intro chunks hchunks
    rw [answerChunks_eq, hchunks, List.nil_append]
  case behind =>
    intro hcomplete behind
    have hboth : s.answerInput task (input ++ behind) =
        (s.answerInput task input).andThen (s.answerInput task behind) := by
      rw [answerInput, hcomplete.read_append, answerAll_append]
      rfl
    rw [hboth, hinput]
    exact ⟨Outcome.written_append .., rfl⟩

/-- A table whose name has two lines, nothing, and a request whose refusal is explained on several. -/
def questions : List String :=
  ["\x7b\"table\": \"a\\nb\"\x7d", " ", byColor]

/-- Three lines, two answers. The first one is a failure and holds the name on its one line. -/
theorem answerInput_questions :
    Lines.Holds (Lines.bytesOf questions) questions
      ∧ (new {} ⟨[Partition.orders]⟩).LineByLine .explain (Lines.bytesOf questions) questions
      ∧ ((new {} ⟨[Partition.orders]⟩).answerInput .explain (Lines.bytesOf questions)).answers = [
          "\x7b\"status\":\"error\",\"code\":\"RQL_CLI_UNKNOWN_TABLE\","
            ++ "\"message\":\"Table 'a\\nb' is not defined\"\x7d",
          ((new {} ⟨[Partition.orders]⟩).answer .explain byColor).line] := by
  have hholds : Lines.Holds (Lines.bytesOf questions) questions :=
    Lines.holds_bytesOf (by decide +kernel)
  have hlines := answerInput_lineByLine (new {} ⟨[Partition.orders]⟩) .explain hholds
  have hsignificant : Lines.significant questions = [questions[0], byColor] := by decide +kernel
  refine ⟨hholds, hlines, ?_⟩
  rw [hlines.answers, hsignificant, List.map_cons, List.map_singleton]
  exact congrArg (· :: _) (by decide +kernel)

end Session

end Rql

import Rql.Proofs.Request.Encoding

/-!
# What percent signs stand for

A key or a value is read in two steps. First every percent sign gives way, with the two characters behind
it, to a byte, and every other character to its bytes in UTF-8; then the bytes have to be those of a text.
`Denotes` is the first step as a relation. It leaves open which two characters make a byte: `Digits` is two
hexadecimal digits, the notation, and `Taken` is what the reader takes, which is also a plus sign with one
digit, because it reads the two characters as it reads any number.

`decode_eq_ok_iff` and `refusedFor_of_decode` say what the reader does with every text. Where no plus sign
stands behind a percent sign the two notations are one (`denotes_digits`), and a text denotes bytes exactly
if two digits follow each of its percent signs (`exists_denotes_digits_iff`). `reads_escapes` puts this
together for the texts of a query string: all of them are read before anything is made of them.
-/

namespace Rql.QueryString

open Numeral (hexValue?)

/-- One of the digits `0` to `9`, `a` to `f` and `A` to `F`. -/
def IsHexDigit (c : Char) : Prop :=
  c.isDigit = true ∨ ('a' ≤ c ∧ c ≤ 'f') ∨ ('A' ≤ c ∧ c ≤ 'F')

/-- Two digits and the byte that they make, the greater one first. -/
def Digits (a b : Char) (byte : UInt8) : Prop :=
  hexValue? a = some (byte.toNat / 16) ∧ hexValue? b = some (byte.toNat % 16)

/-- Two characters that are taken for a byte: two digits, or a plus sign and a digit. -/
def Taken (a b : Char) (byte : UInt8) : Prop :=
  Digits a b byte ∨ (a = '+' ∧ hexValue? b = some byte.toNat)

/-- The text stands for these bytes, where `Escape` says what two characters behind a percent sign stand
for. -/
inductive Denotes (Escape : Char → Char → UInt8 → Prop) : List Char → List UInt8 → Prop
  | nil : Denotes Escape [] []
  | plain {c : Char} {cs : List Char} {bytes : List UInt8} :
      c ≠ '%' → Denotes Escape cs bytes → Denotes Escape (c :: cs) (String.utf8EncodeChar c ++ bytes)
  | escaped {a b : Char} {byte : UInt8} {cs : List Char} {bytes : List UInt8} :
      Escape a b byte → Denotes Escape cs bytes → Denotes Escape ('%' :: a :: b :: cs) (byte :: bytes)

/-- Each percent sign has two digits behind it. -/
def EscapesInDigits (cs : List Char) : Prop :=
  ∀ rest, '%' :: rest <:+ cs → ∃ a b behind, rest = a :: b :: behind ∧ IsHexDigit a ∧ IsHexDigit b

variable {a b c : Char} {byte : UInt8} {cs : List Char} {bytes : List UInt8}

/-! ## Digits -/

theorem exists_hexValue?_iff : (∃ n, hexValue? c = some n) ↔ IsHexDigit c := by
  rw [IsHexDigit, Numeral.hexValue?]
  by_cases hdigit : c.isDigit = true
  · simp [hdigit]
  · by_cases hsmall : 'a' ≤ c ∧ c ≤ 'f'
    · simp [hdigit, hsmall]
    · by_cases hlarge : 'A' ≤ c ∧ c ≤ 'F'
      · simp [hdigit, hsmall, hlarge]
      · simp [hdigit, hsmall, hlarge]

theorem IsHexDigit.ne_percent (h : IsHexDigit c) : c ≠ '%' := by
  rintro rfl
  exact absurd h (by unfold IsHexDigit; decide)

theorem digits_ofNat {high low : Nat} (ha : hexValue? a = some high) (hb : hexValue? b = some low) :
    Digits a b (UInt8.ofNat (16 * high + low)) := by
  have hhigh := Text.hexValue?_lt ha
  have hlow := Text.hexValue?_lt hb
  have hbyte : (UInt8.ofNat (16 * high + low)).toNat = 16 * high + low :=
    UInt8.toNat_ofNat_of_lt' (by simp only [UInt8.size]; omega)
  rw [Digits, hbyte, ha, hb]
  exact ⟨congrArg some (by omega), congrArg some (by omega)⟩

/-- Any two digits make a byte. -/
theorem exists_digits_iff : (∃ byte, Digits a b byte) ↔ IsHexDigit a ∧ IsHexDigit b := by
  rw [← exists_hexValue?_iff, ← exists_hexValue?_iff]
  constructor
  · rintro ⟨byte, ha, hb⟩
    exact ⟨⟨_, ha⟩, ⟨_, hb⟩⟩
  · rintro ⟨⟨high, ha⟩, ⟨low, hb⟩⟩
    exact ⟨_, digits_ofNat ha hb⟩

theorem escapedByte?_eq_some_iff : escapedByte? a b = some byte ↔ Taken a b byte := by
  constructor
  · intro h
    rw [escapedByte?] at h
    split at h
    · exact absurd h (Option.some_ne_none byte).symm
    · rename_i low hb
      split at h
      · rename_i hplus
        refine .inr ⟨hplus, ?_⟩
        have hlow := Text.hexValue?_lt hb
        rw [hb, ← Option.some.inj h]
        exact congrArg some (UInt8.toNat_ofNat_of_lt' (by simp only [UInt8.size]; omega)).symm
      · obtain ⟨high, ha, rfl⟩ := Option.map_eq_some_iff.mp h
        exact .inl (digits_ofNat ha hb)
  · rintro (⟨ha, hb⟩ | ⟨rfl, hb⟩)
    · exact escapedByte?_of_hexValue? ha hb
    · rw [escapedByte?, hb]
      exact congrArg some (UInt8.ofNat_toNat)

/-! ## The bytes of a text -/

/-- **The reader finds the bytes that a text denotes.** -/
theorem bytes?_eq_some_iff : bytes? cs = some bytes ↔ Denotes Taken cs bytes := by
  constructor
  · intro h
    induction cs using bytes?.induct generalizing bytes with
    | case1 =>
      obtain rfl := Option.some.inj h
      exact .nil
    | case2 a b rest byte hbyte ih =>
      rw [bytes?_percent, hbyte] at h
      obtain ⟨behind, hrest, rfl⟩ := Option.map_eq_some_iff.mp h
      exact .escaped (escapedByte?_eq_some_iff.mp hbyte) (ih hrest)
    | case3 a b rest hbyte =>
      rw [bytes?_percent, hbyte] at h
      exact absurd h (Option.some_ne_none bytes).symm
    | case4 rest hshort =>
      -- fewer than two characters behind the percent sign
      match rest with
      | [] => exact absurd h (Option.some_ne_none bytes).symm
      | [_] => exact absurd h (Option.some_ne_none bytes).symm
      | a :: b :: rest => exact (hshort a b rest rfl).elim
    | case5 c rest hc ih =>
      rw [bytes?_cons hc] at h
      obtain ⟨behind, hrest, rfl⟩ := Option.map_eq_some_iff.mp h
      exact .plain hc (ih hrest)
  · intro h
    induction h with
    | nil => rfl
    | plain hc _ ih => rw [bytes?_cons hc, ih]; rfl
    | escaped hbyte _ ih => rw [bytes?_percent, escapedByte?_eq_some_iff.mpr hbyte, ih]; rfl

theorem bytes?_eq_none_iff : bytes? cs = none ↔ ∀ bytes, ¬Denotes Taken cs bytes := by
  rw [Option.eq_none_iff_forall_ne_some]
  exact forall_congr' fun bytes => not_congr bytes?_eq_some_iff

/-- **Without a plus sign behind a percent sign only digits are taken.** -/
theorem denotes_digits (h : ¬['%', '+'] <:+: cs) : Denotes Taken cs bytes ↔ Denotes Digits cs bytes := by
  constructor
  · intro hd
    induction hd with
    | nil => exact .nil
    | plain hc _ ih => exact .plain hc (ih fun hin => h (List.infix_cons hin))
    | @escaped a b _ cs _ htaken _ ih =>
      have hrest : ¬['%', '+'] <:+: cs := fun hin =>
        h (List.infix_cons (List.infix_cons (List.infix_cons hin)))
      rcases htaken with hdigits | ⟨rfl, -⟩
      · exact .escaped hdigits (ih hrest)
      · exact absurd (List.prefix_append ['%', '+'] (b :: cs)).isInfix h
  · intro hd
    induction hd with
    | nil => exact .nil
    | plain hc _ ih => exact .plain hc (ih fun hin => h (List.infix_cons hin))
    | escaped hdigits _ ih =>
      exact .escaped (.inl hdigits)
        (ih fun hin => h (List.infix_cons (List.infix_cons (List.infix_cons hin))))

theorem escapesInDigits_cons (h : c ≠ '%') : EscapesInDigits (c :: cs) ↔ EscapesInDigits cs := by
  refine forall_congr' fun rest => imp_congr_left ?_
  rw [List.suffix_cons_iff, or_iff_right]
  exact fun heq => h (List.cons.inj heq).1.symm

theorem escapesInDigits_percent : EscapesInDigits ('%' :: a :: b :: cs) ↔
    (IsHexDigit a ∧ IsHexDigit b) ∧ EscapesInDigits cs := by
  have hrest (ha : IsHexDigit a) (hb : IsHexDigit b) :
      EscapesInDigits (a :: b :: cs) ↔ EscapesInDigits cs := by
    rw [escapesInDigits_cons ha.ne_percent, escapesInDigits_cons hb.ne_percent]
  constructor
  · intro h
    obtain ⟨_, _, _, heq, ha, hb⟩ := h _ (List.suffix_refl _)
    obtain ⟨rfl, rfl, -⟩ : _ = _ ∧ _ = _ ∧ _ = _ := by simpa using heq
    exact ⟨⟨ha, hb⟩, (hrest ha hb).mp fun rest hin => h rest (hin.trans (List.suffix_cons ..))⟩
  · rintro ⟨⟨ha, hb⟩, h⟩ rest hin
    rcases List.suffix_cons_iff.mp hin with heq | hin
    · exact ⟨a, b, cs, (List.cons.inj heq).2, ha, hb⟩
    · exact (hrest ha hb).mpr h rest hin

/-- **A text denotes bytes exactly if two digits follow each of its percent signs.** -/
theorem exists_denotes_digits_iff : (∃ bytes, Denotes Digits cs bytes) ↔ EscapesInDigits cs := by
  constructor
  · rintro ⟨bytes, h⟩
    induction h with
    | nil => exact fun rest hin => absurd (List.suffix_nil.mp hin) (List.cons_ne_nil _ _)
    | plain hc _ ih => exact (escapesInDigits_cons hc).mpr ih
    | escaped hdigits _ ih =>
      exact escapesInDigits_percent.mpr ⟨exists_digits_iff.mp ⟨_, hdigits⟩, ih⟩
  · intro h
    induction hlength : cs.length using Nat.strong_induction_on generalizing cs with
    | h n ih =>
      match cs with
      | [] => exact ⟨[], .nil⟩
      | c :: cs =>
        by_cases hc : c = '%'
        · subst hc
          obtain ⟨a, b, behind, rfl, ha, hb⟩ := h cs (List.suffix_refl _)
          obtain ⟨byte, hbyte⟩ := exists_digits_iff.mpr ⟨ha, hb⟩
          have hshort : behind.length < n := by simp only [List.length_cons] at hlength; omega
          obtain ⟨bytes, hrest⟩ := ih _ hshort (escapesInDigits_percent.mp h).2 rfl
          exact ⟨_, .escaped hbyte hrest⟩
        · have hshort : cs.length < n := by simp only [List.length_cons] at hlength; omega
          obtain ⟨bytes, hrest⟩ := ih _ hshort ((escapesInDigits_cons hc).mp h) rfl
          exact ⟨_, .plain hc hrest⟩

/-! ## Its text -/

theorem ofBytes?_eq_some_iff {s : String} : ofBytes? bytes = some s ↔ utf8 s = bytes := by
  constructor
  · intro h
    rw [ofBytes?, String.fromUTF8?] at h
    split at h
    · obtain rfl := Option.some.inj h
      rfl
    · exact absurd h (Option.some_ne_none s).symm
  · rintro rfl
    exact ofBytes?_utf8 s

/-- **A text is read as the one whose bytes it denotes.** -/
theorem decode_eq_ok_iff {s : String} : decode cs = .ok s ↔ Denotes Taken cs (utf8 s) := by
  rw [← bytes?_eq_some_iff, decode]
  cases hbytes : bytes? cs with
  | none => simp
  | some bytes =>
    dsimp only
    rw [Option.some_inj, eq_comm (a := bytes), ← ofBytes?_eq_some_iff]
    cases ofBytes? bytes with
    | none => simp
    | some t => simp

/-- The text is refused for this fault: a percent sign without a byte, or bytes without a text. -/
def RefusedFor (cs : List Char) (fault : Fault) : Prop :=
  (fault = .badPercentEscape (.ofList cs) ∧ ∀ bytes, ¬Denotes Taken cs bytes)
    ∨ (fault = .notUtf8 (.ofList cs) ∧ ∃ bytes, Denotes Taken cs bytes ∧ ∀ s, utf8 s ≠ bytes)

theorem refusedFor_of_decode {fault : Fault} (h : decode cs = .error fault) : RefusedFor cs fault := by
  rw [decode] at h
  cases hbytes : bytes? cs with
  | none =>
    rw [hbytes] at h
    exact .inl ⟨(Except.error.inj h).symm, bytes?_eq_none_iff.mp hbytes⟩
  | some bytes =>
    rw [hbytes] at h
    dsimp only at h
    cases htext : ofBytes? bytes with
    | none =>
      rw [htext] at h
      refine .inr ⟨(Except.error.inj h).symm, bytes, bytes?_eq_some_iff.mp hbytes, fun s hs => ?_⟩
      rw [ofBytes?_eq_some_iff.mpr hs] at htext
      exact Option.some_ne_none s htext
    | some s =>
      rw [htext] at h
      exact absurd h (by simp)

/-! ## The texts of a query string -/

/-- The keys and values of a query string, as they are written. -/
def texts (query : String) : List (List Char) :=
  (pairs query).flatMap fun pair => [pair.1, pair.2]

variable {query : String} {params : List (String × String)}

theorem mem_texts {pair : List Char × List Char} (h : pair ∈ pairs query) :
    pair.1 ∈ texts query ∧ pair.2 ∈ texts query :=
  ⟨List.mem_flatMap.mpr ⟨pair, h, List.mem_cons_self⟩,
    List.mem_flatMap.mpr ⟨pair, h, List.mem_cons_of_mem _ List.mem_cons_self⟩⟩

/-- Reading a query string refuses for one of its texts. -/
theorem refusesBy_parameters (query : String) :
    RefusesBy (fun fault => ∃ cs ∈ texts query, RefusedFor cs fault) (parameters query) := by
  have htext : ∀ cs ∈ texts query,
      RefusesBy (fun fault => ∃ cs ∈ texts query, RefusedFor cs fault) (decode cs) :=
    fun cs hcs fault hfault => ⟨cs, hcs, refusedFor_of_decode hfault⟩
  refine RefusesBy.mapM fun pair hpair => ?_
  have hmem := mem_texts hpair
  exact (htext pair.1 hmem.1).bind fun _ _ => (htext pair.2 hmem.2).bind fun _ _ => .ok _

theorem denotes_of_parameters (h : parameters query = .ok params) :
    ∀ cs ∈ texts query, ∃ s, Denotes Taken cs (utf8 s) := by
  intro cs hcs
  obtain ⟨pair, hpair, hcs⟩ := List.mem_flatMap.mp hcs
  obtain ⟨param, hparam⟩ := exists_ok_of_mapM h hpair
  obtain ⟨key, hkey, hparam⟩ := bind_ok hparam
  obtain ⟨value, hvalue, -⟩ := bind_ok hparam
  rcases List.mem_cons.mp hcs with rfl | hcs
  · exact ⟨key, decode_eq_ok_iff.mp hkey⟩
  · obtain rfl := List.mem_singleton.mp hcs
    exact ⟨value, decode_eq_ok_iff.mp hvalue⟩

/-- What is made of the percent signs of a query string. -/
structure ReadsEscapes (config : Config) (table : Table) (query : String) : Prop where
  /-- A key or a value is read as the text whose bytes it denotes, if there is one. -/
  text : ∀ cs ∈ texts query, ∀ s, decode cs = .ok s ↔ Denotes Taken cs (utf8 s)
  /-- Where no plus sign stands behind a percent sign, that is so if two digits follow each percent sign
  and the bytes are those of a text. -/
  digits : ∀ cs ∈ texts query, ¬['%', '+'] <:+: cs →
    (EscapesInDigits cs ↔ ∃ bytes, Denotes Digits cs bytes)
      ∧ ∀ s, decode cs = .ok s ↔ EscapesInDigits cs ∧ Denotes Digits cs (utf8 s)
  /-- The query string stands for what its texts denote. -/
  statement : ∀ params, List.Forall₂ (fun pair param =>
      Denotes Taken pair.1 (utf8 param.1) ∧ Denotes Taken pair.2 (utf8 param.2)) (pairs query) params →
    QueryString.statement config table query = Statement.ofParameters config table params
  /-- It is malformed if one of its texts denotes nothing, and the fault names such a text. -/
  refused : (∃ cs ∈ texts query, ∀ s, ¬Denotes Taken cs (utf8 s)) →
    ∃ cs ∈ texts query, ∃ fault, RefusedFor cs fault
      ∧ QueryString.statement config table query = .error (.malformed fault)

/-- **Percent signs stand for bytes**, with two digits each, or with a plus sign and one digit. -/
theorem reads_escapes (config : Config) (table : Table) (query : String) :
    ReadsEscapes config table query where
  text _ _ _ := decode_eq_ok_iff
  digits cs _ hplus := by
    refine ⟨exists_denotes_digits_iff.symm, fun s => ?_⟩
    rw [decode_eq_ok_iff, denotes_digits hplus, ← exists_denotes_digits_iff, iff_and_self]
    exact fun h => ⟨_, h⟩
  statement params h := by
    have hparams : parameters query = .ok params := parameters_of_decode <|
      h.imp fun _ _ hpair => ⟨decode_eq_ok_iff.mpr hpair.1, decode_eq_ok_iff.mpr hpair.2⟩
    rw [QueryString.statement, hparams]
  refused := by
    rintro ⟨cs, hcs, hnone⟩
    rw [QueryString.statement]
    cases hparams : parameters query with
    | ok params =>
      obtain ⟨s, hs⟩ := denotes_of_parameters hparams cs hcs
      exact absurd hs (hnone s)
    | error fault =>
      obtain ⟨cs', hcs', hfault⟩ := refusesBy_parameters query fault hparams
      exact ⟨cs', hcs', fault, hfault, rfl⟩

/-- The letter of two bytes takes two escapes. One of them alone is no text. -/
theorem reads_escapes_cafe :
    ¬['%', '+'] <:+: "Caf%C3%a9".toList
      ∧ EscapesInDigits "Caf%C3%a9".toList
      ∧ Denotes Digits "Caf%C3%a9".toList (utf8 "Café")
      ∧ (∀ s, ¬Denotes Taken "%A9".toList (utf8 s))
      ∧ ∃ cs ∈ texts "%A9=Caf%C3%a9", ∃ fault, RefusedFor cs fault
        ∧ statement {} places "%A9=Caf%C3%a9" = .error (.malformed fault) := by
  have hplus : ¬['%', '+'] <:+: "Caf%C3%a9".toList := by decide +kernel
  have hread : decode "Caf%C3%a9".toList = .ok "Café" := ok_of_toOption (by decide +kernel)
  have hhalf : (decode "%A9".toList).toOption = none := by decide +kernel
  have h := reads_escapes {} places "%A9=Caf%C3%a9"
  have hdigits := ((h.digits _ (by decide +kernel) hplus).2 "Café").mp hread
  have hnone : ∀ s, ¬Denotes Taken "%A9".toList (utf8 s) := by
    intro s hs
    rw [(h.text _ (by decide +kernel) s).mpr hs] at hhalf
    exact Option.some_ne_none s hhalf
  exact ⟨hplus, hdigits.1, hdigits.2, hnone, h.refused ⟨"%A9".toList, by decide +kernel, hnone⟩⟩

/-- A plus sign and one digit are taken for a byte. -/
theorem statement_plusDigit :
    "%+5".toList ∈ texts "city=%+5" ∧ ¬EscapesInDigits "%+5".toList
      ∧ decode "%+5".toList = .ok "\x05"
      ∧ statement {} places "city=%+5" =
        .ok { table := "places", predicates := [.compare ⟨.eq, "city", [.bare "\x05"]⟩] } := by
  refine ⟨by decide +kernel, fun h => ?_, ok_of_toOption (by decide +kernel),
    ok_of_toOption (by decide +kernel)⟩
  obtain ⟨a, b, behind, heq, ha, -⟩ := h ['+', '5'] (List.suffix_refl _)
  obtain ⟨rfl, -⟩ := List.cons.inj heq
  exact absurd ha (by unfold IsHexDigit; decide)

end Rql.QueryString

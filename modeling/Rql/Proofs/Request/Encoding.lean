import Mathlib.Data.List.TakeWhile
import Rql.Proofs.Lists
import Rql.Proofs.Outcome
import Rql.Proofs.Text.Alphanumeric
import Rql.Proofs.Text.Cuts
import Rql.Request.Statement

/-!
# Query strings written with percent signs

Keys and values may hold every character, the marks of the query string among them. They are written
there byte by byte: a byte by its two hexadecimal digits behind a percent sign, or by itself if it is
one of the few characters that need none (`Encodes`). A query string is `Written` from parameters if it
is made of such texts with the marks between them.

In a text written so there are no marks (`Encodes.not_mem`). The cuts of the reader meet the marks that
were put between keys and values and no others, so that it finds the parameters again
(`parameters_of_written`). The main result, `statement_of_written`, is that the query string stands for
what its parameters stand for.
-/

namespace Rql.QueryString

/-- The characters that a key or a value may hold as they are. -/
def isUnreserved (c : Char) : Bool :=
  c.isAlphanum || ['-', '_', '.', '~'].contains c

/-- The bytes of a text in UTF-8. -/
def utf8 (s : String) : List UInt8 :=
  s.toUTF8.data.toList

/-- The text is a way to write these bytes. Every byte may be written by its digits, whose letters may
have either case, and a byte that is no unreserved character has to be. -/
inductive Encodes : List UInt8 → List Char → Prop
  | nil : Encodes [] []
  | plain {c : Char} {bytes : List UInt8} {cs : List Char} :
      isUnreserved c = true → Encodes bytes cs → Encodes (UInt8.ofNat c.toNat :: bytes) (c :: cs)
  | escaped {byte : UInt8} {a b : Char} {bytes : List UInt8} {cs : List Char} :
      Numeral.hexValue? a = some (byte.toNat / 16) → Numeral.hexValue? b = some (byte.toNat % 16) →
      Encodes bytes cs → Encodes (byte :: bytes) ('%' :: a :: b :: cs)

/-- A parameter with its key and its value as they are written. -/
def EncodesPair (param : String × String) (written : List Char × List Char) : Prop :=
  Encodes (utf8 param.1) written.1 ∧ Encodes (utf8 param.2) written.2

/-- A written key and a written value with the mark between them. -/
def joinPair (pair : List Char × List Char) : List Char :=
  pair.1 ++ '=' :: pair.2

/-- Written pairs with the mark between neighbours. -/
def joinPairs (written : List (List Char × List Char)) : String :=
  .ofList (['&'].intercalate (written.map joinPair))

/-- The query string is a way to write these parameters. -/
def Written (params : List (String × String)) (query : String) : Prop :=
  ∃ written, List.Forall₂ EncodesPair params written ∧ query = joinPairs written

variable {bytes : List UInt8} {cs : List Char}

/-! ## The characters of a written text -/

theorem code_of_isUnreserved {c : Char} (h : isUnreserved c = true) : c.toNat ≤ 127 := by
  rw [isUnreserved, Bool.or_eq_true, List.contains_iff_mem] at h
  rcases h with halphanum | hother
  · have := Text.code_of_isAlphanum halphanum
    omega
  · simp only [List.mem_cons, List.not_mem_nil, or_false] at hother
    rcases hother with rfl | rfl | rfl | rfl <;> decide

theorem isUnreserved_of_hexValue? {c : Char} {n : Nat} (h : Numeral.hexValue? c = some n) :
    isUnreserved c = true := by
  rw [isUnreserved, Text.isAlphanum_of_hexValue? h, Bool.true_or]

/-- The text has none of the marks that the reader looks for in a query string. -/
def Bare (cs : List Char) : Prop :=
  ∀ mark ∈ ['?', '&', '=', '('], mark ∉ cs

/-- **No mark stands in a written text.** -/
theorem Encodes.bare (h : Encodes bytes cs) : Bare cs := by
  intro mark hmark
  have ⟨hreserved, hpercent⟩ : isUnreserved mark = false ∧ mark ≠ '%' := by
    simp only [List.mem_cons, List.not_mem_nil, or_false] at hmark
    rcases hmark with rfl | rfl | rfl | rfl <;> decide
  have hne : ∀ c, isUnreserved c = true → mark ≠ c := by
    rintro c hc rfl
    rw [hreserved] at hc
    exact absurd hc Bool.false_ne_true
  induction h with
  | nil => exact List.not_mem_nil
  | plain hc _ ih => exact List.not_mem_cons_of_ne_of_not_mem (hne _ hc) ih
  | escaped ha hb _ ih =>
    have ha := hne _ (isUnreserved_of_hexValue? ha)
    have hb := hne _ (isUnreserved_of_hexValue? hb)
    exact List.not_mem_cons_of_ne_of_not_mem hpercent
      (List.not_mem_cons_of_ne_of_not_mem ha (List.not_mem_cons_of_ne_of_not_mem hb ih))

/-! ## Its bytes -/

theorem escapedByte?_of_hexValue? {byte : UInt8} {a b : Char}
    (ha : Numeral.hexValue? a = some (byte.toNat / 16))
    (hb : Numeral.hexValue? b = some (byte.toNat % 16)) : escapedByte? a b = some byte := by
  have hplus : a ≠ '+' := by
    rintro rfl
    exact absurd ha (by simp [show Numeral.hexValue? '+' = none from rfl])
  rw [escapedByte?, hb, ha]
  dsimp only
  rw [if_neg hplus, Option.map_some, Nat.div_add_mod, UInt8.ofNat_toNat]

theorem utf8EncodeChar_of_isUnreserved {c : Char} (h : isUnreserved c = true) :
    String.utf8EncodeChar c = [UInt8.ofNat c.toNat] :=
  if_pos (code_of_isUnreserved h)

theorem bytes?_cons {c : Char} (h : c ≠ '%') (cs : List Char) :
    bytes? (c :: cs) = (bytes? cs).map (String.utf8EncodeChar c ++ ·) := by
  rw [bytes?.eq_def]
  exact if_neg h

theorem bytes?_percent (a b : Char) (cs : List Char) :
    bytes? ('%' :: a :: b :: cs) = match escapedByte? a b with
      | some byte => (bytes? cs).map (byte :: ·)
      | none => none := by
  rw [bytes?.eq_def]
  exact if_pos rfl

/-- **A written text gives its bytes back.** -/
theorem bytes?_of_encodes (h : Encodes bytes cs) : bytes? cs = some bytes := by
  induction h with
  | nil => rfl
  | @plain c bytes cs hc _ ih =>
    have hpercent : c ≠ '%' := by
      rintro rfl
      exact absurd hc (by decide)
    rw [bytes?_cons hpercent, ih, utf8EncodeChar_of_isUnreserved hc]
    rfl
  | escaped ha hb _ ih =>
    rw [bytes?_percent, escapedByte?_of_hexValue? ha hb, ih]
    rfl

theorem ofBytes?_utf8 (s : String) : ofBytes? (utf8 s) = some s := by
  rw [ofBytes?, utf8, Array.toArray_toList, String.fromUTF8?]
  rw [String.toUTF8_eq_toByteArray, dif_pos s.isValidUTF8]
  rfl

theorem decode_of_encodes {s : String} (h : Encodes (utf8 s) cs) : decode cs = .ok s := by
  rw [decode, bytes?_of_encodes h]
  dsimp only
  rw [ofBytes?_utf8]

/-! ## The cuts -/

theorem splitPair_joinPair {pair : List Char × List Char} (h : Bare pair.1) :
    splitPair (joinPair pair) = pair := by
  have hcall : ¬ pair.1.contains '(' = true := fun hmem =>
    h '(' (by decide) (List.contains_iff_mem.mp hmem)
  rw [splitPair, joinPair, Text.splitFirst?_append (h '=' (by decide))]
  exact if_neg hcall

theorem not_mem_joinPair {pair : List Char × List Char} (h : Bare pair.1 ∧ Bare pair.2) {mark : Char}
    (hmark : mark ∈ ['?', '&']) : mark ∉ joinPair pair := by
  have ⟨hmarks, hequals⟩ : mark ∈ ['?', '&', '=', '('] ∧ mark ≠ '=' := by
    simp only [List.mem_cons, List.not_mem_nil, or_false] at hmark
    rcases hmark with rfl | rfl <;> decide
  rw [joinPair, List.mem_append, List.mem_cons]
  rintro (hkey | heq | hvalue)
  · exact h.1 mark hmarks hkey
  · exact hequals heq
  · exact h.2 mark hmarks hvalue

/-- **The reader cuts where the marks were put.** -/
theorem pairs_joinPairs {written : List (List Char × List Char)}
    (h : ∀ pair ∈ written, Bare pair.1 ∧ Bare pair.2) : pairs (joinPairs written) = written := by
  have hpieces : ∀ mark ∈ ['?', '&'], ∀ piece ∈ written.map joinPair, mark ∉ piece := by
    intro mark hmark piece hpiece
    obtain ⟨pair, hpair, rfl⟩ := List.mem_map.mp hpiece
    exact not_mem_joinPair (h pair hpair) hmark
  have hquestion : '?' ∉ ['&'].intercalate (written.map joinPair) := by
    intro hmem
    rcases mem_intercalate hmem with heq | ⟨piece, hpiece, hmem⟩
    · exact absurd heq (by decide)
    · exact hpieces '?' (by decide) piece hpiece hmem
  have hfront : (['&'].intercalate (written.map joinPair)).dropWhile (· == '?')
      = ['&'].intercalate (written.map joinPair) :=
    List.dropWhile_eq_self_iff.mpr fun hpos heq =>
      hquestion (eq_of_beq heq ▸ List.getElem_mem hpos)
  have hne : ∀ piece ∈ written.map joinPair, piece ≠ [] := by
    intro piece hpiece
    obtain ⟨pair, -, rfl⟩ := List.mem_map.mp hpiece
    exact List.append_ne_nil_of_right_ne_nil pair.1 (List.cons_ne_nil '=' pair.2)
  have hpair : ∀ pair ∈ written, splitPair (joinPair pair) = pair := fun pair hpair =>
    splitPair_joinPair (h pair hpair).1
  rw [pairs, joinPairs, String.toList_ofList, hfront,
    Text.filter_splitOn_intercalate (hpieces '&' (by decide)) hne, List.map_map]
  exact (List.map_congr_left hpair).trans (List.map_id written)

/-! ## How to write parameters -/

/-- A byte as it is if it is an unreserved character, and by its digits otherwise. -/
def writeByte (byte : UInt8) : List Char :=
  let c := Char.ofNat byte.toNat
  if isUnreserved c then [c]
  else ['%', Json.hexDigit (byte.toNat / 16), Json.hexDigit (byte.toNat % 16)]

/-- A text with percent signs where they are needed. -/
def encode (s : String) : List Char :=
  (utf8 s).flatMap writeByte

/-- A query string of these parameters. -/
def write (params : List (String × String)) : String :=
  joinPairs (params.map fun param => (encode param.1, encode param.2))

theorem ofNat_toNat_ofNat (byte : UInt8) :
    UInt8.ofNat (Char.ofNat byte.toNat).toNat = byte := by
  have hvalid : byte.toNat.isValidChar := .inl (Nat.lt_trans byte.toNat_lt (by decide))
  rw [Char.ofNat, dif_pos hvalid]
  exact UInt8.ofNat_toNat

theorem encodes_flatMap (bytes : List UInt8) : Encodes bytes (bytes.flatMap writeByte) := by
  induction bytes with
  | nil => exact .nil
  | cons byte bytes ih =>
    rw [List.flatMap_cons, writeByte]
    split
    · rename_i hplain
      have := Encodes.plain hplain ih
      rwa [ofNat_toNat_ofNat] at this
    · have hbyte := byte.toNat_lt
      exact .escaped (Text.hexValue?_hexDigit _ (by omega)) (Text.hexValue?_hexDigit _ (by omega)) ih

/-- **All parameters can be written.** -/
theorem written_write (params : List (String × String)) : Written params (write params) := by
  refine ⟨_, ?_, rfl⟩
  rw [List.forall₂_map_right_iff, List.forall₂_same]
  exact fun param _ => ⟨encodes_flatMap _, encodes_flatMap _⟩

/-! ## The parameters -/

variable {params : List (String × String)} {query : String}

theorem bare_of_encodesPair {written : List (List Char × List Char)}
    (h : List.Forall₂ EncodesPair params written) :
    ∀ pair ∈ written, Bare pair.1 ∧ Bare pair.2 := by
  induction h with
  | nil => exact fun pair hpair => absurd hpair List.not_mem_nil
  | cons hhead _ ih => exact List.forall_mem_cons.mpr ⟨⟨hhead.1.bare, hhead.2.bare⟩, ih⟩

/-- The parameters of a query string are those that its keys and values are read as. -/
theorem parameters_of_decode
    (h : List.Forall₂ (fun pair param => decode pair.1 = .ok param.1 ∧ decode pair.2 = .ok param.2)
      (pairs query) params) : parameters query = .ok params := by
  refine mapM_of_forall₂ (h.imp fun pair param hpair => ?_)
  show (do return (← decode pair.1, ← decode pair.2) : Except Fault _) = .ok param
  rw [hpair.1, hpair.2]
  rfl

theorem parameters_of_written (h : Written params query) : parameters query = .ok params := by
  obtain ⟨written, hwritten, rfl⟩ := h
  refine parameters_of_decode ?_
  rw [pairs_joinPairs (bare_of_encodesPair hwritten)]
  exact List.Forall₂.flip (hwritten.imp fun param pair hpair =>
    ⟨decode_of_encodes hpair.1, decode_of_encodes hpair.2⟩)

/-- **A query string stands for what the parameters stand for that are written in it**, be that a
statement or a fault. -/
theorem statement_of_written (config : Config) (table : Table) (h : Written params query) :
    statement config table query = Statement.ofParameters config table params := by
  rw [statement, parameters_of_written h]

/-- A table without columns. -/
def places : Table where
  name := "places"
  backend := .search

/-- The value has marks of the query string and a letter of two bytes in it, and the other key is
empty. -/
def clashing : List (String × String) :=
  [("city", "São & 50%?"), ("", "=")]

theorem statement_clashing :
    Written clashing "city=S%c3%a3o%20%26%2050%25%3f&=%3d" ∧
      statement {} places "city=S%c3%a3o%20%26%2050%25%3f&=%3d" =
        .ok { table := "places", predicates := [.compare ⟨.eq, "city", [.bare "São & 50%?"]⟩] } := by
  have hwrite : write clashing = "city=S%c3%a3o%20%26%2050%25%3f&=%3d" := by decide +kernel
  have h : Written clashing "city=S%c3%a3o%20%26%2050%25%3f&=%3d" :=
    hwrite ▸ written_write clashing
  have hstatement := statement_of_written {} places h
  exact ⟨h, hstatement.trans (ok_of_toOption (by decide +kernel))⟩

end Rql.QueryString

import Rql.Json.Basic
import Rql.Proofs.Text.Alphanumeric

/-!
# Written values stand on one line

The lines of an answer are counted by their ends, so no value may bring one of its own, whatever texts
it is made of. What is shown is more: a written value has no character below U+0020 (`unbroken_render`).

Such characters could only come from strings, where `escape` replaces each of them. Everything else that
is written are digits, signs and marks.
-/

namespace Rql.Json

variable {cs ds : List Char}

/-- No character below U+0020, so nothing that ends a line. -/
def Unbroken (cs : List Char) : Prop :=
  ∀ c ∈ cs, 0x20 ≤ c.toNat

instance (cs : List Char) : Decidable (Unbroken cs) :=
  List.decidableBAll (fun c : Char => 0x20 ≤ c.toNat) cs

namespace Unbroken

theorem not_mem_newline (h : Unbroken cs) : '\n' ∉ cs := by
  intro hmem
  have hcode : 0x20 ≤ '\n'.toNat := h '\n' hmem
  exact absurd hcode (by decide)

theorem append (hcs : Unbroken cs) (hds : Unbroken ds) : Unbroken (cs ++ ds) := by
  intro c hc
  rcases List.mem_append.mp hc with hfront | hbehind
  · exact hcs c hfront
  · exact hds c hbehind

theorem cons {c : Char} (hc : 0x20 ≤ c.toNat) (hcs : Unbroken cs) : Unbroken (c :: cs) :=
  List.forall_mem_cons.mpr ⟨hc, hcs⟩

theorem subset (hcs : Unbroken cs) (h : ds ⊆ cs) : Unbroken ds :=
  fun c hc => hcs c (h hc)

theorem replicate {c : Char} (hc : 0x20 ≤ c.toNat) (n : Nat) : Unbroken (List.replicate n c) := by
  intro d hd
  rw [List.eq_of_mem_replicate hd]
  exact hc

theorem join {s t : String} (hs : Unbroken s.toList) (ht : Unbroken t.toList) :
    Unbroken (s ++ t).toList := by
  rw [String.toList_append]
  exact hs.append ht

end Unbroken

/-! ## Numbers -/

theorem unbroken_decimalDigits (n : Nat) : Unbroken (Binary64.decimalDigits n) := by
  intro c hc
  have hdigit : c.isDigit = true := Nat.isDigit_of_mem_toDigits (by omega) (by omega) hc
  have hcode := Text.isDigit_iff.mp hdigit
  omega

theorem unbroken_positional (hcs : Unbroken cs) (leading : Int) :
    Unbroken (Binary64.positional cs leading) := by
  have hzeros : ∀ n, Unbroken (List.replicate n '0') := Unbroken.replicate (by decide)
  unfold Binary64.positional
  split
  · exact .cons (by decide) (.cons (by decide) ((hzeros _).append hcs))
  · have hpadded : Unbroken (cs ++ List.replicate (leading.toNat + 1 - cs.length) '0') :=
      hcs.append (hzeros _)
    refine .append (hpadded.subset (List.take_subset ..)) (.cons (by decide) ?_)
    split
    · decide
    · exact hpadded.subset (List.drop_subset ..)

theorem unbroken_scientific (hcs : Unbroken cs) (leading : Int) :
    Unbroken (Binary64.scientific cs leading) := by
  have hsign : 0x20 ≤ (if leading < 0 then '-' else '+').toNat := by split <;> decide
  have hexponent := unbroken_decimalDigits leading.natAbs
  unfold Binary64.scientific
  refine .append ?_ (.cons (by decide) (.cons hsign hexponent))
  split
  · next first second rest =>
    obtain ⟨hfirst, hrest⟩ := List.forall_mem_cons.mp hcs
    exact .cons hfirst (.cons (by decide) hrest)
  · exact hcs

theorem unbroken_renderReal (layout : Binary64.Layout) (x : Binary64) :
    Unbroken (x.render layout).toList := by
  have hdigits := unbroken_decimalDigits x.shortest.1
  have htext (leading : Int) : Unbroken
      (if layout.least ≤ leading ∧ leading < layout.beyond
        then Binary64.positional (Binary64.decimalDigits x.shortest.1) leading
        else Binary64.scientific (Binary64.decimalDigits x.shortest.1) leading) := by
    split
    · exact unbroken_positional hdigits leading
    · exact unbroken_scientific hdigits leading
  rw [Binary64.render, String.toList_ofList]
  split
  · exact .cons (by decide) (htext _)
  · exact htext _

theorem unbroken_renderNumber (n : Number) : Unbroken (renderNumber n).toList := by
  cases n with
  | int n =>
    rw [renderNumber, renderInt, String.toList_ofList]
    refine .append ?_ (unbroken_decimalDigits n.natAbs)
    split <;> decide
  | real x => exact unbroken_renderReal numberLayout x

/-! ## Strings -/

theorem code_hexDigit : ∀ n < 16, 0x20 ≤ (hexDigit n).toNat := by
  decide

/-- A character below U+0020 is spelled with others, and every other one is none. -/
theorem unbroken_escape (c : Char) : Unbroken (escape c) := by
  have hhigh (hlow : c.toNat < 0x20) : 0x20 ≤ (hexDigit (c.toNat / 16)).toNat :=
    code_hexDigit _ (by omega)
  have hlast : 0x20 ≤ (hexDigit (c.toNat % 16)).toNat :=
    code_hexDigit _ (by omega)
  unfold escape
  split
  -- the seven characters with an escape of their own
  iterate 7 decide
  split
  · next hlow =>
    have hmark : Unbroken ['\\', 'u', '0', '0'] := by decide
    exact hmark.append (.cons (hhigh hlow) (.cons hlast (by decide)))
  · next hother => exact .cons (by omega) (by decide)

theorem unbroken_renderString (s : String) : Unbroken (renderString s).toList := by
  rw [renderString, String.toList_ofList]
  refine .cons (by decide) (.append ?_ (by decide))
  intro c hc
  obtain ⟨d, _, hd⟩ := List.mem_flatMap.mp hc
  exact unbroken_escape d c hd

/-! ## Values -/

mutual

/-- **A written value has no character below U+0020**, whatever characters its strings have. -/
theorem unbroken_render : (j : Json) → Unbroken j.render.toList
  | .null => by decide
  | .bool true => by decide
  | .bool false => by decide
  | .number n => unbroken_renderNumber n
  | .string s => unbroken_renderString s
  | .array items => .join (.join (by decide) (unbroken_renderItems items)) (by decide)
  | .object members => .join (.join (by decide) (unbroken_renderMembers members)) (by decide)

theorem unbroken_renderItems : (items : List Json) → Unbroken (renderItems items).toList
  | [] => by decide
  | [item] => unbroken_render item
  | item :: next :: rest =>
      have hitem : Unbroken (item.render ++ ",").toList := .join (unbroken_render item) (by decide)
      hitem.join (unbroken_renderItems (next :: rest))

theorem unbroken_renderMembers : (members : List (String × Json)) →
    Unbroken (renderMembers members).toList
  | [] => by decide
  | [(name, value)] =>
      .join (.join (unbroken_renderString name) (by decide)) (unbroken_render value)
  | (name, value) :: next :: rest =>
      have hmember : Unbroken (renderString name ++ ":" ++ value.render).toList :=
        .join (.join (unbroken_renderString name) (by decide)) (unbroken_render value)
      .join (.join hmember (by decide)) (unbroken_renderMembers (next :: rest))

end

end Rql.Json

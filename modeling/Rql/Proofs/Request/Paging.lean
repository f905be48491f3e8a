import Rql.Proofs.Lists
import Rql.Proofs.Request.Rearrangement

/-!
# Pages of rows

The page of a statement comes from three classes of parameters, and of each class the last one counts,
wherever it stands. `lastCount?` finds what it says in the request itself, before anything is put together:
the size of the page (`sizeOf`, by default that of the settings) and its number.

A page number decides the offset on its own. Page `n` begins at row `(n - 1) * size`, so that every row is on
one page, that with the number `row / size + 1`. Such a page can be had if its first row has an index below
`2 ^ 64`. There is no other reason to refuse a request whose parameters are all in order (`InOrder`).
-/

namespace Rql

namespace Config

/-- Settings that are accepted have a page size, within the greatest one. -/
theorem pageSize_of_validate {config : Config} (h : config.validate = .ok ()) :
    1 ≤ config.defaultPageSize ∧ config.defaultPageSize ≤ config.maxPageSize := by
  rw [validate] at h
  split at h
  · exact absurd h (by simp)
  · split at h
    · exact absurd h (by simp)
    · omega

end Config

/-- The row is one of the page. -/
def Page.Covers (p : Page) (row : Nat) : Prop :=
  p.offset ≤ row ∧ row < p.offset + p.maxRows

/-- The rows of a page are those whose index, counted in pages, is that of the page. -/
theorem Page.covers_iff {p : Page} {n : Nat} (hsize : 1 ≤ p.maxRows) (hn : 1 ≤ n)
    (hoffset : p.offset = (n - 1) * p.maxRows) (row : Nat) :
    p.Covers row ↔ n = row / p.maxRows + 1 := by
  have hdiv : row / p.maxRows = n - 1 ↔ _ := Nat.div_eq_iff hsize
  rw [Page.Covers, hoffset]
  omega

namespace Parameter

variable {config : Config} {key value what : String} {n : Nat} {p : Parameter}

/-! ## Counts -/

theorem readCount_ok_iff : readCount what value = .ok n ↔ Numeral.count? value = some n := by
  rw [readCount]
  cases Numeral.count? value <;> simp

theorem readPage_ok_iff : readPage value = .ok n ↔ Numeral.count? value = some n ∧ 1 ≤ n := by
  constructor
  · intro h
    obtain ⟨number, hcount, h⟩ := bind_ok h
    split at h
    · exact absurd h throw_ne_ok
    · obtain rfl := Except.ok.inj h
      exact ⟨readCount_ok_iff.mp hcount, by omega⟩
  · rintro ⟨hcount, hpos⟩
    rw [readPage, readCount_ok_iff.mpr hcount]
    exact if_neg (by omega)

theorem readPageSize_ok_iff {greatest : Nat} :
    readPageSize greatest value = .ok n ↔
      Numeral.count? value = some n ∧ 1 ≤ n ∧ n ≤ greatest := by
  constructor
  · intro h
    obtain ⟨size, hcount, h⟩ := bind_ok h
    split at h
    · exact absurd h throw_ne_ok
    · split at h
      · exact absurd h throw_ne_ok
      · obtain rfl := Except.ok.inj h
        exact ⟨readCount_ok_iff.mp hcount, by omega, by omega⟩
  · rintro ⟨hcount, hpos, hle⟩
    rw [readPageSize, readCount_ok_iff.mpr hcount]
    exact (if_neg (by omega)).trans (if_neg (by omega))

/-- The parameter can be read on its own: its count is one, and a number or size of a page within its
bounds; its orders or its predicate are accepted. -/
def InOrder (config : Config) (key value : String) : Prop :=
  match reserved? key with
  | some .order => ∃ orders, Order.readList value = .ok orders
  | some .pageSize => ∃ size, Numeral.count? value = some size ∧ 1 ≤ size ∧ size ≤ config.maxPageSize
  | some .offset => ∃ rows, Numeral.count? value = some rows
  | some .page => ∃ number, Numeral.count? value = some number ∧ 1 ≤ number
  | some .marker | some .response => True
  | none => ∃ p, readPredicate key value = .ok p

theorem inOrder_iff : InOrder config key value ↔ ∃ p, read config key value = .ok p := by
  rw [InOrder, read]
  cases reserved? key with
  | none => exact exists_map_ok_iff.symm
  | some reserved =>
    cases reserved with
    | order => exact exists_map_ok_iff.symm
    | pageSize => simp only [exists_map_ok_iff, readPageSize_ok_iff]
    | offset => simp only [exists_map_ok_iff, readCount_ok_iff]
    | page => simp only [exists_map_ok_iff, readPage_ok_iff]
    | marker => exact iff_of_true trivial ⟨_, rfl⟩
    | response => exact iff_of_true trivial ⟨_, rfl⟩

/-- What a parameter says about one class is the count that it holds, or nothing if it is of another
class. -/
theorem count_of_read {what : Parameter → Option Nat} {r : Reserved}
    (h : read config key value = .ok p) (hclass : ∀ n, what p = some n → p.matter = some r)
    (hcount : reserved? key = some r → what p = Numeral.count? value) :
    what p = if reserved? key = some r then Numeral.count? value else none := by
  by_cases hkey : reserved? key = some r
  · rw [if_pos hkey, hcount hkey]
  · rw [if_neg hkey, Option.eq_none_iff_forall_ne_some]
    intro n hn
    exact hkey ((matter_of_read h).symm.trans (hclass n hn))

theorem page?_of_read (h : read config key value = .ok p) :
    p.page? = if reserved? key = some .page then Numeral.count? value else none := by
  refine count_of_read h (fun n hn => ?_) fun hkey => ?_
  · cases p with
    | page number => rfl
    | _ => exact absurd hn.symm (Option.some_ne_none n)
  · rw [read, hkey] at h
    obtain ⟨number, hnumber, rfl⟩ := map_ok h
    exact (readPage_ok_iff.mp hnumber).1.symm

theorem pageSize?_of_read (h : read config key value = .ok p) :
    p.pageSize? = if reserved? key = some .pageSize then Numeral.count? value else none := by
  refine count_of_read h (fun n hn => ?_) fun hkey => ?_
  · cases p with
    | pageSize size => rfl
    | _ => exact absurd hn.symm (Option.some_ne_none n)
  · rw [read, hkey] at h
    obtain ⟨size, hsize, rfl⟩ := map_ok h
    exact (readPageSize_ok_iff.mp hsize).1.symm

end Parameter

namespace Statement

variable {config : Config} {table : Table} {params : List (String × String)} {read : List Parameter}
  {s : Statement} {n : Nat}

/-! ## What a request says last -/

/-- The values of the parameters of one class, in their order. -/
def valuesFor (r : Parameter.Reserved) (params : List (String × String)) : List String :=
  (significant params).filterMap fun param =>
    if Parameter.reserved? param.1 = some r then some param.2 else none

/-- The count that the last parameter of a class holds. -/
def lastCount? (r : Parameter.Reserved) (params : List (String × String)) : Option Nat :=
  (valuesFor r params).getLast?.bind Numeral.count?

/-- The size of the page that is asked for. -/
def sizeOf (config : Config) (params : List (String × String)) : Nat :=
  (lastCount? .pageSize params).getD config.defaultPageSize

/-- Every parameter of a request is in order. -/
def AllInOrder (config : Config) (params : List (String × String)) : Prop :=
  ∀ param ∈ significant params, Parameter.InOrder config param.1 param.2

theorem exists_given_iff : (∃ read, given config params = .ok read) ↔ AllInOrder config params := by
  rw [given, exists_mapM_ok_iff]
  exact forall₂_congr fun param _ => Parameter.inOrder_iff.symm

theorem mem_valuesFor {r : Parameter.Reserved} {value : String} :
    value ∈ valuesFor r params ↔
      ∃ key, (key, value) ∈ significant params ∧ Parameter.reserved? key = some r := by
  rw [valuesFor, List.mem_filterMap]
  constructor
  · rintro ⟨⟨key, value'⟩, hmem, hvalue⟩
    split at hvalue
    · next hkey =>
      obtain rfl := Option.some.inj hvalue
      exact ⟨key, hmem, hkey⟩
    · exact absurd hvalue (Option.some_ne_none value).symm
  · rintro ⟨key, hmem, hkey⟩
    exact ⟨(key, value), hmem, if_pos hkey⟩

/-- Numbers and sizes of pages are counted from one, and a size has its bound. -/
theorem count_of_mem (h : AllInOrder config params) {r : Parameter.Reserved}
    (hr : r = .page ∨ r = .pageSize) {value : String} (hvalue : value ∈ valuesFor r params) :
    ∃ count, Numeral.count? value = some count ∧ 1 ≤ count
      ∧ (r = .pageSize → count ≤ config.maxPageSize) := by
  obtain ⟨key, hmem, hkey⟩ := mem_valuesFor.mp hvalue
  have hin : Parameter.InOrder config key value := h (key, value) hmem
  rw [Parameter.InOrder, hkey] at hin
  rcases hr with rfl | rfl
  · obtain ⟨number, hnumber, hpos⟩ := hin
    exact ⟨number, hnumber, hpos, nofun⟩
  · obtain ⟨size, hsize, hpos, hle⟩ := hin
    exact ⟨size, hsize, hpos, fun _ => hle⟩

/-- The last thing that the parameters say about a count is what the last value of the class holds. -/
theorem last?_eq_lastCount? {what : Parameter → Option Nat} {r : Parameter.Reserved}
    (hread : given config params = .ok read) (hr : r = .page ∨ r = .pageSize)
    (hwhat : ∀ key value p, Parameter.read config key value = .ok p →
      what p = if Parameter.reserved? key = some r then Numeral.count? value else none) :
    last? what read = lastCount? r params := by
  have hall : read.filterMap what = (valuesFor r params).filterMap Numeral.count? := by
    rw [valuesFor, List.filterMap_filterMap]
    refine filterMap_of_mapM (fun param _ p hp => ?_) hread
    rw [hwhat param.1 param.2 p hp]
    split <;> rfl
  have hcount : ∀ value ∈ valuesFor r params, ∃ count, Numeral.count? value = some count := by
    intro value hvalue
    obtain ⟨count, hcount, -⟩ := count_of_mem (exists_given_iff.mp ⟨read, hread⟩) hr hvalue
    exact ⟨count, hcount⟩
  rw [last?, hall, lastCount?, getLast?_filterMap hcount]

theorem last?_page (hread : given config params = .ok read) :
    last? Parameter.page? read = lastCount? .page params :=
  last?_eq_lastCount? hread (.inl rfl) fun _ _ _ => Parameter.page?_of_read

theorem last?_pageSize (hread : given config params = .ok read) :
    last? Parameter.pageSize? read = lastCount? .pageSize params :=
  last?_eq_lastCount? hread (.inr rfl) fun _ _ _ => Parameter.pageSize?_of_read

/-! ## Its page -/

theorem rowsBefore_of_lt {size : Nat} (h : (n - 1) * size < Numeral.countBound) :
    rowsBefore n size = .ok ((n - 1) * size) :=
  if_pos h

theorem rowsBefore_of_le {size : Nat} (h : Numeral.countBound ≤ (n - 1) * size) :
    rowsBefore n size = .error (.pageOutOfRange n) :=
  if_neg (Nat.not_lt.mpr h)

theorem pageOf_eq (config : Config) (read : List Parameter) :
    pageOf config read =
      (match last? Parameter.page? read with
        | some number =>
          rowsBefore number ((last? Parameter.pageSize? read).getD config.defaultPageSize)
        | none => .ok ((last? Parameter.offset? read).getD 0)).map fun offset =>
        { maxRows := (last? Parameter.pageSize? read).getD config.defaultPageSize
          offset
          marker := last? Parameter.marker? read } := by
  rw [pageOf]
  cases last? Parameter.page? read <;> rfl

theorem pageOf_of_given (hread : given config params = .ok read)
    (hn : lastCount? .page params = some n) :
    pageOf config read = (rowsBefore n (sizeOf config params)).map fun offset =>
      { maxRows := sizeOf config params, offset, marker := last? Parameter.marker? read } := by
  rw [pageOf_eq, last?_page hread, last?_pageSize hread, hn]
  rfl

theorem maxRows_of_ok (h : ofParameters config table params = .ok s) :
    s.page.maxRows = sizeOf config params := by
  obtain ⟨read, hread, h⟩ := ofParameters_ok h
  obtain ⟨page, hpage, rfl⟩ := assemble_ok h
  rw [pageOf_eq, last?_pageSize hread] at hpage
  obtain ⟨_, -, rfl⟩ := map_ok hpage
  rfl

theorem allInOrder_of_ok (h : ofParameters config table params = .ok s) : AllInOrder config params := by
  obtain ⟨read, hread, -⟩ := ofParameters_ok h
  exact exists_given_iff.mp ⟨read, hread⟩

/-- A page number that is asked for is one. -/
theorem exists_lastCount?_page (h : AllInOrder config params) (hpage : valuesFor .page params ≠ []) :
    ∃ number, lastCount? .page params = some number ∧ 1 ≤ number := by
  obtain ⟨number, hnumber, hpos, -⟩ := count_of_mem h (.inl rfl) (List.getLast_mem hpage)
  refine ⟨number, ?_, hpos⟩
  rw [lastCount?, List.getLast?_eq_some_getLast hpage]
  exact hnumber

/-- **The size of a page keeps within its bounds.** -/
theorem sizeOf_bounds (hconfig : config.validate = .ok ()) (h : AllInOrder config params) :
    1 ≤ sizeOf config params ∧ sizeOf config params ≤ config.maxPageSize := by
  rw [sizeOf, lastCount?]
  cases hlast : (valuesFor .pageSize params).getLast? with
  | none => exact Config.pageSize_of_validate hconfig
  | some value =>
    obtain ⟨size, hsize, hpos, hle⟩ := count_of_mem h (.inr rfl) (List.mem_of_getLast? hlast)
    rw [Option.bind_some, hsize]
    exact ⟨hpos, hle rfl⟩

theorem offset_of_ok (h : ofParameters config table params = .ok s)
    (hn : lastCount? .page params = some n) :
    s.page.offset = (n - 1) * s.page.maxRows ∧ s.page.offset < Numeral.countBound := by
  rw [maxRows_of_ok h]
  obtain ⟨read, hread, h⟩ := ofParameters_ok h
  obtain ⟨page, hpage, rfl⟩ := assemble_ok h
  rw [pageOf_of_given hread hn] at hpage
  obtain ⟨rows, hrows, rfl⟩ := map_ok hpage
  rcases Nat.lt_or_ge ((n - 1) * sizeOf config params) Numeral.countBound with hlt | hge
  · rw [rowsBefore_of_lt hlt] at hrows
    obtain rfl := Except.ok.inj hrows
    exact ⟨rfl, hlt⟩
  · rw [rowsBefore_of_le hge] at hrows
    exact absurd hrows (by simp)

theorem exists_ofParameters_of_lt (table : Table) (h : AllInOrder config params)
    (hn : lastCount? .page params = some n)
    (hlt : (n - 1) * sizeOf config params < Numeral.countBound) :
    ∃ s, ofParameters config table params = .ok s := by
  obtain ⟨read, hread⟩ := exists_given_iff.mpr h
  have hpage := pageOf_of_given hread hn
  rw [rowsBefore_of_lt hlt] at hpage
  rw [ofParameters_eq, hread, exists_mapError_ok_iff]
  show ∃ s, assemble config table.name read = .ok s
  rw [assemble, hpage]
  exact ⟨_, rfl⟩

/-- **A page is refused for nothing but its place.** -/
theorem ofParameters_of_le (table : Table) (h : AllInOrder config params)
    (hn : lastCount? .page params = some n)
    (hle : Numeral.countBound ≤ (n - 1) * sizeOf config params) :
    ofParameters config table params = .error (.malformed (.pageOutOfRange n)) := by
  obtain ⟨read, hread⟩ := exists_given_iff.mpr h
  have hpage := pageOf_of_given hread hn
  rw [rowsBefore_of_le hle] at hpage
  rw [ofParameters_eq, hread]
  show (assemble config table.name read).mapError Error.malformed = _
  rw [assemble, hpage]
  rfl

/-- What comes of asking for a page of rows. -/
structure Pages (config : Config) (table : Table) (params : List (String × String)) : Prop where
  size : ∀ s, ofParameters config table params = .ok s →
    s.page.maxRows = sizeOf config params ∧ 1 ≤ s.page.maxRows ∧ s.page.maxRows ≤ config.maxPageSize
  /-- The page number alone says where the page begins, and every row is on exactly one page. -/
  offset : ∀ s, ofParameters config table params = .ok s → valuesFor .page params ≠ [] →
    ∃ n, lastCount? .page params = some n ∧ 1 ≤ n
      ∧ (s.page.offset : Int) = ((n : Int) - 1) * s.page.maxRows ∧ s.page.offset < Numeral.countBound
      ∧ ∀ row, s.page.Covers row ↔ n = row / s.page.maxRows + 1
  /-- The next page of the same size begins where this one ends. -/
  next : ∀ s n params' s', ofParameters config table params = .ok s →
    lastCount? .page params = some n → ofParameters config table params' = .ok s' →
    lastCount? .page params' = some (n + 1) → sizeOf config params' = sizeOf config params →
    s'.page.offset = s.page.offset + s.page.maxRows
  /-- A page of a request that is in order otherwise is refused exactly if it begins too far behind. -/
  refused : AllInOrder config params → valuesFor .page params ≠ [] →
    ∃ n, lastCount? .page params = some n ∧ 1 ≤ n
      ∧ ((∃ e, ofParameters config table params = .error e) ↔
        Numeral.countBound ≤ (n - 1) * sizeOf config params)
      ∧ ∀ e, ofParameters config table params = .error e → e = .malformed (.pageOutOfRange n)

/-- **Pages lie one behind the other**, and each is as long as it is asked to be. -/
theorem ofParameters_pages (table : Table) (params : List (String × String))
    (hconfig : config.validate = .ok ()) : Pages config table params := by
  constructor
  case size =>
    intro s hs
    rw [maxRows_of_ok hs]
    exact ⟨rfl, sizeOf_bounds hconfig (allInOrder_of_ok hs)⟩
  case offset =>
    intro s hs hpage
    obtain ⟨n, hn, hpos⟩ := exists_lastCount?_page (allInOrder_of_ok hs) hpage
    obtain ⟨hoffset, hbound⟩ := offset_of_ok hs hn
    have hsize := (sizeOf_bounds hconfig (allInOrder_of_ok hs)).1
    rw [← maxRows_of_ok hs] at hsize
    refine ⟨n, hn, hpos, ?_, hbound, Page.covers_iff hsize hpos hoffset⟩
    rw [hoffset, Int.natCast_mul, Int.natCast_sub hpos, Int.natCast_one]
  case next =>
    intro s n params' s' hs hn hs' hn' hsize
    have hvalues : valuesFor .page params ≠ [] := by
      intro hnil
      rw [lastCount?, hnil] at hn
      exact Option.some_ne_none n hn.symm
    obtain ⟨_, hsame, hpos⟩ := exists_lastCount?_page (allInOrder_of_ok hs) hvalues
    obtain rfl := Option.some.inj (hn.symm.trans hsame)
    rw [(offset_of_ok hs' hn').1, (offset_of_ok hs hn).1, maxRows_of_ok hs', maxRows_of_ok hs, hsize,
      Nat.add_sub_cancel, ← Nat.succ_mul, Nat.succ_eq_add_one, Nat.sub_add_cancel hpos]
  case refused =>
    intro h hpage
    obtain ⟨n, hn, hpos⟩ := exists_lastCount?_page h hpage
    refine ⟨n, hn, hpos, ?_⟩
    rcases Nat.lt_or_ge ((n - 1) * sizeOf config params) Numeral.countBound with hlt | hge
    · obtain ⟨s, hs⟩ := exists_ofParameters_of_lt table h hn hlt
      rw [hs]
      exact ⟨iff_of_false (by simp) (Nat.not_le.mpr hlt), fun e he => absurd he (by simp)⟩
    · rw [ofParameters_of_le table h hn hge]
      exact ⟨iff_of_true ⟨_, rfl⟩ hge, fun e he => (Except.error.inj he).symm⟩

/-- Pages of ten rows far behind. The first number does not count, and neither does the offset. -/
def farPage (number : String) : List (String × String) :=
  [("page", "2"), ("PAGE", number), ("eq(a,b)", ""), ("offset", "7"), ("limit", "10")]

/-- The last page that begins below `2 ^ 64` can be had, and the one behind it is refused. -/
theorem pages_farPage :
    Config.validate {} = .ok ()
      ∧ (ofParameters {} towns (farPage "1844674407370955162")).toOption.map Statement.page
        = some { maxRows := 10, offset := 18446744073709551610 }
      ∧ AllInOrder {} (farPage "1844674407370955163")
      ∧ ofParameters {} towns (farPage "1844674407370955163")
        = .error (.malformed (.pageOutOfRange 1844674407370955163)) := by
  have hconfig : Config.validate {} = .ok () := rfl
  have hinOrder : AllInOrder {} (farPage "1844674407370955163") := by
    have hread : (given {} (farPage "1844674407370955163")).toOption.isSome = true := by
      decide +kernel
    obtain ⟨read, h⟩ := Option.isSome_iff_exists.mp hread
    exact exists_given_iff.mp ⟨read, ok_of_toOption h⟩
  refine ⟨hconfig, by decide +kernel, hinOrder, ?_⟩
  have h := ofParameters_pages towns (farPage "1844674407370955163") hconfig
  obtain ⟨n, hn, -, hrefused, hwhy⟩ := h.refused hinOrder (by decide +kernel)
  have hnumber : lastCount? .page (farPage "1844674407370955163") = some 1844674407370955163 := by
    decide +kernel
  have hsize : sizeOf {} (farPage "1844674407370955163") = 10 := by decide +kernel
  obtain rfl := Option.some.inj (hnumber.symm.trans hn)
  rw [hsize] at hrefused
  obtain ⟨e, he⟩ := hrefused.mpr (by decide)
  rw [he, hwhy e he]

end Statement

end Rql

import Rql.Proofs.Request.Grouping
import Rql.Proofs.Text.Cuts

/-!
# Orders that are written out

An order has several notations: a sign in front of its field, an ending behind it, or for an ascending
order the field alone. `Writes` lists them, each with what it asks of the field. Any field goes with a sign,
since a sign is looked for first and only one is taken off. The other notations take a field that begins with
no sign, and the field alone is none if it has the look of an ending.

Every notation is read as its order (`ofEntry_of_writes`), and notations with commas between them as the
orders one after the other (`readList_of_lists`). A request spreads its orders over any number of parameters,
whatever other parameters stand in between. They add up in their order and touch nothing else of the
statement (`ofParameters_orders`).
-/

namespace Rql

namespace Text

theorem trimmed_singleton {c : Char} (h : isBlank c = false) : Trimmed [c] where
  head _ hd := Option.some.inj hd ▸ h
  last _ hd := Option.some.inj hd ▸ h

theorem trimmed_intercalate {mark : Char} {pieces : List (List Char)} (hmark : isBlank mark = false)
    (h : ∀ piece ∈ pieces, Trimmed piece) : Trimmed ([mark].intercalate pieces) := by
  induction pieces with
  | nil => exact trimmed_nil
  | cons piece rest ih =>
    have hpiece := h piece List.mem_cons_self
    have hrest := ih fun p hp => h p (List.mem_cons_of_mem piece hp)
    cases rest with
    | nil => rwa [List.intercalate_singleton]
    | cons next rest =>
      rw [List.intercalate_cons_cons]
      exact (hpiece.append (trimmed_singleton hmark)).append hrest

/-- A name that is a keyword but for the case of its letters has no other characters than such. -/
theorem isAlphanum_of_sameName {name keyword : String} (h : sameName name keyword = true)
    (hkeyword : ∀ c ∈ (foldCase keyword).toList, c.isAlphanum = true) :
    ∀ c ∈ name.toList, c.isAlphanum = true := by
  intro c hc
  have hfold : c.toLower ∈ (foldCase keyword).toList := by
    rw [← sameName_iff.mp h, foldCase, String.toList_ofList]
    exact List.mem_map_of_mem hc
  exact isAlphanum_of_toLower (hkeyword _ hfold)

end Text

namespace Order

/-- A field that an entry of a list can hold. -/
structure IsField (field : String) : Prop where
  ne_empty : field ≠ ""
  trimmed : Text.Trimmed field.toList
  no_comma : ',' ∉ field.toList

/-- The field begins with no sign. -/
def Unsigned (field : String) : Prop :=
  ∀ c ∈ field.toList.head?, c ≠ '+' ∧ c ≠ '-'

instance (field : String) : Decidable (Unsigned field) :=
  Option.decidableForallMem field.toList.head?

/-- The field ends in a point with the keyword of the direction behind it, in any case. -/
def HasEnding (direction : Direction) (field : String) : Prop :=
  ∃ front ending, field = front ++ "." ++ ending ∧ Text.sameName ending direction.keyword = true

/-- A field that means itself when nothing is written with it. -/
structure Plain (field : String) : Prop extends IsField field where
  unsigned : Unsigned field
  noEnding : ∀ direction, ¬ HasEnding direction field

/-- The notations of an order. -/
inductive Writes : Order → String → Prop where
  | plus {field : String} : IsField field → Writes ⟨field, .asc⟩ ("+" ++ field)
  | minus {field : String} : IsField field → Writes ⟨field, .desc⟩ ("-" ++ field)
  | bare {field : String} : Plain field → Writes ⟨field, .asc⟩ field
  | ending {field ending : String} {direction : Direction} : IsField field → Unsigned field →
      Text.sameName ending direction.keyword = true →
      Writes ⟨field, direction⟩ (field ++ "." ++ ending)

/-- Notations of the orders with commas between them. -/
def Lists (value : String) (os : List Order) : Prop :=
  ∃ entries, List.Forall₂ Writes os entries ∧ value = Text.join "," entries

variable {o : Order} {os : List Order} {field ending entry value : String} {direction : Direction}

/-! ## One entry -/

theorem isNameChar_of_ending (h : Text.sameName ending direction.keyword = true) :
    ∀ c ∈ ending.toList, Term.isNameChar c = true := by
  have hkeyword : ∀ c ∈ (Text.foldCase direction.keyword).toList, c.isAlphanum = true := by
    cases direction <;> exact List.all_eq_true.mp (by decide)
  intro c hc
  rw [Term.isNameChar, Text.isAlphanum_of_sameName h hkeyword c hc, Bool.true_or]

theorem isField_append {front behind : String} (hne : front ≠ "" ∨ behind ≠ "")
    (htrimmed : Text.Trimmed front.toList ∧ Text.Trimmed behind.toList)
    (hcomma : ',' ∉ front.toList ∧ ',' ∉ behind.toList) : IsField (front ++ behind) where
  ne_empty he := by
    obtain ⟨hfront, hbehind⟩ := String.append_eq_empty_iff.mp he
    exact hne.elim (· hfront) (· hbehind)
  trimmed := by
    rw [String.toList_append]
    exact htrimmed.1.append htrimmed.2
  no_comma := by
    rw [String.toList_append, List.mem_append, not_or]
    exact hcomma

/-- A notation is such a text as a field is. -/
theorem isField_of_writes (h : Writes o entry) : IsField entry := by
  cases h with
  | plus hfield =>
    exact isField_append (.inr hfield.ne_empty) ⟨by decide, hfield.trimmed⟩ ⟨by decide, hfield.no_comma⟩
  | minus hfield =>
    exact isField_append (.inr hfield.ne_empty) ⟨by decide, hfield.trimmed⟩ ⟨by decide, hfield.no_comma⟩
  | bare hfield => exact hfield.toIsField
  | @ending field ending direction hfield _ hending =>
    have hchars := isNameChar_of_ending hending
    have htrimmed : Text.Trimmed ending.toList :=
      ⟨fun c hc => Term.isBlank_of_isNameChar (hchars c (List.mem_of_mem_head? hc)),
        fun c hc => Term.isBlank_of_isNameChar (hchars c (List.mem_of_mem_getLast? hc))⟩
    have hcomma : ',' ∉ ending.toList := fun hmem =>
      Term.ne_of_isNameChar (hchars ',' hmem) (by decide) rfl
    have hpoint : IsField (field ++ ".") :=
      isField_append (.inl hfield.ne_empty) ⟨hfield.trimmed, by decide⟩ ⟨hfield.no_comma, by decide⟩
    exact isField_append (.inl hpoint.ne_empty) ⟨hpoint.trimmed, htrimmed⟩ ⟨hpoint.no_comma, hcomma⟩

theorem isField_field (h : Writes o entry) : IsField o.field := by
  cases h with
  | plus hfield => exact hfield
  | minus hfield => exact hfield
  | bare hfield => exact hfield.toIsField
  | ending hfield _ _ => exact hfield

/-- Without a sign in front, the ending decides. -/
theorem ofEntry_of_unsigned (h : Unsigned entry) : ofEntry entry.toList = ofSuffixed entry.toList := by
  rw [ofEntry]
  · intro rest heq
    have hminus : '-' ∈ entry.toList.head? := by rw [heq]; rfl
    exact absurd rfl (h '-' hminus).2
  · intro rest heq
    have hplus : '+' ∈ entry.toList.head? := by rw [heq]; rfl
    exact absurd rfl (h '+' hplus).1

/-- The endings that are looked for are the keywords in small letters. -/
theorem sameName_keyword (ending : String) :
    Text.sameName ending Direction.asc.keyword = Text.sameName ending "asc"
      ∧ Text.sameName ending Direction.desc.keyword = Text.sameName ending "desc" := by
  have hasc : Text.foldCase Direction.asc.keyword = Text.foldCase "asc" := by decide
  have hdesc : Text.foldCase Direction.desc.keyword = Text.foldCase "desc" := by decide
  rw [Text.sameName, Text.sameName, Text.sameName, Text.sameName, hasc, hdesc]
  exact ⟨rfl, rfl⟩

theorem ofSuffixed_ending (field : String) (h : Text.sameName ending direction.keyword = true) :
    ofSuffixed (field ++ "." ++ ending).toList = ⟨field, direction⟩ := by
  have hpoint : '.' ∉ ending.toList := fun hmem =>
    Term.ne_of_isNameChar (isNameChar_of_ending h '.' hmem) (by decide) rfl
  have hlist : (field ++ "." ++ ending).toList = field.toList ++ '.' :: ending.toList := by simp
  rw [ofSuffixed, hlist, Text.splitLast?_append field.toList hpoint]
  dsimp only
  rw [String.ofList_toList, String.ofList_toList]
  cases direction with
  | asc =>
    -- the other ending is looked for first, and no text is both
    rw [(sameName_keyword ending).1] at h
    have hdesc : Text.sameName ending "desc" ≠ true := by
      intro hdesc
      have hsame := (Text.sameName_iff.mp h).symm.trans (Text.sameName_iff.mp hdesc)
      exact absurd hsame (by decide)
    rw [if_neg hdesc, if_pos h]
  | desc =>
    rw [(sameName_keyword ending).2] at h
    exact if_pos h

theorem ofSuffixed_of_noEnding (h : ∀ direction, ¬ HasEnding direction field) :
    ofSuffixed field.toList = ⟨field, .asc⟩ := by
  rw [ofSuffixed]
  split
  · next front ending hcut =>
    have hfield : field = .ofList front ++ "." ++ .ofList ending := by
      refine String.toList_injective ?_
      rw [(Text.splitLast?_eq_some_iff.mp hcut).1]
      simp
    have hnone (direction : Direction) : Text.sameName (.ofList ending) direction.keyword ≠ true :=
      fun hsame => h direction ⟨_, _, hfield, hsame⟩
    have hdesc := hnone .desc
    have hasc := hnone .asc
    rw [(sameName_keyword _).1] at hasc
    rw [(sameName_keyword _).2] at hdesc
    rw [if_neg hdesc, if_neg hasc, String.ofList_toList]
  · rw [String.ofList_toList]

theorem Unsigned.append (h : Unsigned field) (hne : field ≠ "") (behind : String) :
    Unsigned (field ++ behind) := by
  obtain ⟨c, rest, hfield⟩ := List.exists_cons_of_ne_nil (mt String.toList_eq_nil_iff.mp hne)
  intro d hd
  rw [String.toList_append, hfield] at hd
  refine h d ?_
  rw [hfield]
  exact hd

/-- **Every notation is read as its order.** -/
theorem ofEntry_of_writes (h : Writes o entry) : ofEntry entry.toList = o := by
  cases h with
  | @plus field hfield =>
    have hlist : ("+" ++ field).toList = '+' :: field.toList := by simp
    rw [hlist, ofEntry, Text.trim_eq_self hfield.trimmed, String.ofList_toList]
  | @minus field hfield =>
    have hlist : ("-" ++ field).toList = '-' :: field.toList := by simp
    rw [hlist, ofEntry, Text.trim_eq_self hfield.trimmed, String.ofList_toList]
  | bare hfield => rw [ofEntry_of_unsigned hfield.unsigned, ofSuffixed_of_noEnding hfield.noEnding]
  | @ending field ending direction hfield hunsigned hending =>
    have hfront : Unsigned (field ++ "." ++ ending) := by
      rw [String.append_assoc]
      exact hunsigned.append hfield.ne_empty _
    rw [ofEntry_of_unsigned hfront, ofSuffixed_ending field hending]

/-! ## Lists of entries -/

theorem entries_join {texts : List String} (h : ∀ text ∈ texts, IsField text) :
    entries (Text.join "," texts) = texts.map String.toList := by
  cases texts with
  | nil => rfl
  | cons text rest =>
    have hpieces : ∀ piece ∈ (text :: rest).map String.toList,
        piece ≠ [] ∧ Text.Trimmed piece ∧ ',' ∉ piece := by
      intro piece hpiece
      obtain ⟨text', htext, rfl⟩ := List.mem_map.mp hpiece
      have hfield := h text' htext
      exact ⟨mt String.toList_eq_nil_iff.mp hfield.ne_empty, hfield.trimmed, hfield.no_comma⟩
    rw [entries, Text.toList_join_comma, Text.splitOn_eq_splitOn,
      List.splitOn_intercalate ',' (fun piece hpiece => (hpieces piece hpiece).2.2)
        (List.cons_ne_nil _ _),
      Text.map_trim_eq_self (fun piece hpiece => (hpieces piece hpiece).2.1), List.filter_eq_self]
    intro piece hpiece
    rw [Bool.not_eq_true', List.isEmpty_eq_false_iff]
    exact (hpieces piece hpiece).1

theorem isField_of_forall₂ {texts : List String} (h : List.Forall₂ Writes os texts) :
    ∀ text ∈ texts, IsField text := by
  induction h with
  | nil => exact fun _ htext => absurd htext List.not_mem_nil
  | cons hwrites _ ih => exact List.forall_mem_cons.mpr ⟨isField_of_writes hwrites, ih⟩

/-- **Notations with commas between them are read as the orders one after the other.** -/
theorem readList_of_lists (h : Lists value os) : readList value = .ok os := by
  obtain ⟨texts, htexts, rfl⟩ := h
  rw [readList, entries_join (isField_of_forall₂ htexts)]
  refine mapM_of_forall₂ (List.forall₂_map_left_iff.mpr (htexts.flip.imp fun text o hwrites => ?_))
  have hfield : o.field ≠ "" := (isField_field hwrites).ne_empty
  dsimp only
  rw [ofEntry_of_writes hwrites, if_neg hfield]

/-- There are no blanks at the ends of a list. -/
theorem trimmed_of_lists (h : Lists value os) : Text.trimmed value = value := by
  obtain ⟨texts, htexts, rfl⟩ := h
  have htrimmed : Text.Trimmed (Text.join "," texts).toList := by
    rw [Text.toList_join_comma]
    refine Text.trimmed_intercalate (by decide) fun piece hpiece => ?_
    obtain ⟨text, htext, rfl⟩ := List.mem_map.mp hpiece
    exact (isField_of_forall₂ htexts text htext).trimmed
  rw [Text.trimmed, Text.trim_eq_self htrimmed, String.ofList_toList]

/-- One entry is a list. -/
theorem lists_entry (h : Writes o entry) : Lists entry [o] :=
  ⟨[entry], .cons h .nil, (Text.join_singleton "," entry).symm⟩

end Order

namespace Statement

variable {config : Config} {table : Table} {params : List (String × String)}
  {parts : List (List Order)}

/-! ## Orders in a request -/

/-- The parameters of a request that hold orders. -/
def ordering (params : List (String × String)) : List (String × String) :=
  params.filter fun param => decide (classOf param = some .order)

/-- The parameters of a request that hold something else. -/
def unordered (params : List (String × String)) : List (String × String) :=
  params.filter fun param => decide (classOf param ≠ some .order)

theorem given_lists (config : Config) {params : List (String × String)} {parts : List (List Order)}
    (hclass : ∀ param ∈ params, classOf param = some .order)
    (h : List.Forall₂ (fun param os => Order.Lists param.2 os) params parts) :
    given config params = .ok (parts.map .order) := by
  induction h with
  | nil => rfl
  | @cons param os params parts hlist _ ih =>
    have hrest := ih fun p hp => hclass p (List.mem_cons_of_mem param hp)
    have hparam := hclass param List.mem_cons_self
    rw [classOf] at hparam
    split at hparam
    · exact absurd hparam (by simp)
    · next hkey =>
      have hread : Parameter.read config (Text.trimmed param.1) param.2 = .ok (.order os) := by
        rw [Parameter.read, hparam, Order.readList_of_lists hlist]
        rfl
      have hsignificant : significant [param] = [(Text.trimmed param.1, param.2)] := by
        rw [significant, List.map_singleton]
        show [(Text.trimmed param.1, Text.trimmed param.2)].filter _ = _
        rw [Order.trimmed_of_lists hlist, List.filter_cons_of_pos (by simpa using hkey)]
        rfl
      rw [← List.singleton_append, given_append, hrest, given, hsignificant, List.mapM_cons]
      simp only [hread]
      rfl

/-- **Orders add up**, and the rest of a statement is that of the other parameters. -/
theorem ofParameters_ordering_eq (config : Config) (table : Table)
    (h : List.Forall₂ (fun param os => Order.Lists param.2 os) (ordering params) parts) :
    ofParameters config table params
      = (ofParameters config table (unordered params)).map fun s => { s with order := parts.flatten } := by
  have hleave (r : Option Parameter.Reserved) :
      decide (r ≠ some .order) = !decide (r = some .order) := decide_not
  have hclass : ∀ param ∈ ordering params, classOf param = some .order := fun param hparam =>
    of_decide_eq_true (List.mem_filter.mp hparam).2
  have hlists := given_lists config hclass h
  -- the orders are read without fault, so the first fault is that of the other parameters
  rw [ofParameters_eq, ofParameters_eq]
  cases hrest : given config (unordered params) with
  | error fault =>
    rw [given_error_of_parts (fun r => decide (r = some .order)) _ hleave hlists hrest]
    rfl
  | ok rest =>
    obtain ⟨read, hread, horder, hothers⟩ :=
      given_of_parts (fun r => decide (r = some .order)) _ hleave hlists hrest
    have horders : read.flatMap Parameter.orders = parts.flatten := by
      rw [orders_congr (horder (some .order) rfl), List.flatMap_map]
      exact List.flatMap_id
    have hread' : (given config params >>= assemble config table.name)
        = assemble config table.name read := by
      rw [hread]
      rfl
    have hrest' : (Except.ok rest >>= assemble config table.name) = assemble config table.name rest :=
      rfl
    have hpage : pageOf config read = pageOf config rest :=
      pageOf_congr fun r hr => hothers (some r) (decide_eq_false fun he => hr (Option.some.inj he))
    rw [hread', hrest', assemble_eq, assemble_eq, hpage, horders, predicates_congr (hothers none rfl)]
    cases pageOf config rest <;> rfl

theorem ofParameters_nil (config : Config) (table : Table) :
    ofParameters config table []
      = .ok { table := table.name, page := { maxRows := config.defaultPageSize } } := rfl

/-- **Written orders are read back**, however they are written and spread over parameters. A field alone is
its ascending order, as it is with a plus sign or an ending. -/
theorem ofParameters_orders (config : Config) (table : Table)
    (h : List.Forall₂ (fun param os => Order.Lists param.2 os) (ordering params) parts) :
    ofParameters config table params
        = (ofParameters config table (unordered params)).map (fun s => { s with order := parts.flatten })
      ∧ (unordered params = [] → ofParameters config table params
        = .ok { table := table.name, order := parts.flatten,
                page := { maxRows := config.defaultPageSize } })
      ∧ ∀ field, Order.Plain field →
        (∀ entry ∈ [field, "+" ++ field, field ++ ".asc"],
            Order.readList entry = .ok [⟨field, .asc⟩])
          ∧ ∀ entry ∈ ["-" ++ field, field ++ ".desc"],
            Order.readList entry = .ok [⟨field, .desc⟩] := by
  have hall := ofParameters_ordering_eq config table h
  refine ⟨hall, fun hnone => ?_, fun field hfield => ⟨fun entry hentry => ?_, fun entry hentry => ?_⟩⟩
  · rw [hall, hnone, ofParameters_nil]
    rfl
  · refine Order.readList_of_lists (Order.lists_entry ?_)
    rw [List.mem_cons, List.mem_cons, List.mem_singleton] at hentry
    rcases hentry with rfl | rfl | rfl
    · exact .bare hfield
    · exact .plus hfield.toIsField
    · have hasc : field ++ ".asc" = field ++ "." ++ "asc" := by rw [String.append_assoc]; rfl
      rw [hasc]
      exact .ending hfield.toIsField hfield.unsigned (by decide)
  · refine Order.readList_of_lists (Order.lists_entry ?_)
    rw [List.mem_cons, List.mem_singleton] at hentry
    rcases hentry with rfl | rfl
    · exact .minus hfield.toIsField
    · have hdesc : field ++ ".desc" = field ++ "." ++ "desc" := by rw [String.append_assoc]; rfl
      rw [hdesc]
      exact .ending hfield.toIsField hfield.unsigned (by decide)

/-- Fields that look like signs and endings, in three parameters of which the last one is empty. -/
def assortedOrders : List (String × String) :=
  [("order", "+-a,-b.ASC"), ("limit", "5"), (" SORT ", "asc,c d.desc.Desc"), ("sort", "")]

/-- The orders that they hold. -/
def orderParts : List (List Order) :=
  [[⟨"-a", .asc⟩, ⟨"b.ASC", .desc⟩], [⟨"asc", .asc⟩, ⟨"c d.desc", .desc⟩], []]

theorem plain_asc : Order.Plain "asc" where
  ne_empty := by decide
  trimmed := by decide
  no_comma := by decide
  unsigned := by decide
  noEnding := by
    rintro direction ⟨front, ending, hfield, -⟩
    have hpoint : '.' ∈ "asc".toList := by rw [hfield]; simp
    exact absurd hpoint (by decide)

theorem orders_assorted :
    List.Forall₂ (fun param os => Order.Lists param.2 os) (ordering assortedOrders) orderParts
      ∧ ofParameters {} towns assortedOrders
        = .ok { table := "towns", order := orderParts.flatten, page := { maxRows := 5 } }
      ∧ Order.readList "asc.asc" = .ok [⟨"asc", .asc⟩] := by
  have hordering : ordering assortedOrders
      = [("order", "+-a,-b.ASC"), (" SORT ", "asc,c d.desc.Desc"), ("sort", "")] := by decide +kernel
  have hlists : List.Forall₂ (fun param os => Order.Lists param.2 os) (ordering assortedOrders)
      orderParts := by
    rw [hordering]
    refine .cons ⟨["+-a", "-b.ASC"], .cons ?_ (.cons ?_ .nil), rfl⟩
      (.cons ⟨["asc", "c d.desc.Desc"], .cons ?_ (.cons ?_ .nil), rfl⟩ (.cons ⟨[], .nil, rfl⟩ .nil))
    · exact @Order.Writes.plus "-a" ⟨by decide, by decide, by decide⟩
    · exact @Order.Writes.minus "b.ASC" ⟨by decide, by decide, by decide⟩
    · exact .bare plain_asc
    · exact @Order.Writes.ending "c d.desc" "Desc" .desc ⟨by decide, by decide, by decide⟩
        (by decide) (by decide)
  obtain ⟨hall, -, halike⟩ := ofParameters_orders {} towns hlists
  have hrest : ofParameters {} towns (unordered assortedOrders)
      = .ok { table := "towns", page := { maxRows := 5 } } := ok_of_toOption (by decide +kernel)
  rw [hrest] at hall
  exact ⟨hlists, hall, (halike "asc" plain_asc).1 _ (by decide)⟩

end Statement

end Rql

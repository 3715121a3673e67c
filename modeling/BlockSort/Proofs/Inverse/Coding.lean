import BlockSort.Proofs.Choice
import BlockSort.Proofs.Inverse.Codes
import BlockSort.Proofs.Inverse.Recency

namespace BlockSort

open PrefixCode

namespace Coding

variable {n : Nat}

/-- The canonical code of a symbol. -/
def symbolBits (table : Vector Nat n) (symbol : Fin n) : List Bool :=
  Bits.ofNat (table.get symbol) (codeAt table.toList symbol (table.get symbol))

theorem toList_get (table : Vector Nat n) (symbol : Fin n) :
    table.toList[symbol.val]? = some (table.get symbol) := by
  simp [Vector.get_eq_getElem]

theorem bits_codeFields {table : Vector Nat n} (complete : Complete longestCode table.toList)
    (symbol : Fin n) : ((codeFields table).get symbol).bits = symbolBits table symbol := by
  obtain ⟨code, given, value⟩ := complete.roomy.codes_get (by decide) (toList_get table symbol)
  rw [codeFields, symbolBits, Field.bits]
  simp [Vector.get_eq_getElem, Array.getD_eq_getD_getElem?, given, value]

/-- The codes of all groups by the tables that they selected. -/
def groupBits (tables : List (Vector Nat n)) (groups : List (List (Fin n)))
    (selectors : List Nat) : List Bool :=
  (groups.zip selectors).flatMap fun (group, selector) =>
    match tables[selector]? with
    | some table => group.flatMap (symbolBits table)
    | none => []

theorem bits_symbolFields {groups : List (List (Fin n))} {choice : Choice n}
    (sound : choice.Sound groups) :
    fieldBits (symbolFields groups choice) =
      groupBits choice.tables groups choice.selectors := by
  rw [fieldBits, symbolFields, groupBits, List.flatMap_assoc]
  refine List.flatMap_congr fun (group, selector) member => ?_
  have inside := sound.selected selector (List.of_mem_zip member).2
  have complete := sound.complete _ (List.getElem_mem inside)
  have codes : ((choice.tables.map codeFields).toArray)[selector]? =
      some (codeFields choice.tables[selector]) := by simp [inside]
  simp only [codes, List.getElem?_eq_getElem inside, List.flatMap_map]
  exact List.flatMap_congr fun symbol _ => bits_codeFields complete symbol

theorem bits_unary {count : Nat} (few : count < 6) :
    (unary count).bits = List.replicate count true ++ [false] := by
  have every : ∀ count < 6, (unary count).bits = List.replicate count true ++ [false] := by decide
  exact every count few

theorem groupsOf_short {symbols : List (Fin n)} (nonempty : symbols ≠ [])
    (short : symbols.length ≤ groupSize) : groupsOf symbols = [symbols] := by
  obtain ⟨first, rest, rfl⟩ := List.exists_cons_of_ne_nil nonempty
  rw [List.length_cons] at short
  rw [groupsOf, List.take_of_length_le (by omega), List.drop_eq_nil_of_le (by omega), groupsOf]

theorem groupsOf_append {group symbols : List (Fin n)} (full : group.length = groupSize) :
    groupsOf (group ++ symbols) = group :: groupsOf symbols := by
  obtain ⟨first, rest, rfl⟩ := List.exists_cons_of_length_pos (l := group) (by rw [full]; decide)
  rw [List.length_cons] at full
  rw [List.cons_append, groupsOf, List.take_append_of_le_length (by omega),
    List.take_of_length_le (by omega), List.drop_append_of_le_length (by omega),
    List.drop_eq_nil_of_le (by omega), List.nil_append]

end Coding

namespace Decoder

variable {n : Nat}

theorem reads_selectors {tables : Nat} (few : tables ≤ 6) {selected : List Nat}
    (inside : ∀ selector ∈ selected, selector < tables) :
    Reads (selectors tables selected.length)
      (fieldBits (Coding.selectorFields tables selected)) selected := by
  have known : ∀ selector ∈ selected, selector ∈ List.range tables := fun selector member =>
    List.mem_range.mpr (inside selector member)
  have unaries : fieldBits (Coding.selectorFields tables selected) =
      (Recency.ranks (List.range tables) selected).flatMap fun place =>
        List.replicate place true ++ [false] := by
    rw [Coding.selectorFields, fieldBits, List.flatMap_map]
    refine List.flatMap_congr fun place member => Coding.bits_unary ?_
    have below := Recency.ranks_lt known place member
    rw [List.length_range] at below
    omega
  have places := Reads.repeated fun place
    (_ : place ∈ Recency.ranks (List.range tables) selected) => Reads.unary place
  rw [Recency.length_ranks, List.map_id'] at places
  rw [unaries, ← List.append_nil (List.flatMap _ _)]
  exact places.bind (Reads.given (undoRecency_ranks known))

theorem reads_group {table : Vector Nat n} (complete : Complete longestCode table.toList)
    {last : Fin n} {symbols : List (Fin n)} (before : ∀ symbol ∈ symbols, symbol ≠ last) :
    Reads (group table.toList last symbols.length) (symbols.flatMap (Coding.symbolBits table))
      (symbols.map Fin.val, false) := by
  induction symbols with
  | nil => exact Reads.pure _
  | cons symbol rest ih =>
    have others := ih fun other member => before other (by simp [member])
    have different : symbol.val ≠ last.val := fun same => before symbol (by simp) (Fin.ext same)
    rw [List.length_cons, List.flatMap_cons, group]
    refine (reads_symbol complete (Coding.toList_get table symbol)).bind ?_
    rw [if_neg different]
    exact others.map fun answer => (symbol.val :: answer.1, answer.2)

theorem reads_lastGroup {table : Vector Nat n} (complete : Complete longestCode table.toList)
    {last : Fin n} {symbols : List (Fin n)} (before : ∀ symbol ∈ symbols, symbol ≠ last)
    {count : Nat} (room : symbols.length < count) :
    Reads (group table.toList last count)
      ((symbols ++ [last]).flatMap (Coding.symbolBits table)) (symbols.map Fin.val, true) := by
  induction symbols generalizing count with
  | nil =>
    obtain ⟨others, rfl⟩ := Nat.exists_eq_succ_of_ne_zero (Nat.ne_of_gt room)
    rw [List.nil_append, List.flatMap_singleton, group, ← List.append_nil (Coding.symbolBits _ _)]
    refine (reads_symbol complete (Coding.toList_get table last)).bind ?_
    rw [if_pos rfl]
    exact Reads.pure _
  | cons symbol rest ih =>
    obtain ⟨others, rfl⟩ := Nat.exists_eq_succ_of_ne_zero (Nat.ne_of_gt (Nat.zero_lt_of_lt room))
    have later := ih (fun other member => before other (by simp [member]))
      (Nat.lt_of_succ_lt_succ room)
    have different : symbol.val ≠ last.val := fun same => before symbol (by simp) (Fin.ext same)
    rw [List.cons_append, List.flatMap_cons, group]
    refine (reads_symbol complete (Coding.toList_get table symbol)).bind ?_
    rw [if_neg different]
    exact later.map fun answer => (symbol.val :: answer.1, answer.2)

variable {tables : List (Vector Nat n)} {last : Fin n}

theorem reads_fullGroup (complete : ∀ table ∈ tables, Complete longestCode table.toList)
    {first : List (Fin n)} (before : ∀ symbol ∈ first, symbol ≠ last)
    (full : first.length = groupSize) {selector : Nat} (inside : selector < tables.length)
    {others : List (List (Fin n))} {selected symbols : List Nat}
    (rest : Reads (groups (tables.map Vector.toList) last selected)
      (Coding.groupBits tables others selected) symbols) :
    Reads (groups (tables.map Vector.toList) last (selector :: selected))
      (Coding.groupBits tables (first :: others) (selector :: selected))
      (first.map Fin.val ++ symbols) := by
  have table := List.getElem?_eq_getElem inside
  have reads := reads_group (complete _ (List.getElem_mem inside)) before
  have bits : Coding.groupBits tables (first :: others) (selector :: selected) =
      first.flatMap (Coding.symbolBits tables[selector]) ++
        Coding.groupBits tables others selected := by
    simp [Coding.groupBits, table]
  rw [full] at reads
  rw [bits, groups]
  refine Reads.ofOption (by rw [List.getElem?_map, table]; rfl) (reads.bind ?_)
  exact rest.map (first.map Fin.val ++ ·)

theorem reads_endGroup (complete : ∀ table ∈ tables, Complete longestCode table.toList)
    {symbols : List (Fin n)} (before : ∀ symbol ∈ symbols, symbol ≠ last)
    (short : symbols.length < groupSize) {selector : Nat} (inside : selector < tables.length) :
    Reads (groups (tables.map Vector.toList) last [selector])
      (Coding.groupBits tables [symbols ++ [last]] [selector]) (symbols.map Fin.val) := by
  have table := List.getElem?_eq_getElem inside
  have reads := reads_lastGroup (complete _ (List.getElem_mem inside)) before short
  have bits : Coding.groupBits tables [symbols ++ [last]] [selector] =
      (symbols ++ [last]).flatMap (Coding.symbolBits tables[selector]) ++ [] := by
    simp [Coding.groupBits, table]
  rw [bits, groups]
  refine Reads.ofOption (by rw [List.getElem?_map, table]; rfl) (reads.bind ?_)
  exact Reads.pure _

/-- Groups are read until the one that ends the block. -/
theorem reads_groups (complete : ∀ table ∈ tables, Complete longestCode table.toList)
    {symbols : List (Fin n)} (before : ∀ symbol ∈ symbols, symbol ≠ last) {selected : List Nat}
    (size : selected.length = (Coding.groupsOf (symbols ++ [last])).length)
    (inside : ∀ selector ∈ selected, selector < tables.length) :
    Reads (groups (tables.map Vector.toList) last selected)
      (Coding.groupBits tables (Coding.groupsOf (symbols ++ [last])) selected)
      (symbols.map Fin.val) := by
  induction full : symbols.length / groupSize generalizing symbols selected with
  | zero =>
    have short : symbols.length < groupSize := by
      simp only [groupSize] at full ⊢
      omega
    have whole : (symbols ++ [last]).length ≤ Coding.groupSize := by
      rw [List.length_append]
      exact short
    rw [Coding.groupsOf_short (by simp) whole] at size ⊢
    obtain ⟨selector, rfl⟩ := List.length_eq_one_iff.mp size
    exact reads_endGroup complete before short (inside selector (by simp))
  | succ rounds ih =>
    have long : groupSize ≤ symbols.length := by
      simp only [groupSize] at full ⊢
      omega
    have first : (symbols.take groupSize).length = groupSize := by
      rw [List.length_take, Nat.min_eq_left long]
    have fewer : (symbols.drop groupSize).length / groupSize = rounds := by
      rw [List.length_drop]
      simp only [groupSize] at full ⊢
      omega
    have split : symbols ++ [last] =
        symbols.take groupSize ++ (symbols.drop groupSize ++ [last]) := by
      rw [← List.append_assoc, List.take_append_drop]
    rw [split, Coding.groupsOf_append first] at size ⊢
    obtain ⟨selector, others, rfl⟩ :=
      List.exists_cons_of_length_pos (l := selected) (by rw [size]; exact Nat.succ_pos _)
    have rest := ih (fun symbol member => before symbol (List.mem_of_mem_drop member))
      (Nat.succ.inj size) (fun other member => inside other (by simp [member])) fewer
    have reads := reads_fullGroup complete
      (fun symbol member => before symbol (List.mem_of_mem_take member)) first
      (inside selector (by simp)) rest
    rwa [← List.map_append, List.take_append_drop] at reads

theorem reads_number {width value : Nat} (small : value < 2 ^ width) (narrow : width ≤ 32) :
    Reads (Reader.number width) (⟨UInt32.ofNat value, width⟩ : Field).bits value := by
  have same : (UInt32.ofNat value).toNat = value :=
    UInt32.toNat_ofNat_of_lt' (small.trans_le (Nat.pow_le_pow_right (by decide) narrow))
  have reads := Reads.field ⟨UInt32.ofNat value, width⟩ (by rwa [same])
  rwa [same] at reads

theorem reads_coding {symbols : List (Fin n)} {last : Fin n} (greatest : last.val = n - 1)
    (before : ∀ symbol ∈ symbols, symbol ≠ last) (short : symbols.length < 2 ^ 20)
    {choice : Coding.Choice n} (sound : choice.Sound (Coding.groupsOf (symbols ++ [last]))) :
    Reads (coding n)
      (fieldBits (Coding.fields (Coding.groupsOf (symbols ++ [last])) choice))
      ⟨choice.selectors, choice.tables.map Vector.toList, symbols.map Fin.val⟩ := by
  have several : 0 < n := last.pos
  have count := Coding.length_groupsOf_le (symbols ++ [last])
  rw [List.length_append, List.length_singleton, ← sound.selectors] at count
  have selected : choice.selectors.length < 2 ^ 15 := by
    simp only [Coding.groupSize] at count
    omega
  have positive : 1 ≤ choice.selectors.length := by
    rw [sound.selectors, Nat.one_le_iff_ne_zero]
    intro empty
    have flat := Coding.flatten_groupsOf (symbols ++ [last])
    rw [List.length_eq_zero_iff.mp empty] at flat
    simp at flat
  have tables := Reads.repeated fun (table : Vector Nat n) (member : table ∈ choice.tables) =>
    reads_table several (sound.complete table member)
  have groups := reads_groups sound.complete before sound.selectors sound.selected
  rw [← Coding.bits_symbolFields sound, greatest] at groups
  rw [Coding.fields, coding]
  simp only [fieldBits_append, fieldBits_cons, fieldBits_nil, List.append_nil, List.append_assoc]
  refine (reads_number (Nat.lt_of_le_of_lt sound.tables.2 (by decide)) (by decide)).bind
    (Reads.check sound.tables ?_)
  refine (reads_number selected (by decide)).bind (Reads.check positive ?_)
  refine (reads_selectors sound.tables.2 sound.selected).bind ?_
  rw [fieldBits, List.flatMap_assoc]
  exact tables.bind (groups.map (Coding.mk choice.selectors (choice.tables.map Vector.toList)))

end Decoder

end BlockSort

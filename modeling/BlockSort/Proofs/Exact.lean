import BlockSort.Proofs.Conduct
import BlockSort.Proofs.Inverse.Block
import BlockSort.Proofs.Packing

namespace BlockSort

/-- A field that one write can carry as it is. -/
structure Field.Exact (field : Field) : Prop where
  positive : 1 ≤ field.width
  narrow : field.width ≤ Field.widest
  fits : field.value.toNat < 2 ^ field.width

theorem Field.Exact.masked {field : Field} (exact : field.Exact) : field.masked = field.value := by
  apply UInt32.toNat_inj.mp
  rw [BitWriter.masked_toNat exact.narrow, Nat.mod_eq_of_lt exact.fits]

/-- Every field is exact. -/
def Exact (fields : List Field) : Prop := ∀ field ∈ fields, field.Exact

namespace Exact

theorem append {first second : List Field} (one : Exact first) (other : Exact second) :
    Exact (first ++ second) := List.forall_mem_append.mpr ⟨one, other⟩

theorem map {α : Type} {field : α → Field} {items : List α}
    (each : ∀ item ∈ items, (field item).Exact) : Exact (items.map field) :=
  List.forall_mem_map.mpr each

theorem flatMap {α : Type} {fields : α → List Field} {items : List α}
    (each : ∀ item ∈ items, Exact (fields item)) : Exact (items.flatMap fields) := by
  intro field member
  obtain ⟨item, inside, found⟩ := List.mem_flatMap.mp member
  exact each item inside field found

end Exact

namespace Field.Exact

theorem number {value width : Nat} (positive : 1 ≤ width) (narrow : width ≤ widest)
    (fits : value < 2 ^ width) : (⟨UInt32.ofNat value, width⟩ : Field).Exact := by
  have word : value < 2 ^ 32 :=
    fits.trans_le (Nat.pow_le_pow_right (by decide) (narrow.trans (by decide)))
  exact ⟨positive, narrow, by rwa [UInt32.toNat_ofNat_of_lt' word]⟩

theorem byte (byte : UInt8) : (Field.byte byte).Exact where
  positive := Nat.le_add_left 1 7
  narrow := Nat.le_add_left 8 16
  fits := (UInt8.toNat_toUInt32 byte).trans_lt byte.toNat_lt

theorem bit (flag : Bool) : (Field.bit flag).Exact where
  positive := Nat.le_refl 1
  narrow := Nat.le_add_left 1 23
  fits := by cases flag <;> decide

theorem ofBits {flags : List Bool} (nonempty : flags ≠ []) (narrow : flags.length ≤ widest) :
    (Field.ofBits flags).Exact where
  positive := List.length_pos_of_ne_nil nonempty
  narrow := narrow
  fits := by
    rw [toNat_ofBits (narrow.trans (by decide))]
    exact Bits.toNat_lt flags

end Field.Exact

namespace Exact

theorem bytes (bytes : List UInt8) : Exact (bytes.map Field.byte) := map fun value _ => .byte value

theorem word (word : UInt32) : Exact (Field.word word) := map fun _ _ => .byte _

end Exact

namespace Coding

variable {n : Nat}

theorem unary_exact {count : Nat} (few : count < 6) : (unary count).Exact := by
  have every : ∀ count < 6, 1 ≤ (unary count).width ∧ (unary count).width ≤ Field.widest ∧
      (unary count).value.toNat < 2 ^ (unary count).width := by decide
  obtain ⟨positive, narrow, fits⟩ := every count few
  exact ⟨positive, narrow, fits⟩

theorem selectorFields_exact {tables : Nat} (few : tables ≤ 6) {selectors : List Nat}
    (inside : ∀ selector ∈ selectors, selector < tables) :
    Exact (selectorFields tables selectors) := by
  have known : ∀ selector ∈ selectors, selector ∈ List.range tables := fun selector member =>
    List.mem_range.mpr (inside selector member)
  refine Exact.map fun place member => unary_exact ?_
  have below := Recency.ranks_lt known place member
  rw [List.length_range] at below
  omega

theorem lengthSteps_exact (current : Nat) (table : List Nat) :
    Exact (lengthSteps current table) := by
  have two {value : UInt32} (fits : value.toNat < 2 ^ 2) (count : Nat) :
      Exact (List.replicate count ⟨value, 2⟩) := by
    intro field member
    rw [(List.mem_replicate.mp member).2]
    exact ⟨Nat.le_add_left 1 1, Nat.le_add_left 2 22, fits⟩
  induction table generalizing current with
  | nil => exact fun field member => nomatch member
  | cons next rest ih =>
    refine (((two (by decide) _).append (two (by decide) _)).append ?_).append (ih next)
    exact List.forall_mem_singleton.mpr (.bit false)

/-- The lengths of a complete table are written in five bits and in steps. -/
theorem tableFields_exact {table : Vector Nat n}
    (complete : PrefixCode.Complete longestCode table.toList) : Exact (tableFields table) := by
  refine List.forall_mem_cons.mpr ⟨.number (by decide) (by decide) ?_, lengthSteps_exact _ _⟩
  cases lengths : table.toList with
  | nil => decide
  | cons first rest =>
    have bounded := complete.bounded first (by simp [lengths])
    exact Nat.lt_of_le_of_lt bounded (by decide)

theorem codeFields_exact {table : Vector Nat n}
    (complete : PrefixCode.Complete longestCode table.toList) (symbol : Fin n) :
    ((codeFields table).get symbol).Exact := by
  have inside : symbol.val < table.toList.length := by simp
  obtain ⟨code, given, value⟩ := complete.roomy.codes_get (by decide) (toList_get table symbol)
  have fits := complete.roomy.codeAt_lt inside
  have length : table.toList[symbol.val] = table.get symbol := by simp [Vector.get_eq_getElem]
  have member : table.get symbol ∈ table.toList := length ▸ List.getElem_mem inside
  have same : (codeFields table).get symbol = ⟨code, table.get symbol⟩ := by
    simp [codeFields, Vector.get_eq_getElem, Array.getD_eq_getD_getElem?, given]
  rw [same]
  refine ⟨complete.positive _ member, (complete.bounded _ member).trans (by decide), ?_⟩
  rw [length] at fits
  rwa [value]

theorem codeFields_width_le {table : Vector Nat n}
    (complete : PrefixCode.Complete longestCode table.toList) (symbol : Fin n) :
    ((codeFields table).get symbol).width ≤ longestCode := by
  have member : table[symbol.val] ∈ table.toList := by simp
  simpa [codeFields, Vector.get_eq_getElem] using complete.bounded _ member

theorem fields_exact {groups : List (List (Fin n))} {choice : Choice n}
    (sound : choice.Sound groups) (few : choice.selectors.length < 2 ^ 15) :
    Exact (fields groups choice) := by
  have counts : Exact [⟨UInt32.ofNat choice.tables.length, 3⟩,
      ⟨UInt32.ofNat choice.selectors.length, 15⟩] :=
    List.forall_mem_cons.mpr
      ⟨.number (by decide) (by decide) (Nat.lt_of_le_of_lt sound.tables.2 (by decide)),
        List.forall_mem_singleton.mpr (.number (by decide) (by decide) few)⟩
  refine ((counts.append (selectorFields_exact sound.tables.2 sound.selected)).append
    (.flatMap fun table member => tableFields_exact (sound.complete table member))).append
    (.flatMap fun (group, selector) member => ?_)
  have inside := sound.selected selector (List.of_mem_zip member).2
  simp only [List.getElem?_toArray, List.getElem?_map, List.getElem?_eq_getElem inside,
    Option.map_some]
  exact Exact.map fun symbol _ => codeFields_exact (sound.complete _ (List.getElem_mem inside)) symbol

end Coding

theorem ByteSet.mapFields_exact (set : ByteSet) : Exact set.mapFields := by
  have sixteen {flags : List Bool} (length : flags.length = 16) : (Field.ofBits flags).Exact :=
    .ofBits (List.ne_nil_of_length_pos (by omega)) (length.trans_le (by decide))
  refine List.forall_mem_cons.mpr ⟨sixteen (by simp), Exact.map fun flags member => sixteen ?_⟩
  obtain ⟨high, -, rfl⟩ := List.mem_map.mp (List.mem_filter.mp member).1
  exact set.length_range high

namespace SortedBlock

theorem length_symbols_le {sorted : SortedBlock}
    (perm : sorted.order.Perm (List.finRange sorted.block.bytes.size)) :
    (SymbolStream.ofColumn sorted.block.present sorted.column).symbols.length ≤
      sorted.block.bytes.size + 1 := by
  have spelled := SymbolStream.length_spell_le 0
    (Recency.ranks sorted.block.present.toList sorted.column)
  rw [Recency.length_ranks, column, List.length_map, perm.length_eq, List.length_finRange,
    Nat.zero_add, ← column] at spelled
  rw [SymbolStream.ofColumn, List.length_map, List.length_append, List.length_singleton,
    SymbolStream.ofRanks_eq]
  exact Nat.add_le_add_right spelled 1

theorem choice_sound {sorted : SortedBlock}
    (perm : sorted.order.Perm (List.finRange sorted.block.bytes.size))
    (small : sorted.block.bytes.size ≤ 900000) :
    sorted.coded.choice.Sound sorted.coded.groups := by
  have length := length_symbols_le perm
  have few := sorted.block.present.length_toList_le
  exact CodedStream.choice_sound (.ofColumn sorted.block.present sorted.column)
    (Nat.le_add_left 2 _) (Nat.add_le_add_right few 2) (by omega)

theorem length_selectors_lt {sorted : SortedBlock}
    (perm : sorted.order.Perm (List.finRange sorted.block.bytes.size))
    (small : sorted.block.bytes.size ≤ 900000) :
    sorted.coded.choice.selectors.length * Coding.groupSize <
      sorted.block.bytes.size + 1 + Coding.groupSize := by
  have groups := Coding.length_groupsOf_le
    (SymbolStream.ofColumn sorted.block.present sorted.column).symbols
  rw [(choice_sound perm small).selectors]
  exact groups.trans_le (Nat.add_le_add_right (length_symbols_le perm) _)

/-- All fields of a sorted block are exact, its origin, selectors and codes included. -/
theorem fields_exact {sorted : SortedBlock}
    (perm : sorted.order.Perm (List.finRange sorted.block.bytes.size))
    (occupied : sorted.block.bytes.size ≠ 0) (small : sorted.block.bytes.size ≤ 900000) :
    Exact (sorted.headerFields ++ sorted.coded.fields) := by
  have sound := choice_sound perm small
  have origin : sorted.origin < 2 ^ 24 := ((origin_lt perm occupied).trans_le small).trans (by decide)
  have few : sorted.coded.choice.selectors.length < 2 ^ 15 := by
    have selectors := length_selectors_lt perm small
    rw [Coding.groupSize] at selectors
    omega
  have places : Exact [.bit sorted.block.perturbed, ⟨UInt32.ofNat sorted.origin, 24⟩] :=
    List.forall_mem_cons.mpr
      ⟨.bit _, List.forall_mem_singleton.mpr (.number (by decide) (by decide) origin)⟩
  exact ((((Exact.bytes _).append (.word _)).append places).append
    sorted.block.present.mapFields_exact).append (Coding.fields_exact sound few)

end SortedBlock

/-- Every field fits into one write. -/
def Narrow (fields : List Field) : Prop := ∀ field ∈ fields, field.width ≤ Field.widest

theorem Exact.narrow {fields : List Field} (exact : Exact fields) : Narrow fields :=
  fun field member => (exact field member).narrow

namespace Narrow

theorem nil : Narrow [] := by simp [Narrow]

theorem append {first second : List Field} (one : Narrow first) (other : Narrow second) :
    Narrow (first ++ second) := List.forall_mem_append.mpr ⟨one, other⟩

theorem bytes (bytes : List UInt8) : Narrow (bytes.map Field.byte) := (Exact.bytes bytes).narrow

theorem word (word : UInt32) : Narrow (Field.word word) := (Exact.word word).narrow

theorem actions {fields : List Field} (narrow : Narrow fields) :
    ∀ action ∈ fields.map Action.put, action.Narrow := List.forall_mem_map.mpr narrow

end Narrow

end BlockSort

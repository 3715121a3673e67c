import BlockSort.CodedStream
import BlockSort.Proofs.PrefixCode.Numbering
import BlockSort.Proofs.Reading

namespace BlockSort

open PrefixCode

namespace Decoder

variable {n : Nat}

/-- The path from one length to another stays between them. -/
theorem reads_steps {current next : Nat} (current_pos : 1 ≤ current)
    (current_le : current ≤ longestCode) (next_pos : 1 ≤ next) (next_le : next ≤ longestCode) :
    Reads (length current) (fieldBits (Coding.stepFields current next)) next := by
  have up : (⟨0b10, 2⟩ : Field).bits = [true, false] := by decide
  have down : (⟨0b11, 2⟩ : Field).bits = [true, true] := by decide
  have stop : (Field.bit false).bits = [false] := by decide
  intro rest
  rw [Coding.stepFields]
  induction distance : (next - current) + (current - next) generalizing current with
  | zero =>
    obtain rfl : current = next := by omega
    simp [stop, length, current_pos, current_le]
  | succ distance ih =>
    by_cases less : current < next
    · have step := ih (Nat.le_add_left 1 current) (by omega) (by omega)
      have above : current - next = 0 := by omega
      have further : current + 1 - next = 0 := by omega
      have nearer : next - current = next - (current + 1) + 1 := by omega
      rw [nearer, List.replicate_succ, above]
      rw [further] at step
      simp only [List.cons_append, fieldBits_cons, up]
      rw [length]
      simpa [current_pos, current_le] using step
    · have positive : 1 ≤ current - 1 := by omega
      have step := ih positive (by omega) (by omega)
      have below : next - current = 0 := by omega
      have further : next - (current - 1) = 0 := by omega
      have nearer : current - next = current - 1 - next + 1 := by omega
      rw [nearer, List.replicate_succ, below]
      rw [further] at step
      simp only [List.replicate_zero, List.nil_append, List.cons_append, fieldBits_cons, down]
        at step ⊢
      rw [length]
      simpa [current_pos, current_le] using step

theorem reads_lengths {current : Nat} {table : List Nat} (current_pos : 1 ≤ current)
    (current_le : current ≤ longestCode) (positive : ∀ length ∈ table, 1 ≤ length)
    (bounded : ∀ length ∈ table, length ≤ longestCode) :
    Reads (lengths table.length current) (fieldBits (Coding.lengthSteps current table)) table := by
  induction table generalizing current with
  | nil => exact Reads.pure []
  | cons next rest ih =>
    have next_pos := positive next (by simp)
    have next_le := bounded next (by simp)
    have others := ih next_pos next_le (fun length member => positive length (by simp [member]))
      (fun length member => bounded length (by simp [member]))
    rw [Coding.lengthSteps, fieldBits_append, List.length_cons, lengths]
    exact (reads_steps current_pos current_le next_pos next_le).bind (others.map (next :: ·))

theorem reads_table {table : Vector Nat n} (several : 0 < n)
    (complete : Complete longestCode table.toList) :
    Reads (Decoder.table n) (fieldBits (Coding.tableFields table)) table.toList := by
  obtain ⟨first, rest, shape⟩ : ∃ first rest, table.toList = first :: rest :=
    List.exists_cons_of_length_pos (by simpa using several)
  have size : (first :: rest).length = n := by rw [← shape, Vector.length_toList]
  rw [shape] at complete
  have positive := complete.positive first (by simp)
  have bounded := complete.bounded first (by simp)
  have small : first < 32 := Nat.lt_of_le_of_lt bounded (by decide)
  have value : (UInt32.ofNat first).toNat = first := by
    rw [UInt32.toNat_ofNat']
    omega
  have begins : Reads (Reader.number 5) (⟨UInt32.ofNat first, 5⟩ : Field).bits first := by
    have reads := Reads.field ⟨UInt32.ofNat first, 5⟩ (by
      rw [value]
      exact small)
    rwa [value] at reads
  have steps := reads_lengths positive bounded complete.positive complete.bounded
  rw [size] at steps
  rw [Decoder.table, Coding.tableFields, shape]
  exact begins.bind steps

theorem length_symbolsBefore (table : List Nat) (width : Nat) {place : Nat}
    (inside : place ≤ table.length) :
    ((List.range place).filter fun symbol => table[symbol]? = some width).length =
      (table.take place).count width := by
  induction place with
  | zero => simp
  | succ place ih =>
    have bound : place < table.length := inside
    rw [List.range_succ, List.filter_append, List.length_append, ih (by omega),
      List.take_succ_eq_append_getElem bound, List.count_append]
    by_cases same : table[place] = width
    · simp [List.getElem?_eq_getElem bound, same]
    · simp [List.getElem?_eq_getElem bound, same]

theorem length_symbolsOfLength (table : List Nat) (width : Nat) :
    (symbolsOfLength table width).length = table.count width := by
  have counted := length_symbolsBefore table width (Nat.le_refl _)
  rwa [List.take_length] at counted

/-- A symbol stands among those of its length after the earlier ones. -/
theorem symbolsOfLength_get {table : List Nat} {place width : Nat}
    (found : table[place]? = some width) :
    (symbolsOfLength table width)[(table.take place).count width]? = some place := by
  obtain ⟨inside, _⟩ := List.getElem?_eq_some_iff.mp found
  obtain ⟨later, size⟩ := Nat.exists_eq_add_of_lt inside
  have first : (List.range (later + 1)).map (place + ·) =
      place :: (List.range later).map (place + 1 + ·) := by
    rw [List.range_succ_eq_map, List.map_cons, List.map_map, Nat.add_zero]
    congr 2
    funext other
    exact Nat.add_right_comm place other 1
  rw [symbolsOfLength, size, Nat.add_assoc, List.range_add, List.filter_append, first,
    List.filter_cons_of_pos (by simpa using found), ← length_symbolsBefore table width (by omega),
    List.getElem?_append_right (Nat.le_refl _), Nat.sub_self]
  rfl

/-- A code is read bit by bit, from any of its bits on. -/
theorem reads_symbolFrom {table : List Nat} {place width : Nat}
    (found : table[place]? = some width) (rounds : Nat) {length : Nat} (begun : length ≤ width)
    (enough : width < length + rounds) :
    Reads
      (symbolFrom table rounds length (codeAt table place width >>> (width - length + 1))
        (firstCode table length))
      (Bits.ofNat (width - length + 1) (codeAt table place width)) place := by
  induction rounds generalizing length with
  | zero => omega
  | succ rounds ih =>
    have next : 2 * codeAt table place width >>> (width - length + 1) +
        ((codeAt table place width).testBit (width - length)).toNat =
        codeAt table place width >>> (width - length) := by
      rw [Nat.shiftRight_succ, Nat.toNat_testBit, ← Nat.shiftRight_eq_div_pow]
      omega
    rw [Bits.ofNat, symbolFrom]
    refine (Reads.flag _).bind ?_
    simp only [next, length_symbolsOfLength]
    rcases Nat.lt_or_eq_of_le begun with shorter | rfl
    · -- The number is past the codes of this length.
      have past : firstCode table length + table.count length ≤
          codeAt table place width >>> (width - length) := by
        rw [Nat.shiftRight_eq_div_pow, Nat.le_div_iff_mul_le (Nat.two_pow_pos _)]
        exact (firstCode_step table shorter).trans (Nat.le_add_right _ _)
      have missing : (symbolsOfLength table length)[codeAt table place width >>> (width - length) -
          firstCode table length]? = none := by
        rw [List.getElem?_eq_none_iff, length_symbolsOfLength]
        omega
      have left : width - (length + 1) + 1 = width - length := by omega
      have rest := ih (Nat.succ_le_of_lt shorter) (by omega)
      rw [left] at rest
      rw [if_pos (by omega), missing]
      simp only
      rw [← firstCode_succ]
      exact rest
    · rw [Nat.sub_self, Nat.shiftRight_zero, codeAt, if_pos (Nat.le_add_right _ _),
        Nat.add_sub_cancel_left, symbolsOfLength_get found]
      exact Reads.pure place

theorem reads_symbol {table : List Nat} (complete : Complete longestCode table)
    {place width : Nat} (found : table[place]? = some width) :
    Reads (symbol table) (Bits.ofNat width (codeAt table place width)) place := by
  have member := List.mem_of_getElem? found
  have positive := complete.positive width member
  have bounded := complete.bounded width member
  obtain ⟨inside, same⟩ := List.getElem?_eq_some_iff.mp found
  have small := complete.roomy.codeAt_lt inside
  rw [same] at small
  have zero : firstCode table 0 = 0 := by simp [firstCode]
  have one : firstCode table 1 = 0 := by rw [firstCode_succ, zero, complete.roomy.count_zero]
  have reads := reads_symbolFrom found longestCode positive (by omega)
  rw [Nat.sub_add_cancel positive, Nat.shiftRight_eq_div_pow, Nat.div_eq_of_lt small, one] at reads
  exact reads

end Decoder

end BlockSort

import BlockSort.Proofs.PrefixCode.Numbering
import BlockSort.Proofs.Storage.Spread
import BlockSort.Storage.CodingSpace

namespace BlockSort.CodingSpace

variable {lengths : List Nat} {counts next : Array UInt32}

theorem lengthLimit_pos : 0 < lengthLimit := Nat.two_pow_pos 8

theorem tabulates_replicate {α : Type} (size : Nat) (item : α) :
    Tabulates size (fun _ => item) (Array.replicate size item) :=
  ⟨Array.size_replicate .., fun place inside => by simp [inside]⟩

theorem countLengths_spec (narrow : ∀ length ∈ lengths, length < lengthLimit) :
    ∃ counts, countLengths lengths = some counts ∧
      Tabulates lengthLimit (fun length => UInt32.ofNat (lengths.count length)) counts := by
  have counted {value : Nat → UInt32} {counts : Array UInt32}
      (tabulates : Tabulates lengthLimit value counts) :
      ∃ after, lengths.foldlM (fun counts length => Cells.update counts length (some <| · + 1))
          counts = some after ∧
        Tabulates lengthLimit (fun length => value length + UInt32.ofNat (lengths.count length))
          after := by
    induction lengths generalizing value counts with
    | nil => exact ⟨counts, rfl, tabulates.congr fun length _ => by simp⟩
    | cons first rest ih =>
      obtain ⟨middle, update, tabulates⟩ := tabulates.update (narrow first (by simp)) (· + 1)
      obtain ⟨after, others, tabulates⟩ :=
        ih (fun length member => narrow length (by simp [member])) tabulates
      refine ⟨after, by rw [List.foldlM_cons, update]; exact others,
        tabulates.congr fun length _ => ?_⟩
      rw [Function.update_apply, List.count_cons]
      by_cases same : length = first
      · subst same
        simp [UInt32.ofNat_add, add_assoc, add_comm]
      · simp [same, Ne.symm same]
  obtain ⟨after, run, tabulates⟩ := counted (tabulates_replicate lengthLimit 0)
  exact ⟨after, run, tabulates.congr fun length _ => UInt32.zero_add _⟩

theorem numberLengths_spec (narrow : lengths.foldl max 0 < lengthLimit)
    (counted : Tabulates lengthLimit (fun length => UInt32.ofNat (lengths.count length)) counts)
    {todo length : Nat} (positive : 0 < length)
    (complete : length + todo = lengths.foldl max 0 + 1) {code : UInt32}
    (first : 0 < todo → code = (PrefixCode.firstCodes lengths).getD length 0)
    (size : next.size = lengthLimit) (begun : ∀ shorter < length,
      next[shorter]? = some ((PrefixCode.firstCodes lengths).getD shorter 0)) :
    ∃ after, numberLengths counts todo length code next = some after ∧ after.size = lengthLimit ∧
      ∀ length ≤ lengths.foldl max 0,
        after[length]? = some ((PrefixCode.firstCodes lengths).getD length 0) := by
  induction todo generalizing length code next with
  | zero => exact ⟨next, rfl, size, fun shorter within => begun shorter (by omega)⟩
  | succ todo ih =>
    have inside : length < next.size := by omega
    have put : Cells.put next length code = some (next.set length code) := dif_pos inside
    obtain ⟨after, run, result⟩ := @ih (next.set length code) (length + 1) (by omega) (by omega)
      (PrefixCode.extend code (lengths.count length)) (fun more => by
        rw [first (by omega), PrefixCode.firstCodes_succ positive (by omega)])
      (by rw [Array.size_set, size]) (fun shorter within => by
        rw [Array.getElem?_set]
        by_cases same : length = shorter
        · subst same
          rw [if_pos rfl, first (by omega)]
        · rw [if_neg same, begun shorter (by omega)])
    refine ⟨after, ?_, result⟩
    rw [numberLengths, put, counted.get length (by omega)]
    exact run

theorem takeCodes_spec {first : Array UInt32} (size : next.size = lengthLimit)
    (narrow : ∀ length ∈ lengths, length < lengthLimit ∧ length < first.size)
    (same : ∀ length ∈ lengths, next[length]? = some (first.getD length 0)) :
    takeCodes lengths next = some (PrefixCode.handOut first lengths) := by
  induction lengths generalizing next first with
  | nil => rfl
  | cons length rest ih =>
    obtain ⟨inside, known⟩ := narrow length (by simp)
    have bound : length < next.size := inside.trans_eq size.symm
    have put (code : UInt32) : Cells.put next length code = some (next.set length code) :=
      dif_pos bound
    have stepped : ∀ other ∈ rest, (next.set length (first.getD length 0 + 1))[other]? =
        some ((first.modify length (· + 1)).getD other 0) := by
      intro other member
      rw [Array.getElem?_set, @Array.getD_eq_getD_getElem? _ (first.modify _ _),
        Array.getElem?_modify]
      by_cases equal : length = other
      · subst equal
        rw [if_pos rfl, if_pos rfl, Array.getD_eq_getD_getElem?, Array.getElem?_eq_getElem known]
        rfl
      · rw [if_neg equal, if_neg equal, same other (by simp [member]),
          Array.getD_eq_getD_getElem?]
    have others := @ih (next.set length (first.getD length 0 + 1)) (first.modify length (· + 1))
      (by rw [Array.size_set, size])
      (fun other member => by
        rw [Array.size_modify]
        exact narrow other (by simp [member]))
      stepped
    rw [takeCodes, PrefixCode.handOut, same length (by simp)]
    simp only [Option.bind_eq_bind, Option.bind_some, put, others]
    rfl

/-- The codes from arrays are the canonical ones, for all lengths that the arrays have room for. -/
theorem number_eq (narrow : ∀ length ∈ lengths, length < lengthLimit) :
    number lengths = some (PrefixCode.codes lengths) := by
  have longest : lengths.foldl max 0 < lengthLimit := by
    rcases eq_or_ne lengths [] with rfl | occupied
    · exact lengthLimit_pos
    · rw [List.foldl_max_eq_max occupied, Nat.zero_max]
      exact narrow _ (List.max_mem occupied)
  obtain ⟨counts, count, counted⟩ := countLengths_spec narrow
  obtain ⟨next, numbered, size, begun⟩ := @numberLengths_spec lengths counts
    (Array.replicate lengthLimit 0) longest counted (lengths.foldl max 0) 1 Nat.one_pos
    (Nat.add_comm ..) 0 (fun _ => (PrefixCode.firstCodes_one lengths).symm) Array.size_replicate
    (fun shorter within => by
      obtain rfl : shorter = 0 := by omega
      rw [PrefixCode.firstCodes_zero, Array.getElem?_replicate, if_pos lengthLimit_pos])
  rw [number, count]
  simp only [Option.bind_eq_bind, Option.bind_some, numbered]
  exact takeCodes_spec size
    (fun length member => ⟨narrow length member,
      (PrefixCode.le_longest member).trans_lt (PrefixCode.longest_lt_size lengths)⟩)
    (fun length member => begun length (PrefixCode.le_longest member))

end BlockSort.CodingSpace

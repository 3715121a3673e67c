import BlockSort.Proofs.Choice

namespace BlockSort.Coding.Slice

theorem total_eq_sum (frequencies : List Nat) : total frequencies = frequencies.sum :=
  List.sum_eq_foldl.symm

theorem needed_le (share : Nat) (frequencies : List Nat) :
    needed share frequencies ≤ frequencies.length := by
  induction frequencies generalizing share with
  | nil => exact Nat.le_refl 0
  | cons frequency rest ih =>
    rw [needed, List.length_cons]
    split
    · exact Nat.zero_le _
    · exact Nat.succ_le_succ (ih _)

/-- Frequencies of which the last one, if there is any, counts. -/
def Ends (frequencies : List Nat) : Prop :=
  ∀ last, frequencies.getLast? = some last → last ≠ 0

theorem Ends.drop {frequencies : List Nat} (ends : Ends frequencies) (count : Nat) :
    Ends (frequencies.drop count) := by
  intro last found
  rw [List.getLast?_drop] at found
  split at found
  · cases found
  · exact ends last found

/-- All frequencies are needed for their sum if the last one counts. -/
theorem needed_sum {frequencies : List Nat} (ends : Ends frequencies) :
    needed frequencies.sum frequencies = frequencies.length := by
  induction frequencies with
  | nil => rfl
  | cons frequency rest ih =>
    have positive : (frequency :: rest).sum ≠ 0 := by
      obtain ⟨last, found⟩ := Option.isSome_iff_exists.mp
        (List.getLast?_isSome.mpr (List.cons_ne_nil frequency rest))
      have part := List.le_sum_of_mem (List.mem_of_getLast? found)
      have counts := ends last found
      omega
    rw [needed, if_neg positive, List.sum_cons, Nat.add_sub_cancel_left, ih (ends.drop 1),
      List.length_cons]

/-- How many symbols the slice of a part takes. -/
def extent (tables part remaining : Nat) (frequencies : List Nat) : Nat :=
  let reached := needed (remaining / part) frequencies
  if 1 < reached && givesBack tables part then reached - 1 else reached

theorem extent_le (tables part remaining : Nat) (frequencies : List Nat) :
    extent tables part remaining frequencies ≤ frequencies.length := by
  have reached := needed_le (remaining / part) frequencies
  rw [extent]
  split <;> omega

theorem cut_succ (tables parts start remaining : Nat) (frequencies : List Nat) :
    let count := extent tables (parts + 1) remaining frequencies
    cut tables (parts + 1) start remaining frequencies =
      ⟨start, count⟩ :: cut tables parts (start + count)
        (remaining - total (frequencies.take count)) (frequencies.drop count) :=
  rfl

theorem total_sub_take (frequencies : List Nat) (count : Nat) :
    total frequencies - total (frequencies.take count) = total (frequencies.drop count) := by
  have split := List.sum_take_add_sum_drop frequencies count
  simp only [total_eq_sum]
  omega

/-- Where a part of the slices begins, counted from the first slice. -/
def boundary (slices : List Slice) (part : Nat) : Nat := ((slices.take part).map count).sum

theorem boundary_mono (slices : List Slice) : Monotone (boundary slices) := by
  refine monotone_nat_of_le_succ fun part => ?_
  rw [boundary, boundary, List.take_add_one, List.map_append, List.sum_append]
  exact Nat.le_add_right _ _

theorem start_cut {tables parts start remaining : Nat} {frequencies : List Nat} {part : Nat}
    (inside : part < parts) :
    let slices := cut tables parts start remaining frequencies
    slices[part]? = some
      ⟨start + boundary slices part, boundary slices (part + 1) - boundary slices part⟩ := by
  induction parts generalizing start remaining frequencies part with
  | zero => omega
  | succ parts ih =>
    rw [cut_succ]
    cases part with
    | zero => simp [boundary]
    | succ part =>
      have later := @ih (start + extent tables (parts + 1) remaining frequencies) (remaining -
        total (frequencies.take (extent tables (parts + 1) remaining frequencies)))
        (frequencies.drop (extent tables (parts + 1) remaining frequencies)) part (by omega)
      simp only [List.getElem?_cons_succ, later, boundary, List.take_succ_cons, List.map_cons,
        List.sum_cons, Nat.add_assoc, Nat.add_sub_add_left]

/-- The slices of an alphabet are told by their boundaries. -/
theorem cut_eq_map (tables parts remaining : Nat) (frequencies : List Nat) :
    let slices := cut tables parts 0 remaining frequencies
    slices = (List.range parts).map fun part =>
      ⟨boundary slices part, boundary slices (part + 1) - boundary slices part⟩ := by
  refine List.ext_getElem? fun part => ?_
  rw [List.getElem?_map]
  by_cases inside : part < parts
  · rw [start_cut inside, List.getElem?_range inside, Option.map_some, Nat.zero_add]
  · have short := length_cut tables parts 0 remaining frequencies
    rw [List.getElem?_eq_none (by omega), List.getElem?_eq_none (by simpa using inside)]
    rfl

theorem boundary_cut_le (tables parts start remaining : Nat) (frequencies : List Nat)
    (part : Nat) :
    boundary (cut tables parts start remaining frequencies) part ≤ frequencies.length := by
  induction parts generalizing start remaining frequencies part with
  | zero => simp [boundary, cut]
  | succ parts ih =>
    rw [cut_succ]
    cases part with
    | zero => simp [boundary]
    | succ part =>
      have first := extent_le tables (parts + 1) remaining frequencies
      have later := ih (start + extent tables (parts + 1) remaining frequencies) (remaining -
        total (frequencies.take (extent tables (parts + 1) remaining frequencies)))
        (frequencies.drop (extent tables (parts + 1) remaining frequencies)) part
      rw [List.length_drop] at later
      simp only [boundary, List.take_succ_cons, List.map_cons, List.sum_cons] at later ⊢
      omega

/-- The slices take the whole alphabet if its last symbol occurs: the last slice gives nothing
back, and its share is all that remains. -/
theorem boundary_cut {tables parts start : Nat} {frequencies : List Nat} (ends : Ends frequencies)
    (positive : 0 < parts) :
    boundary (cut tables parts start (total frequencies) frequencies) parts =
      frequencies.length := by
  induction parts generalizing start frequencies with
  | zero => omega
  | succ parts ih =>
    rw [cut_succ, total_sub_take]
    cases parts with
    | zero =>
      have all : extent tables 1 (total frequencies) frequencies = frequencies.length := by
        simp [extent, givesBack, total_eq_sum, needed_sum ends]
      simp [boundary, all]
    | succ parts =>
      have first := extent_le tables (parts + 1 + 1) (total frequencies) frequencies
      have later := @ih (start + extent tables (parts + 1 + 1) (total frequencies) frequencies) _
        (ends.drop (extent tables (parts + 1 + 1) (total frequencies) frequencies)) (by omega)
      rw [List.length_drop] at later
      simp only [boundary, List.take_succ_cons, List.map_cons, List.sum_cons] at later ⊢
      omega

/-- A symbol that is given back is among those that were taken. -/
theorem takeChecked_eq (tables part remaining : Nat) (frequencies : List Nat) :
    let count := extent tables part remaining frequencies
    takeChecked tables part remaining frequencies =
      some (count, total (frequencies.take count)) := by
  have bound := needed_le (remaining / part) frequencies
  simp only [takeChecked, extent]
  generalize needed (remaining / part) frequencies = reached at bound
  split_ifs with back
  · have several : 1 < reached := by
      rw [Bool.and_eq_true, decide_eq_true_eq] at back
      exact back.1
    obtain ⟨before, rfl⟩ : ∃ before, reached = before + 1 := ⟨reached - 1, by omega⟩
    have found : frequencies[before]? = some frequencies[before] :=
      List.getElem?_eq_getElem (by omega)
    have share : total (frequencies.take (before + 1)) =
        total (frequencies.take before) + frequencies[before] := by
      rw [total_eq_sum, total_eq_sum, List.take_add_one, found, List.sum_append]
      simp
    rw [share, Nat.add_sub_cancel, found]
    simp only [Option.bind_eq_bind, Option.bind_some, Cells.minus,
      if_pos (Nat.le_add_left frequencies[before] _), Nat.add_sub_cancel_right]
    rfl
  · rfl

/-- No difference is negative as long as the symbols that remain are those of the rest of the
alphabet. -/
theorem cutChecked_eq (tables parts start : Nat) (frequencies : List Nat) :
    cutChecked tables parts start (total frequencies) frequencies =
      some (cut tables parts start (total frequencies) frequencies) := by
  induction parts generalizing start frequencies with
  | zero => rfl
  | succ parts ih =>
    rw [cutChecked, cut_succ, takeChecked_eq, total_sub_take]
    generalize extent tables (parts + 1) (total frequencies) frequencies = count
    have enough : Cells.minus (total frequencies) (total (frequencies.take count)) =
        some (total (frequencies.drop count)) := by
      rw [Cells.minus, total_sub_take, if_pos]
      have split := List.sum_take_add_sum_drop frequencies count
      rw [total_eq_sum, total_eq_sum]
      omega
    simp only [Option.bind_eq_bind, Option.bind_some, enough, ih]
    rfl

/-- A first guess is told by the boundaries of its slice. The last table has the first slice. -/
theorem firstTables_getElem? {n : Nat} (tables : Nat) (frequencies : Vector Nat n) {part : Nat}
    (inside : part < tables) :
    let slices := ofFrequencies tables frequencies.toList
    (firstTables tables frequencies)[tables - 1 - part]? = some (Vector.ofFn fun symbol =>
      if boundary slices part ≤ symbol.val ∧ symbol.val < boundary slices (part + 1)
        then nearLength else farLength) := by
  intro slices
  have length : slices.length = tables := length_cut tables tables 0 _ _
  have place : slices.length - 1 - (tables - 1 - part) = part := by omega
  have slice : slices[part]? =
      some ⟨boundary slices part, boundary slices (part + 1) - boundary slices part⟩ := by
    have told := @start_cut tables tables 0 (total frequencies.toList) frequencies.toList part
      inside
    simp only [Nat.zero_add] at told
    exact told
  have stop : boundary slices part + (boundary slices (part + 1) - boundary slices part) =
      boundary slices (part + 1) :=
    Nat.add_sub_cancel' (boundary_mono slices (Nat.le_add_right part 1))
  have near : tables - 1 - part < (slices.map (firstTable n)).length := by
    rw [List.length_map]
    omega
  rw [firstTables, List.getElem?_reverse near, List.length_map, place, List.getElem?_map, slice,
    Option.map_some, firstTable]
  simp only [contains, stop, Bool.and_eq_true, decide_eq_true_eq]

end BlockSort.Coding.Slice

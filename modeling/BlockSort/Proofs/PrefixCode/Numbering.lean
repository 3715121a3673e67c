import BlockSort.Proofs.PrefixCode.Depths

namespace BlockSort.PrefixCode

/-- The first code of a length: as many are skipped as begin with a shorter code. -/
def firstCode (lengths : List Nat) (width : Nat) : Nat :=
  (lengths.map fun length => if length < width then 2 ^ (width - length) else 0).sum

/-- The code of the symbol at a place. -/
def codeAt (lengths : List Nat) (place : Nat) (length : Nat) : Nat :=
  firstCode lengths length + (lengths.take place).count length

theorem firstCode_cons (length : Nat) (rest : List Nat) (width : Nat) :
    firstCode (length :: rest) width =
      (if length < width then 2 ^ (width - length) else 0) + firstCode rest width := by
  simp [firstCode]

theorem firstCode_succ (lengths : List Nat) (width : Nat) :
    firstCode lengths (width + 1) = 2 * (firstCode lengths width + lengths.count width) := by
  induction lengths with
  | nil => simp [firstCode]
  | cons length rest ih =>
    rw [firstCode_cons, firstCode_cons, ih, List.count_cons]
    rcases Nat.lt_trichotomy length width with shorter | rfl | longer
    · rw [if_pos shorter, if_pos (Nat.lt_succ_of_lt shorter), Nat.succ_sub shorter.le,
        Nat.pow_succ, if_neg (by simp; omega)]
      omega
    · simp
      omega
    · rw [if_neg (by omega), if_neg (by omega), if_neg (by simp; omega)]
      omega

/-- Codes of a width, scaled to the limit, take no more room than all symbols. -/
theorem firstCode_share (lengths : List Nat) {width limit : Nat} (within : width ≤ limit) :
    (firstCode lengths width + lengths.count width) * 2 ^ (limit - width) ≤
      (lengths.map fun length => 2 ^ (limit - length)).sum := by
  induction lengths with
  | nil => simp [firstCode]
  | cons length rest ih =>
    rw [firstCode_cons, List.count_cons, List.map_cons, List.sum_cons]
    rw [Nat.add_mul] at ih
    rcases Nat.lt_trichotomy length width with shorter | rfl | longer
    · have split : width - length + (limit - width) = limit - length := by omega
      have share : 2 ^ (width - length) * 2 ^ (limit - width) = 2 ^ (limit - length) := by
        rw [← Nat.pow_add, split]
      have other : rest.count width + (if (length == width) = true then 1 else 0) =
          rest.count width := by
        rw [if_neg (by simp; omega), Nat.add_zero]
      rw [other, if_pos shorter, Nat.add_mul, Nat.add_mul, share]
      omega
    · rw [if_neg (by omega), if_pos (by simp), Nat.zero_add, Nat.add_mul, Nat.add_mul]
      omega
    · rw [if_neg (by omega), if_neg (by simp; omega), Nat.zero_add, Nat.add_zero, Nat.add_mul]
      exact Nat.le_add_left_of_le ih

/-- The codes of a length begin after all codes that extend a shorter one. -/
theorem firstCode_step (lengths : List Nat) {shorter longer : Nat} (less : shorter < longer) :
    (firstCode lengths shorter + lengths.count shorter) * 2 ^ (longer - shorter) ≤
      firstCode lengths longer := by
  induction longer with
  | zero => omega
  | succ longer ih =>
    rw [firstCode_succ]
    rcases Nat.lt_succ_iff_lt_or_eq.mp less with earlier | rfl
    · have step := ih earlier
      rw [Nat.sub_add_comm (Nat.le_of_lt earlier), Nat.pow_succ, ← Nat.mul_assoc]
      omega
    · rw [Nat.add_sub_cancel_left]
      omega

/-- Lengths that take no more than the code space: none is zero or above the limit, and the shares
of all symbols add up to at most the whole. -/
structure Roomy (limit : Nat) (lengths : List Nat) : Prop where
  positive : ∀ length ∈ lengths, 1 ≤ length
  bounded : ∀ length ∈ lengths, length ≤ limit
  room : (lengths.map fun length => 2 ^ (limit - length)).sum ≤ 2 ^ limit

variable {limit : Nat} {lengths : List Nat}

theorem Complete.roomy (complete : Complete limit lengths) : Roomy limit lengths :=
  ⟨complete.positive, complete.bounded, complete.whole.le⟩

theorem Roomy.firstCode_le (roomy : Roomy limit lengths) {width : Nat}
    (within : width ≤ limit) : firstCode lengths width + lengths.count width ≤ 2 ^ width := by
  have share := (firstCode_share lengths within).trans roomy.room
  rw [← pow_mul_pow_sub 2 within] at share
  exact Nat.le_of_mul_le_mul_right share (Nat.two_pow_pos _)

theorem Roomy.count_zero (roomy : Roomy limit lengths) : lengths.count 0 = 0 :=
  List.count_eq_zero.mpr fun member => absurd (roomy.positive 0 member) (by omega)

theorem count_take_succ {place : Nat} (inside : place < lengths.length) :
    (lengths.take (place + 1)).count lengths[place] =
      (lengths.take place).count lengths[place] + 1 := by
  rw [List.take_succ_eq_append_getElem inside, List.count_append, List.count_singleton_self]

theorem count_take_lt {place : Nat} (inside : place < lengths.length) :
    (lengths.take place).count lengths[place] < lengths.count lengths[place] := by
  have split : (lengths.take (place + 1)).count lengths[place] ≤ lengths.count lengths[place] :=
    (List.take_sublist _ _).count_le _
  rwa [count_take_succ inside] at split

theorem Roomy.codeAt_lt (roomy : Roomy limit lengths) {place : Nat}
    (inside : place < lengths.length) :
    codeAt lengths place lengths[place] < 2 ^ lengths[place] := by
  have room := roomy.firstCode_le (roomy.bounded _ (List.getElem_mem inside))
  have before := count_take_lt inside
  rw [codeAt]
  omega

private theorem toNat_extend {code : UInt32} {count : Nat} (room : code.toNat + count < 2 ^ 31) :
    (extend code count).toNat = 2 * (code.toNat + count) := by
  rw [extend, UInt32.toNat_shiftLeft, UInt32.toNat_add, UInt32.toNat_ofNat', Nat.shiftLeft_eq]
  simp only [UInt32.reduceToNat, Nat.reduceMod, Nat.pow_one]
  omega

private theorem foldl_firstCodes (lengths : List Nat) (count : Nat) :
    let built := ((List.range (count + 1)).drop 1).foldl (fun codes length =>
      codes.push (extend (codes.getD length 0) (lengths.count length))) (#[0, 0] : Array UInt32)
    built.size = count + 2 ∧ built.getD 0 0 = 0 ∧ built.getD 1 0 = 0 ∧
      ∀ length, 0 < length → length ≤ count →
        built.getD (length + 1) 0 = extend (built.getD length 0) (lengths.count length) := by
  induction count with
  | zero => exact ⟨rfl, rfl, rfl, fun length positive bound => by omega⟩
  | succ count ih =>
    obtain ⟨size, zero, one, steps⟩ := ih
    rw [List.range_succ, List.drop_append_of_le_length (by simp), List.foldl_append]
    generalize ((List.range (count + 1)).drop 1).foldl _ _ = built at size zero one steps
    have kept (more : UInt32) {place : Nat} (inside : place < count + 2) :
        (built.push more).getD place 0 = built.getD place 0 := by
      rw [Array.getD_eq_getD_getElem?, Array.getElem?_push_lt (by omega),
        Array.getD_eq_getD_getElem?, Array.getElem?_eq_getElem (by omega)]
    simp only [List.foldl_cons, List.foldl_nil, Array.size_push]
    refine ⟨by omega, by rwa [kept _ (by omega)], by rwa [kept _ (by omega)],
      fun length positive bound => ?_⟩
    rw [kept _ (show length < count + 2 by omega)]
    rcases Nat.lt_or_ge count length with last | earlier
    · obtain rfl : length = count + 1 := by omega
      rw [Array.getD_eq_getD_getElem?, ← size, Array.getElem?_push_size, Option.getD_some]
    · rw [kept _ (by omega), steps length positive earlier]

theorem longest_lt_size (lengths : List Nat) : lengths.foldl max 0 < (firstCodes lengths).size := by
  rw [firstCodes]
  cases lengths.foldl max 0 with
  | zero => exact Nat.two_pos
  | succ longest =>
    rw [(foldl_firstCodes lengths longest).1]
    exact Nat.lt_succ_self _

theorem firstCodes_zero (lengths : List Nat) : (firstCodes lengths).getD 0 0 = 0 := by
  rw [firstCodes]
  cases lengths.foldl max 0 with
  | zero => rfl
  | succ longest => exact (foldl_firstCodes lengths longest).2.1

theorem firstCodes_one (lengths : List Nat) : (firstCodes lengths).getD 1 0 = 0 := by
  rw [firstCodes]
  cases lengths.foldl max 0 with
  | zero => rfl
  | succ longest => exact (foldl_firstCodes lengths longest).2.2.1

/-- The codes of a length go on from those of the length before. -/
theorem firstCodes_succ {length : Nat} (positive : 0 < length)
    (bound : length < lengths.foldl max 0) :
    (firstCodes lengths).getD (length + 1) 0 =
      extend ((firstCodes lengths).getD length 0) (lengths.count length) := by
  rw [firstCodes]
  generalize lengths.foldl max 0 = longest at bound
  obtain ⟨before, rfl⟩ : ∃ before, longest = before + 1 := ⟨longest - 1, by omega⟩
  exact (foldl_firstCodes lengths before).2.2.2 length positive (by omega)

theorem le_longest {length : Nat} (member : length ∈ lengths) : length ≤ lengths.foldl max 0 := by
  rw [List.foldl_max_eq_max (List.ne_nil_of_mem member), Nat.zero_max]
  exact List.le_max_of_mem member

theorem Roomy.longest_le (roomy : Roomy limit lengths) : lengths.foldl max 0 ≤ limit := by
  rcases eq_or_ne lengths [] with rfl | occupied
  · exact Nat.zero_le limit
  · rw [List.foldl_max_eq_max occupied, Nat.zero_max]
    exact roomy.bounded _ (List.max_mem occupied)

theorem Roomy.toNat_firstCodes (roomy : Roomy limit lengths) (small : limit < 32) {length : Nat}
    (within : length ≤ lengths.foldl max 0) :
    ((firstCodes lengths).getD length 0).toNat = firstCode lengths length := by
  have zero : firstCode lengths 0 = 0 := by simp [firstCode]
  induction length with
  | zero => rw [firstCodes_zero, zero, UInt32.toNat_zero]
  | succ length ih =>
    have previous := ih (by omega)
    rw [firstCode_succ]
    rcases Nat.eq_zero_or_pos length with rfl | positive
    · rw [firstCodes_one, zero, roomy.count_zero, UInt32.toNat_zero]
    · have longest := roomy.longest_le
      have room := roomy.firstCode_le (show length ≤ limit by omega)
      have power : 2 ^ length ≤ 2 ^ 30 := Nat.pow_le_pow_right Nat.two_pos (by omega)
      rw [firstCodes_succ positive (by omega), toNat_extend (by omega), previous]

theorem Roomy.firstCodes_get (roomy : Roomy limit lengths) (small : limit < 32)
    {length : Nat} (member : length ∈ lengths) :
    ∃ code, (firstCodes lengths)[length]? = some code ∧
      code.toNat = firstCode lengths length := by
  have bound := (le_longest member).trans_lt (longest_lt_size lengths)
  have value := roomy.toNat_firstCodes small (le_longest member)
  rw [Array.getD_eq_getD_getElem?, Array.getElem?_eq_getElem bound] at value
  exact ⟨_, Array.getElem?_eq_getElem bound, value⟩

theorem length_handOut (next : Array UInt32) (lengths : List Nat) :
    (handOut next lengths).length = lengths.length := by
  induction lengths generalizing next with
  | nil => rfl
  | cons length rest ih => rw [handOut, List.length_cons, List.length_cons, ih]

theorem length_codes (lengths : List Nat) : (codes lengths).length = lengths.length :=
  length_handOut _ lengths

theorem handOut_get {next : Array UInt32} {lengths : List Nat} {place length : Nat}
    {code : UInt32} (found : lengths[place]? = some length) (known : next[length]? = some code)
    (room : code.toNat + lengths.count length < 2 ^ 32) :
    ∃ given, (handOut next lengths)[place]? = some given ∧
      given.toNat = code.toNat + (lengths.take place).count length := by
  induction lengths generalizing next place code with
  | nil => simp at found
  | cons first rest ih =>
    cases place with
    | zero =>
      simp only [List.getElem?_cons_zero, Option.some.injEq] at found
      subst first
      exact ⟨code, by simp [handOut, known], by simp⟩
    | succ place =>
      rw [List.getElem?_cons_succ] at found
      rw [List.count_cons] at room
      rw [handOut, List.getElem?_cons_succ, List.take_succ_cons, List.count_cons]
      by_cases same : first = length
      · subst first
        have moved : (next.modify length (· + 1))[length]? = some (code + 1) := by
          rw [Array.getElem?_modify, if_pos rfl, known, Option.map_some]
        have step : (code + 1).toNat = code.toNat + 1 := by
          rw [UInt32.toNat_add]
          simp only [beq_self_eq_true, if_true] at room
          exact Nat.mod_eq_of_lt (by simp only [UInt32.reduceToNat]; omega)
        simp only [beq_self_eq_true, if_true] at room ⊢
        obtain ⟨given, taken, value⟩ := ih found moved (by omega)
        exact ⟨given, taken, by omega⟩
      · have kept : (next.modify first (· + 1))[length]? = some code := by
          rw [Array.getElem?_modify, if_neg same, known]
        have different : (first == length) = false := by simpa using same
        simp only [different, Bool.false_eq_true, if_false, Nat.add_zero] at room ⊢
        exact ih found kept room

theorem Roomy.codes_get (roomy : Roomy limit lengths) (small : limit < 32)
    {place length : Nat} (found : lengths[place]? = some length) :
    ∃ code, (codes lengths)[place]? = some code ∧
      code.toNat = codeAt lengths place length := by
  have member := List.mem_of_getElem? found
  obtain ⟨code, known, value⟩ := roomy.firstCodes_get small member
  have room := roomy.firstCode_le (roomy.bounded length member)
  have power : 2 ^ length < 2 ^ 32 :=
    Nat.pow_lt_pow_right (by omega) (Nat.lt_of_le_of_lt (roomy.bounded length member) small)
  obtain ⟨given, taken, result⟩ := handOut_get found known (by omega)
  exact ⟨given, taken, by rw [result, value, codeAt]⟩

end BlockSort.PrefixCode

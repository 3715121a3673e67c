import BlockSort.Proofs.Decoder
import BlockSort.SymbolStream

namespace BlockSort

namespace SymbolStream

/-- The symbols of ranks after some zeros. -/
def spell : (zeros : Nat) → (ranks : List Nat) → List Nat
  | zeros, [] => zeroDigits zeros
  | zeros, 0 :: rest => spell (zeros + 1) rest
  | zeros, (rank + 1) :: rest => zeroDigits zeros ++ (rank + 2) :: spell 0 rest

theorem ofRanks_eq (ranks : List Nat) : ofRanks ranks = spell 0 ranks := by
  have spelled : ∀ zeros symbols,
      let last := ranks.foldl (fun (state : Nat × List Nat) rank =>
        if rank = 0 then (state.1 + 1, state.2)
        else (0, (rank + 1) :: ((zeroDigits state.1).reverse ++ state.2))) (zeros, symbols)
      last.2.reverseAux (zeroDigits last.1) = symbols.reverse ++ spell zeros ranks := by
    induction ranks with
    | nil => simp [spell, List.reverseAux_eq]
    | cons rank rest ih =>
      intro zeros symbols
      cases rank with
      | zero => exact ih (zeros + 1) symbols
      | succ rank =>
        refine (ih 0 _).trans ?_
        simp [spell]
  exact spelled 0 []

theorem length_zeroDigits_le (count : Nat) : (zeroDigits count).length ≤ count := by
  fun_induction zeroDigits count with
  | case1 => exact Nat.le_refl 0
  | case2 count occupied ih =>
    rw [List.length_cons]
    omega

theorem zeroDigits_le (count : Nat) : ∀ digit ∈ zeroDigits count, digit ≤ 1 := by
  fun_induction zeroDigits count with
  | case1 => simp
  | case2 count occupied ih =>
    intro digit member
    rcases List.mem_cons.mp member with rfl | later
    · split <;> omega
    · exact ih digit later

theorem length_spell_le (zeros : Nat) (ranks : List Nat) :
    (spell zeros ranks).length ≤ zeros + ranks.length := by
  fun_induction spell zeros ranks with
  | case1 zeros => exact length_zeroDigits_le zeros
  | case2 zeros rest ih =>
    rw [List.length_cons]
    omega
  | case3 zeros rank rest ih =>
    have digits := length_zeroDigits_le zeros
    rw [List.length_append, List.length_cons, List.length_cons]
    omega

theorem spell_le {limit : Nat} (zeros : Nat) (ranks : List Nat) (positive : 1 ≤ limit)
    (bounded : ∀ rank ∈ ranks, rank < limit) : ∀ symbol ∈ spell zeros ranks, symbol ≤ limit := by
  fun_induction spell zeros ranks with
  | case1 zeros =>
    exact fun symbol member => Nat.le_trans (zeroDigits_le zeros symbol member) positive
  | case2 zeros rest ih => exact ih fun rank member => bounded rank (List.mem_cons_of_mem _ member)
  | case3 zeros rank rest ih =>
    intro symbol member
    rcases List.mem_append.mp member with digit | later
    · exact Nat.le_trans (zeroDigits_le zeros symbol digit) positive
    · rcases List.mem_cons.mp later with rfl | last
      · exact bounded (rank + 1) List.mem_cons_self
      · exact ih (fun other inside => bounded other (List.mem_cons_of_mem _ inside)) symbol last

end SymbolStream

namespace Decoder

open SymbolStream

/-- Digits add their run to the zeros already found. -/
theorem expandZeros_digits (count weight zeros : Nat) (rest : List Nat) :
    ∃ heavier, expandZeros weight zeros (zeroDigits count ++ rest) =
      expandZeros heavier (zeros + count * weight) rest := by
  fun_induction zeroDigits count generalizing weight zeros with
  | case1 => exact ⟨weight, by simp⟩
  | case2 count occupied ih =>
    -- the digit is the remainder of the run, counted from one instead of zero
    generalize chosen : (if count % 2 = 1 then 0 else 1) = symbol
    have digit : symbol ≤ 1 ∧ symbol + 1 + 2 * ((count - 1) / 2) = count := by
      subst chosen
      split <;> omega
    obtain ⟨heavier, rest_eq⟩ := ih (2 * weight) (zeros + (symbol + 1) * weight)
    refine ⟨heavier, ?_⟩
    rw [List.cons_append, expandZeros, if_pos digit.1, rest_eq]
    congr 1
    calc zeros + (symbol + 1) * weight + (count - 1) / 2 * (2 * weight)
        = zeros + (symbol + 1 + 2 * ((count - 1) / 2)) * weight := by ring
      _ = zeros + count * weight := by rw [digit.2]

theorem expandZeros_spell (zeros : Nat) (ranks : List Nat) :
    expandZeros 1 0 (spell zeros ranks) = List.replicate zeros 0 ++ ranks := by
  fun_induction spell zeros ranks with
  | case1 zeros =>
    obtain ⟨heavier, digits⟩ := expandZeros_digits zeros 1 0 []
    rw [List.append_nil] at digits
    rw [digits, expandZeros]
    simp
  | case2 zeros rest ih =>
    rw [ih, List.replicate_succ', List.append_assoc, List.singleton_append]
  | case3 zeros rank rest ih =>
    obtain ⟨heavier, digits⟩ := expandZeros_digits zeros 1 0 ((rank + 2) :: spell 0 rest)
    rw [digits, expandZeros, if_neg (by omega), ih]
    simp

theorem expandZeros_ofRanks (ranks : List Nat) : expandZeros 1 0 (ofRanks ranks) = ranks := by
  rw [ofRanks_eq, expandZeros_spell, List.replicate_zero, List.nil_append]

end Decoder

end BlockSort

import BlockSort.Proofs.Storage.Store

namespace BlockSort

namespace Perturbation

theorem exists_reach (place : Nat) : ∃ turns, reach turns ≤ place ∧ place < reach (turns + 1) := by
  induction place with
  | zero =>
    have long := two_le_stepAt 0
    exact ⟨0, Nat.le_refl 0, by rw [reach_succ, reach_zero]; omega⟩
  | succ place ih =>
    obtain ⟨turns, after, before⟩ := ih
    by_cases within : place + 1 < reach (turns + 1)
    · exact ⟨turns, Nat.le_succ_of_le after, within⟩
    · have long := two_le_stepAt (turns + 1)
      refine ⟨turns + 1, Nat.not_lt.mp within, ?_⟩
      rw [reach_succ]
      omega

theorem flipAt_within {turns offset : Nat} (inside : offset < stepAt turns) :
    flipAt (reach turns + offset) = decide (offset + 2 = stepAt turns) := by
  have long := two_le_stepAt turns
  have near : reach turns + offset < reach (turns + 1) := by
    rw [reach_succ]
    exact Nat.add_lt_add_left inside _
  have told := run_get_of_lt near
  have before : ((List.range turns).flatMap fun turn => stepFlips (stepAt turn)).length =
      reach turns := by
    have count := length_run (reach turns) {}
    rwa [run_reach] at count
  rw [run_reach, List.range_succ, List.flatMap_append, List.flatMap_singleton,
    List.getElem?_append_right (before.symm ▸ Nat.le_add_right _ _), before,
    Nat.add_sub_cancel_left, stepFlips] at told
  apply Option.some.inj
  rw [← told]
  by_cases early : offset < stepAt turns - 2
  · have short : offset + 2 ≠ stepAt turns := by omega
    rw [List.getElem?_append_left (by simpa using early), List.getElem?_replicate, if_pos early,
      decide_eq_false short]
  · rw [List.getElem?_append_right (by simpa using early), List.length_replicate]
    by_cases last : offset + 2 = stepAt turns
    · rw [decide_eq_true last, ← last, Nat.add_sub_cancel, Nat.sub_self]
      rfl
    · have one : offset - (stepAt turns - 2) = 1 := by omega
      rw [decide_eq_false last, one]
      rfl

/-- The steps reach just past the bytes that are flipped. -/
theorem flipAt_iff (place : Nat) :
    flipAt place = true ↔ ∃ turns, 0 < turns ∧ place + 2 = reach turns := by
  constructor
  · intro flipped
    obtain ⟨turns, after, before⟩ := exists_reach place
    obtain ⟨offset, rfl⟩ := Nat.exists_eq_add_of_le after
    rw [reach_succ] at before
    rw [flipAt_within (Nat.lt_of_add_lt_add_left before), decide_eq_true_iff] at flipped
    refine ⟨turns + 1, turns.succ_pos, ?_⟩
    rw [reach_succ, ← flipped, Nat.add_assoc]
  · rintro ⟨turns, positive, ends⟩
    obtain ⟨turns, rfl⟩ := Nat.exists_eq_add_one.mpr positive
    have long := two_le_stepAt turns
    rw [reach_succ] at ends
    have offset : place = reach turns + (stepAt turns - 2) := by omega
    rw [offset, flipAt_within (by omega), decide_eq_true_iff, Nat.sub_add_cancel long]

/-- What is added to the byte at a place. -/
def mask (place : Nat) : UInt8 := if flipAt place then 1 else 0

theorem mask_cancel (byte : UInt8) (place : Nat) : byte ^^^ mask place ^^^ mask place = byte := by
  rw [UInt8.xor_assoc, UInt8.xor_self, UInt8.xor_zero]

theorem getElem?_apply (bytes : Array UInt8) (place : Nat) :
    (apply bytes)[place]? = bytes[place]?.map (· ^^^ mask place) := by
  rw [← Array.getElem?_toList, toList_apply, List.getElem?_mapIdx, Array.getElem?_toList]
  congr 1
  funext byte
  rw [mask]
  split
  · rfl
  · exact UInt8.xor_zero.symm

theorem apply_apply (bytes : Array UInt8) : apply (apply bytes) = bytes := by
  apply Array.ext_getElem?
  intro place
  rw [getElem?_apply, getElem?_apply, Option.map_map]
  have twice : (· ^^^ mask place) ∘ (· ^^^ mask place) = id := by
    funext byte
    exact mask_cancel byte place
  rw [twice, Option.map_id, id]

end Perturbation

/-- A reader that has only the beginning of a perturbed block can undo the perturbation there. -/
theorem Decoder.unperturb_take (bytes : Array UInt8) (count : Nat) :
    unperturb ((Perturbation.apply bytes).toList.take count) = bytes.toList.take count := by
  apply List.ext_getElem?
  intro place
  rw [unperturb, List.getElem?_mapIdx, List.getElem?_take, List.getElem?_take]
  by_cases given : place < count
  · have whole := congrArg (·[place]?) (unperturb_apply bytes)
    simp only [unperturb, List.getElem?_mapIdx] at whole
    rw [if_pos given, if_pos given, whole]
  · rw [if_neg given, if_neg given, Option.map_none]

/-- The low bit of a byte is flipped if and only if a number of steps, taken from the table in turn
and again from the first after the last, ends two places further on. Nothing but the place of the
byte decides, so the same perturbation undoes the first, also on the beginning of a block alone. The
size and the checksum stay, the values present are those of the perturbed bytes, and in the storage
the bytes of the block change in place, and no others. -/
theorem Block.perturb_mask :
    (∀ place, Perturbation.mask place = 1 ∧
        (∃ turns, 0 < turns ∧ place + 2 = Perturbation.reach turns) ∨
      Perturbation.mask place = 0 ∧
        ¬∃ turns, 0 < turns ∧ place + 2 = Perturbation.reach turns) ∧
    ∀ block : Block,
      (∀ place, block.perturb.bytes[place]? =
        block.bytes[place]?.map (· ^^^ Perturbation.mask place)) ∧
      block.perturb.perturb.bytes = block.bytes ∧
      (∀ count, Decoder.unperturb (block.perturb.bytes.toList.take count) =
        block.bytes.toList.take count) ∧
      block.perturb.size = block.size ∧
      block.perturb.crc = block.crc ∧
      (∀ byte, block.perturb.present.contains byte = true ↔ byte ∈ block.perturb.bytes) ∧
      ∀ (first : UInt8) (back : List UInt8),
        BlockStore.perturbFrom block.size 0 .initial
          (first :: block.bytes.toList ++ back).toArray {} =
            some ((first :: block.perturb.bytes.toList ++ back).toArray,
              block.perturb.present) := by
  constructor
  · intro place
    have reached := Perturbation.flipAt_iff place
    by_cases flipped : Perturbation.flipAt place = true
    · exact .inl ⟨if_pos flipped, reached.mp flipped⟩
    · exact .inr ⟨if_neg flipped, fun ends => flipped (reached.mpr ends)⟩
  · intro block
    refine ⟨Perturbation.getElem?_apply block.bytes, Perturbation.apply_apply block.bytes,
      Decoder.unperturb_take block.bytes, Perturbation.size_apply block.bytes, rfl,
      block.contains_perturb, ?_⟩
    intro first back
    have flipped := @BlockStore.perturbFrom_spec [first] back block.bytes.toList 0 rfl .initial {}
    rwa [← Perturbation.apply_eq, Array.length_toList, Array.foldl_toList] at flipped

end BlockSort

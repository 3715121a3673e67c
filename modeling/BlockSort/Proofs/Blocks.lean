import BlockSort.Proofs.ByteSet
import BlockSort.Proofs.Checksum
import BlockSort.Proofs.Inverse.Perturbation
import BlockSort.Proofs.Inverse.Rotation
import BlockSort.SortedBlock

namespace BlockSort

namespace Run

theorem length_encode_le (run : Run) : run.encode.length ≤ 5 := by
  rw [encode]
  split
  · rename_i short
    have bound := UInt8.lt_iff_toNat_lt.mp short
    rw [List.length_replicate]
    exact Nat.le_of_lt (bound.trans (by decide))
  · simp

theorem encode_ne_nil {run : Run} (positive : 0 < run.length) : run.encode ≠ [] := by
  have nonzero : 0 < run.length.toNat := UInt8.lt_iff_toNat_lt.mp positive
  rw [encode]
  split
  · exact List.ne_nil_of_length_pos (by rwa [List.length_replicate])
  · simp

theorem mem_encode {run : Run} (positive : 0 < run.length) (byte : UInt8) :
    byte ∈ run.encode ↔ byte = run.byte ∨ ¬run.length < 4 ∧ byte = run.length - 4 := by
  have nonzero : run.length.toNat ≠ 0 := Nat.ne_of_gt (UInt8.lt_iff_toNat_lt.mp positive)
  rw [encode]
  by_cases short : run.length < 4
  · simp [short, List.mem_replicate, nonzero]
  · simp [short]

end Run

namespace Block

/-- A block that was made of runs and is still to be sorted. -/
structure Holds (block : Block) (runs : List Run) : Prop where
  bytes : block.bytes.toList = runs.flatMap Run.encode
  present : ∀ byte, block.present.contains byte = true ↔ byte ∈ block.bytes
  crc : block.crc = Crc.pushAll {} (runs.flatMap Run.expand)
  raw : block.perturbed = false

theorem holds_nil (allowed : Nat) : Holds { allowed } [] := ⟨rfl, by simp, rfl, rfl⟩

theorem bytes_append (block : Block) (run : Run) :
    (block.append run).bytes.toList = block.bytes.toList ++ run.encode := by
  simp [append]

theorem contains_append (block : Block) (run : Run) (byte : UInt8) :
    (block.append run).present.contains byte = true ↔
      (byte = run.byte ∨ ¬run.length < 4 ∧ byte = run.length - 4) ∨
        block.present.contains byte = true := by
  rw [eq_comm (a := byte), eq_comm (a := byte)]
  by_cases short : run.length < 4
  · simp [Block.append, short]
  · simp [Block.append, short, or_left_comm, or_assoc]

theorem Holds.append {block : Block} {runs : List Run} (holds : block.Holds runs) {run : Run}
    (positive : 0 < run.length) : (block.append run).Holds (runs ++ [run]) := by
  refine ⟨?_, fun byte => ?_, ?_, holds.raw⟩
  · rw [bytes_append, holds.bytes, List.flatMap_append, List.flatMap_singleton]
  · rw [contains_append, ← Run.mem_encode positive, holds.present, ← Array.mem_toList_iff,
      ← Array.mem_toList_iff, bytes_append, List.mem_append, or_comm]
  · rw [Block.append]
    simp only [Crc.pushCopies_eq, holds.crc, List.flatMap_append, List.flatMap_singleton]
    exact List.foldl_append.symm

theorem Holds.isEmpty {block : Block} {runs : List Run} (holds : block.Holds runs)
    (positive : ∀ run ∈ runs, 0 < run.length) : block.isEmpty = runs.isEmpty := by
  have same : block.isEmpty = (runs.flatMap Run.encode).isEmpty := by
    rw [← holds.bytes, Block.isEmpty, Array.isEmpty_toList]
  rw [same]
  cases runs with
  | nil => rfl
  | cons run rest =>
    have nonempty := Run.encode_ne_nil (positive run (by simp))
    simp [nonempty]

theorem size_append (block : Block) (run : Run) : (block.append run).size ≤ block.size + 5 := by
  have bound := run.length_encode_le
  rw [Block.size, Block.size, ← Array.length_toList, bytes_append, List.length_append,
    Array.length_toList]
  omega

end Block

/-- What a sort keeps of a block. -/
structure SortedBlock.Sorts (sorted : SortedBlock) (block : Block) : Prop where
  crc : sorted.block.crc = block.crc
  size : sorted.block.bytes.size = block.bytes.size
  bytes : (if sorted.block.perturbed then Decoder.unperturb sorted.block.bytes.toList
    else sorted.block.bytes.toList) = block.bytes.toList
  present : ∀ byte, sorted.block.present.contains byte = true ↔ byte ∈ sorted.block.bytes
  order : sorted.order.Perm (List.finRange sorted.block.bytes.size)
  unrotated : Decoder.unrotate sorted.column sorted.origin = sorted.block.bytes.toList

namespace Block

theorem sortRotations_spec (block : Block) (occupied : block.bytes.size ≠ 0) (budget : Option Nat)
    (running : Rotation.exhausted budget (block.sortRotations budget).2 = false) :
    (block.sortRotations budget).1.Perm (List.finRange block.bytes.size) ∧
      Decoder.unrotate
        ((block.sortRotations budget).1.map (Text.lastByte block.bytes.toVector))
        ((block.sortRotations budget).1.findIdx (·.val = 0)) = block.bytes.toList := by
  have : Occupied block.bytes.size := ⟨Nat.pos_of_ne_zero occupied⟩
  rw [sortRotations, dif_neg occupied] at running ⊢
  obtain ⟨perm, ordered⟩ := Rotation.sort_spec block.bytes.toVector budget running
  have unrotated := Decoder.unrotate_lastColumn perm ordered
  rw [Decoder.lastColumn, Vector.toList] at unrotated
  exact ⟨perm, unrotated⟩

theorem contains_foldl_insert (bytes : List UInt8) (set : ByteSet) (byte : UInt8) :
    (bytes.foldl ByteSet.insert set).contains byte = true ↔
      byte ∈ bytes ∨ set.contains byte = true := by
  induction bytes generalizing set with
  | nil => simp
  | cons first rest ih =>
    rw [List.foldl_cons, ih, ByteSet.contains_insert, List.mem_cons, eq_comm (a := byte)]
    simp [or_assoc, or_left_comm]

theorem contains_perturb (block : Block) (byte : UInt8) :
    block.perturb.present.contains byte = true ↔ byte ∈ block.perturb.bytes := by
  simp only [perturb]
  rw [← Array.foldl_toList, contains_foldl_insert, ByteSet.contains_empty]
  simp

/-- A sort is that of the block or of the perturbed block, and it is never given up. -/
theorem sort_cases (block : Block) :
    ∃ sorted budget overrun, (sorted = block ∨ sorted = block.perturb) ∧
      Rotation.exhausted budget (sorted.sortRotations budget).2 = false ∧
      block.sort = ⟨sorted, (sorted.sortRotations budget).1, overrun⟩ := by
  by_cases exceeded : SortedBlock.workPerByte * (block.size - 1) <
      (block.sortRotations (some (SortedBlock.workPerByte * (block.size - 1)))).2
  · exact ⟨block.perturb, none, _, .inr rfl, rfl, if_pos exceeded⟩
  · exact ⟨block, some _, none, .inl rfl, decide_eq_false exceeded, if_neg exceeded⟩

/-- Every sort keeps what a block holds. -/
theorem sort_sorts {block : Block} {runs : List Run} (holds : block.Holds runs)
    (occupied : block.isEmpty = false) : block.sort.Sorts block := by
  have occupied : block.bytes.size ≠ 0 := by
    intro vacant
    simp [isEmpty, Array.isEmpty, vacant] at occupied
  have twice : block.perturb.bytes.size = block.bytes.size := Perturbation.size_apply _
  obtain ⟨sorted, budget, overrun, which, running, same⟩ := block.sort_cases
  rw [same]
  rcases which with rfl | rfl
  · obtain ⟨perm, unrotated⟩ := sortRotations_spec sorted occupied budget running
    refine ⟨rfl, rfl, ?_, holds.present, perm, unrotated⟩
    simp [holds.raw]
  · obtain ⟨perm, unrotated⟩ :=
      sortRotations_spec block.perturb (by rwa [twice]) budget running
    refine ⟨rfl, twice, ?_, block.contains_perturb, perm, unrotated⟩
    exact Decoder.unperturb_apply block.bytes

end Block

end BlockSort

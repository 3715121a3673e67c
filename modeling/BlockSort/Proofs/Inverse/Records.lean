import BlockSort.Proofs.Division

namespace BlockSort

namespace Run

theorem length_encode (run : Run) :
    run.encode.length = if run.length < 4 then run.length.toNat else 5 := by
  rw [encode]
  split
  · exact List.length_replicate
  · rw [List.length_append, List.length_replicate, List.length_singleton]

/-- Blocks of runs that can be told apart are read one by one. -/
theorem Proper.expandRuns_blocks {blocks : List (List Run)} (proper : Proper blocks.flatten) :
    blocks.mapM (fun block => Decoder.expandRuns 0 0 (block.flatMap encode)) =
      some (blocks.map (·.flatMap expand)) := by
  induction blocks with
  | nil => rfl
  | cons block rest ih =>
    rw [List.flatten_cons] at proper
    have first := proper.part (List.prefix_append block rest.flatten).isInfix
    have others := ih (proper.part (List.suffix_append block rest.flatten).isInfix)
    rw [List.mapM_cons, others, first.expandRuns]
    rfl

theorem flatten_expand (blocks : List (List Run)) :
    (blocks.map (·.flatMap expand)).flatten = blocks.flatten.flatMap expand := by
  rw [← List.flatMap_def, ← List.flatMap_id, List.flatMap_assoc]
  rfl

/-- A byte string is cut into runs of one to 255 bytes, and two neighbours have one byte only if the
first is as long as can be. The runs stand for the string, and from their records, each as long as
its run asks for, a reader gives the string back without missing a byte at the end. It does so also
if the runs are cut into blocks in any way and each block is read on its own. -/
theorem divide_invertible (bytes : List UInt8) :
    (∀ run ∈ divide bytes, 1 ≤ run.length.toNat ∧ run.length.toNat ≤ 255 ∧
      run.encode.length = if run.length < 4 then run.length.toNat else 5) ∧
    (divide bytes).flatMap expand = bytes ∧
    (divide bytes).IsChain
      (fun first second => first.byte = second.byte → first.length = 255) ∧
    Decoder.expandRuns 0 0 ((divide bytes).flatMap encode) = some bytes ∧
    ∀ blocks : List (List Run), blocks.flatten = divide bytes → ∃ parts : List (List UInt8),
      blocks.mapM (fun block => Decoder.expandRuns 0 0 (block.flatMap encode)) = some parts ∧
      parts = blocks.map (·.flatMap expand) ∧ parts.flatten = bytes := by
  obtain ⟨proper, expands⟩ := divide_spec bytes
  refine ⟨fun run member => ⟨?_, ?_, run.length_encode⟩, expands, proper.apart, ?_, ?_⟩
  · exact UInt8.lt_iff_toNat_lt.mp (proper.positive run member)
  · exact Nat.le_of_lt_succ (UInt8.toNat_lt run.length)
  · rw [proper.expandRuns, expands]
  · intro blocks cut
    refine ⟨_, (cut ▸ proper : Proper blocks.flatten).expandRuns_blocks, rfl, ?_⟩
    rw [flatten_expand, cut, expands]

/-- A longest run whose count is its own byte, cut from more of that byte. -/
theorem divide_invertible_capped :
    divide (List.replicate 260 251 ++ [1]) = [⟨251, 255⟩, ⟨251, 5⟩, ⟨1, 1⟩] ∧
    ∃ parts : List (List UInt8),
      [[⟨251, 255⟩], [⟨251, 5⟩, ⟨1, 1⟩]].mapM
        (fun block => Decoder.expandRuns 0 0 (block.flatMap encode)) = some parts ∧
      parts = [[⟨251, 255⟩], [⟨251, 5⟩, ⟨1, 1⟩]].map (·.flatMap expand) ∧
      parts.flatten = List.replicate 260 251 ++ [1] := by
  have divided : divide (List.replicate 260 251 ++ [1]) = [⟨251, 255⟩, ⟨251, 5⟩, ⟨1, 1⟩] := by
    decide +kernel
  obtain ⟨_, _, _, _, blocks⟩ := divide_invertible (List.replicate 260 251 ++ [1])
  exact ⟨divided, blocks [[⟨251, 255⟩], [⟨251, 5⟩, ⟨1, 1⟩]] divided.symm⟩

end Run

end BlockSort

import BlockSort.Proofs.Conduct
import BlockSort.Proofs.Inverse.Runs

namespace BlockSort

theorem Run.single_length (byte : UInt8) : 0 < (single byte).length ∧
    (single byte).length < longest :=
  ⟨show (0 : UInt8) < 1 by decide, show (1 : UInt8) < 255 by decide⟩

theorem Run.toNat_succ {length : UInt8} (short : length < longest) :
    (length + 1).toNat = length.toNat + 1 := by
  have room : length.toNat < 255 := UInt8.lt_iff_toNat_lt.mp short
  rw [UInt8.toNat_add]
  exact Nat.mod_eq_of_lt (by simp only [UInt8.reduceToNat]; omega)

theorem Run.succ_lt_longest {length : UInt8} (short : length < longest)
    (unfinished : length + 1 ≠ longest) : length + 1 < longest := by
  have below : length.toNat < 255 := UInt8.lt_iff_toNat_lt.mp short
  have different : (length + 1).toNat ≠ 255 := fun equal => unfinished (UInt8.toNat_inj.mp equal)
  have bound : (length + 1).toNat < longest.toNat := by
    rw [toNat_succ short] at different ⊢
    exact Nat.lt_of_le_of_ne below different
  exact UInt8.lt_iff_toNat_lt.mpr bound

theorem Run.expand_succ (run : Run) (byte : UInt8) (same : run.byte = byte)
    (short : run.length < longest) :
    expand ⟨byte, run.length + 1⟩ = run.expand ++ [byte] := by
  rw [expand, expand, toNat_succ short, same, List.replicate_succ']

theorem Run.Proper.replace {runs : List Run} {last next : Run} (proper : Proper (runs ++ [last]))
    (same : next.byte = last.byte) (positive : 0 < next.length) : Proper (runs ++ [next]) := by
  constructor
  · intro run member
    rcases List.mem_append.mp member with earlier | final
    · exact proper.positive run (List.mem_append_left _ earlier)
    · rw [List.mem_singleton.mp final]
      exact positive
  · have apart := List.isChain_append.mp proper.apart
    refine List.isChain_append.mpr ⟨apart.1, .singleton next, fun before inside after found => ?_⟩
    have link := apart.2.2 before inside last (by simp)
    simp only [List.head?_cons, Option.mem_def, Option.some.injEq] at found
    subst found
    intro equal
    exact link (equal.trans same)

theorem Run.Proper.concat {runs : List Run} {next : Run} (proper : Proper runs)
    (positive : 0 < next.length) (apart : ∀ run ∈ runs.getLast?, Before run next) :
    Proper (runs ++ [next]) := by
  constructor
  · intro run member
    rcases List.mem_append.mp member with earlier | final
    · exact proper.positive run earlier
    · rw [List.mem_singleton.mp final]
      exact positive
  · refine List.isChain_append.mpr ⟨proper.apart, .singleton next, fun run inside after found => ?_⟩
    simp only [List.head?_cons, Option.mem_def, Option.some.injEq] at found
    exact found ▸ apart run inside

/-- Runs and a growing run that stand for a byte string. -/
structure Divided (bytes : List UInt8) (runs : List Run) (builder : RunBuilder) : Prop where
  proper : Run.Proper (runs ++ builder.growing.toList)
  expands : (runs ++ builder.growing.toList).flatMap Run.expand = bytes
  short : ∀ run ∈ builder.growing, run.length < Run.longest
  /-- Without a growing run, the last one is as long as can be. -/
  settled : builder.growing = none → ∀ run ∈ runs.getLast?, run.length = Run.longest

namespace Divided

variable {bytes : List UInt8} {runs : List Run} {builder : RunBuilder}

theorem nil : Divided [] [] {} := ⟨.nil, rfl, by simp, by simp⟩

theorem begin {byte : UInt8} (proper : Run.Proper runs) (expands : runs.flatMap Run.expand = bytes)
    (apart : ∀ run ∈ runs.getLast?, Run.Before run (.single byte)) :
    Divided (bytes ++ [byte]) runs ⟨some (.single byte)⟩ := by
  refine ⟨proper.concat (Run.single_length byte).1 apart, ?_, ?_, by simp⟩
  · rw [Option.toList_some, List.flatMap_append, expands]
    rfl
  · intro run member
    obtain rfl : Run.single byte = run := by simpa using member
    exact (Run.single_length byte).2

theorem grow {run : Run} {byte : UInt8} (divided : Divided bytes runs ⟨some run⟩)
    (same : run.byte = byte) :
    Run.Proper (runs ++ [⟨byte, run.length + 1⟩]) ∧
      (runs ++ [(⟨byte, run.length + 1⟩ : Run)]).flatMap Run.expand = bytes ++ [byte] := by
  have room := divided.short run rfl
  have grown := run.expand_succ byte same room
  have positive : 0 < run.length + 1 := by
    rw [UInt8.lt_iff_toNat_lt, Run.toNat_succ room]
    exact Nat.succ_pos _
  exact ⟨divided.proper.replace same.symm positive, by simp [← divided.expands, grown]⟩

theorem push (divided : Divided bytes runs builder) (byte : UInt8) :
    Divided (bytes ++ [byte]) (runs ++ (builder.push byte).1.toList) (builder.push byte).2 := by
  obtain ⟨growing⟩ := builder
  cases growing with
  | none =>
    obtain ⟨proper, expands, _, settled⟩ := divided
    simp only [RunBuilder.push, Option.toList_none, List.append_nil] at *
    exact begin proper expands fun run member _ => settled trivial run member
  | some run =>
    rw [RunBuilder.push]
    by_cases same : run.byte = byte
    · obtain ⟨proper, expands⟩ := divided.grow same
      simp only [same, if_true]
      by_cases full : run.length + 1 = Run.longest
      · rw [full] at proper expands
        simp only [full, if_true]
        exact ⟨by simpa using proper, by simpa using expands, by simp, by simp⟩
      · simp only [full, if_false]
        refine ⟨by simpa using proper, by simpa using expands, ?_, by simp⟩
        intro next member
        obtain rfl : (⟨byte, run.length + 1⟩ : Run) = next := by simpa using member
        exact Run.succ_lt_longest (divided.short run rfl) full
    · simp only [same, if_false]
      refine begin divided.proper divided.expands fun last member equal => ?_
      obtain rfl : run = last := by simpa using member
      exact absurd equal same

theorem pushAll (divided : Divided bytes runs builder) (more : List UInt8) :
    Divided (bytes ++ more) (runs ++ (builder.pushAll more).1) (builder.pushAll more).2 := by
  induction more generalizing bytes runs builder with
  | nil => simpa [RunBuilder.pushAll_nil] using divided
  | cons byte rest ih =>
    have next := ih (divided.push byte)
    rw [RunBuilder.pushAll_cons]
    simpa using next

end Divided

theorem Run.divide_spec (bytes : List UInt8) :
    Proper (divide bytes) ∧ (divide bytes).flatMap expand = bytes := by
  have divided := Divided.nil.pushAll bytes
  rw [List.nil_append, List.nil_append] at divided
  exact ⟨divided.proper, divided.expands⟩

/-- Bytes of which no two neighbours are equal stay as they are. -/
theorem Run.encode_divide_of_apart {bytes : List UInt8} (apart : bytes.IsChain (· ≠ ·)) :
    (divide bytes).flatMap encode = bytes := by
  obtain ⟨proper, expands⟩ := divide_spec bytes
  have same : ∀ run ∈ divide bytes, run.encode = run.expand := by
    intro run member
    have part : run.expand <:+: bytes := by
      rw [← expands, List.flatMap_def]
      exact List.infix_of_mem_flatten (List.mem_map_of_mem member)
    have short : run.length.toNat < 4 := by
      by_contra long
      obtain ⟨more, size⟩ : ∃ more, run.length.toNat = more + 2 := Nat.exists_eq_add_of_le' (by omega)
      have copies := apart.infix part
      rw [expand, size, List.replicate_succ, List.replicate_succ, List.isChain_cons_cons] at copies
      exact copies.1 rfl
    rw [encode, if_pos (UInt8.lt_iff_toNat_lt.mpr short), expand]
  rw [List.flatMap_congr same, expands]

end BlockSort

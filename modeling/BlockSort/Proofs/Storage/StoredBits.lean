import BlockSort.Proofs.Inverse.SymbolMap
import BlockSort.Proofs.Rotation.Uniform
import BlockSort.Proofs.Storage.Courses
import BlockSort.Proofs.Storage.Flips

/-!
What is written of a block, as a function of what its storage holds. The bytes and the checksum of
the runs alone do not decide it: a block that a failed attempt has left perturbed is written
differently.
-/
namespace BlockSort

theorem ByteSet.ext {one other : ByteSet}
    (same : ∀ byte, one.contains byte = other.contains byte) : one = other := by
  obtain ⟨flags⟩ := one
  obtain ⟨others⟩ := other
  congr 1
  refine Vector.ext fun place inside => ?_
  have at_place := same (UInt8.ofNat place)
  have value : (UInt8.ofNat place).toNat = place := UInt8.toNat_ofNat_of_lt' inside
  simpa only [contains, value] using at_place

namespace Block

/-- A block that holds the given bytes. -/
def stored (perturbed : Bool) (bytes : List UInt8) (crc : UInt32) : Block :=
  { allowed := 0
    bytes := bytes.toArray
    present := bytes.foldl ByteSet.insert {}
    crc := ⟨~~~crc⟩
    perturbed }

/-- The bits of a block that holds the given bytes. -/
def storedBits (perturbed : Bool) (bytes : List UInt8) (crc : UInt32) : List Bool :=
  fieldBits ((stored perturbed bytes crc).sort.headerFields ++
    (stored perturbed bytes crc).sort.coded.fields)

theorem exact_stored (perturbed : Bool) (bytes : List UInt8) (crc : UInt32) :
    (stored perturbed bytes crc).Exact := by
  intro byte
  rw [stored, contains_foldl_insert, ByteSet.contains_empty]
  simp

/-- How much a block may hold does not matter to what is written of it. -/
theorem sort_resized (block : Block) (allowed : Nat) :
    ({ block with allowed } : Block).sort.headerFields = block.sort.headerFields ∧
      ({ block with allowed } : Block).sort.coded.fields = block.sort.coded.fields := by
  by_cases exceeded : SortedBlock.workPerByte * (block.size - 1) <
      (block.sortRotations (some (SortedBlock.workPerByte * (block.size - 1)))).2
  · rw [@BlockStore.sort_overrun block _ rfl exceeded,
      @BlockStore.sort_overrun { block with allowed } _ rfl exceeded]
    exact ⟨rfl, rfl⟩
  · rw [@BlockStore.sort_within block _ rfl exceeded,
      @BlockStore.sort_within { block with allowed } _ rfl exceeded]
    exact ⟨rfl, rfl⟩

/-- What is written of a block depends on its bytes, its checksum and its flag only. -/
theorem Exact.bits {block : Block} (exact : block.Exact) :
    fieldBits (block.sort.headerFields ++ block.sort.coded.fields) =
      storedBits block.perturbed block.bytes.toList block.crc.value := by
  have present : block.bytes.toList.foldl ByteSet.insert {} = block.present := by
    refine ByteSet.ext fun byte => Bool.eq_iff_iff.mpr ?_
    rw [contains_foldl_insert, ByteSet.contains_empty, exact byte]
    simp
  have crc : (⟨~~~block.crc.value⟩ : Crc) = block.crc := by
    rw [Crc.value, UInt32.not_not]
  obtain ⟨header, coded⟩ := sort_resized block 0
  rw [storedBits, stored, present, crc, ← header, ← coded]

end Block

namespace Decoder

variable {α : Type} {reader : Reader α} {bits bits' rest rest' : List Bool} {value value' : α}

theorem Reads.unique (reads : Reads reader bits value) (reads' : Reads reader bits' value')
    (same : bits ++ rest = bits' ++ rest') : value = value' := by
  have one := reads rest
  rw [same, reads' rest', Option.some.injEq, Prod.mk.injEq] at one
  exact one.1.symm

/-- The flag and the values in use, which the header of a block tells. -/
def header : Reader (Bool × List UInt8) := do
  let _ ← Reader.number 48
  let _ ← Reader.number 32
  let perturbed ← Reader.flag
  let _ ← Reader.flags 24
  let present ← symbolMap
  return (perturbed, present)

theorem reads_header (sorted : SortedBlock) :
    Reads header (fieldBits sorted.headerFields)
      (sorted.block.perturbed, sorted.block.present.toList) := by
  have mark : fieldBits (Mark.block.map .byte) = Bits.ofNat 48 blockMark := by decide
  have split : fieldBits sorted.headerFields = Bits.ofNat 48 blockMark ++
      (Bits.ofNat 32 sorted.block.crc.value.toNat ++ ([sorted.block.perturbed] ++
        (Bits.ofNat 24 (UInt32.ofNat sorted.origin).toNat ++
          fieldBits sorted.block.present.mapFields))) := by
    simp only [SortedBlock.headerFields, fieldBits_append, fieldBits_cons, fieldBits_nil, mark,
      Field.bits_word, Field.bits_bit, List.append_nil, List.append_assoc]
    rfl
  rw [split]
  exact (Reads.number (by decide)).bind ((Reads.number (UInt32.toNat_lt _)).bind
    ((Reads.flag _).bind ((Reads.flags _ (Bits.length_ofNat 24 _)).bind
      ((reads_symbolMap _).map _))))

end Decoder

namespace Block

variable {perturbed perturbed' : Bool} {bytes bytes' : List UInt8} {crc crc' : UInt32}

/-- What is written of a block tells whether it is perturbed, and the values that occur in it. -/
theorem storedBits_tells (same : storedBits perturbed bytes crc = storedBits perturbed' bytes' crc') :
    (stored perturbed bytes crc).sort.block.perturbed =
        (stored perturbed' bytes' crc').sort.block.perturbed ∧
      ∀ byte, byte ∈ (stored perturbed bytes crc).sort.block.bytes ↔
        byte ∈ (stored perturbed' bytes' crc').sort.block.bytes := by
  rw [storedBits, storedBits, fieldBits_append, fieldBits_append] at same
  obtain ⟨flag, present⟩ := Prod.mk.inj
    ((Decoder.reads_header _).unique (Decoder.reads_header _) same)
  refine ⟨flag, fun byte => ?_⟩
  rw [← (exact_stored perturbed bytes crc).sort byte, ← (exact_stored perturbed' bytes' crc').sort byte,
    ← ByteSet.mem_toList, ← ByteSet.mem_toList, present]

end Block

namespace Perturbation

theorem mem_apply {bytes : Array UInt8} {byte : UInt8} :
    byte ∈ apply bytes ↔ ∃ place source, bytes[place]? = some source ∧
      source ^^^ mask place = byte := by
  rw [Array.mem_iff_getElem?]
  refine exists_congr fun place => ?_
  rw [getElem?_apply, Option.map_eq_some_iff]

theorem mask_cases (place : Nat) : mask place = 0 ∨ mask place = 1 := by
  rw [mask]
  split
  · exact .inr rfl
  · exact .inl rfl

theorem mask_reach {place turns : Nat} (positive : 0 < turns) (reached : place + 2 = reach turns) :
    mask place = 1 := if_pos ((flipAt_iff place).mpr ⟨turns, positive, reached⟩)

end Perturbation

namespace Block

open Perturbation

variable {size count place later : Nat} {byte other : UInt8}

/-- The values of a perturbed run of equal bytes, with other ones behind it that are not perturbed. -/
theorem mem_apply_replicate {value : UInt8}
    (member : value ∈ (apply (Array.replicate size byte)).toList ++ List.replicate count other) :
    value = byte ∨ value = byte ^^^ 1 ∨ value = other := by
  rcases List.mem_append.mp member with early | late
  · obtain ⟨place, source, found, rfl⟩ := mem_apply.mp (Array.mem_toList_iff.mp early)
    obtain ⟨-, rfl⟩ := Array.getElem?_eq_some_iff.mp found
    rw [Array.getElem_replicate]
    rcases mask_cases place with zero | one
    · simp [zero]
    · simp [one]
  · exact .inr (.inr (List.eq_of_mem_replicate late))

theorem mem_apply_twice {value : UInt8}
    (member : value ∈ apply ((apply (Array.replicate size byte)).toList ++
      List.replicate count other).toArray) :
    value = byte ∨ value = other ∨ value = other ^^^ 1 := by
  obtain ⟨place, source, found, rfl⟩ := mem_apply.mp member
  rw [List.getElem?_toArray] at found
  by_cases early : place < size
  · rw [List.getElem?_append_left (by simpa [size_apply] using early), Array.getElem?_toList,
      getElem?_apply, Array.getElem?_replicate, if_pos early, Option.map_some,
      Option.some.injEq] at found
    rw [← found, mask_cancel]
    exact .inl rfl
  · rw [List.getElem?_append_right (by simpa [size_apply] using early)] at found
    rw [List.eq_of_mem_replicate (List.mem_of_getElem? found)]
    rcases mask_cases place with zero | one
    · simp [zero]
    · simp [one]

/-- A block of equal bytes, to which others were added, is written differently if an attempt to
write it had failed before they were: the equal bytes alone were perturbed then, and either they
stay so or a second perturbation undoes the first one. -/
theorem storedBits_retried (apart : other ≠ byte) (distant : other ^^^ 1 ≠ byte)
    (inside : place < size) (flipped : mask place = 1) (after : size ≤ later)
    (within : later < size + count) (flipped' : mask later = 1) (crc crc' : UInt32) :
    storedBits false (List.replicate size byte ++ List.replicate count other) crc ≠
      storedBits true ((apply (Array.replicate size byte)).toList ++ List.replicate count other)
        crc' := by
  intro same
  obtain ⟨flag, values⟩ := storedBits_tells same
  obtain ⟨one, _, _, which, -, first⟩ :=
    (stored false (List.replicate size byte ++ List.replicate count other) crc).sort_cases
  obtain ⟨two, _, _, which', -, second⟩ := (stored true
    ((apply (Array.replicate size byte)).toList ++ List.replicate count other) crc').sort_cases
  rw [first, second] at flag values
  have marked : two.perturbed = true := by rcases which' with rfl | rfl <;> rfl
  rcases which with rfl | rfl
  · rw [marked] at flag
    cases flag
  -- both blocks are perturbed in the end, but not at the same places
  have lowered : byte ^^^ 1 ∈ two.bytes := by
    refine (values _).mp (mem_apply.mpr ⟨place, byte, ?_, by rw [flipped]⟩)
    rw [stored, List.getElem?_toArray, List.getElem?_append_left (by simpa using inside),
      List.getElem?_replicate, if_pos inside]
  have raised : other ^^^ 1 ∈ two.bytes := by
    refine (values _).mp (mem_apply.mpr ⟨later, other, ?_, by rw [flipped']⟩)
    rw [stored, List.getElem?_toArray, List.getElem?_append_right (by simpa using after),
      List.getElem?_replicate, List.length_replicate, if_pos (by omega)]
  rcases which' with rfl | rfl
  · rcases mem_apply_replicate (List.mem_toArray.mp raised) with fresh | both | kept
    · exact distant fresh
    · exact apart ((UInt8.xor_left_inj 1).mp both)
    · simp at kept
  · rcases mem_apply_twice lowered with kept | one | both
    · simp at kept
    · exact distant (by simp [← one])
    · exact apart ((UInt8.xor_left_inj 1).mp both).symm

end Block

end BlockSort

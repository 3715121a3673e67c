import BlockSort.Proofs.Exact
import BlockSort.Proofs.Groups

namespace BlockSort

namespace Series

/-- A series of the given level whose current block holds runs, and is not much above its size. -/
structure Holds (level : Level) (series : Series) (runs : List Run) : Prop where
  setting : series.level = level
  block : series.block.Holds runs
  positive : ∀ run ∈ runs, 0 < run.length
  allowed : series.block.allowed = level.blockSize - Block.margin
  room : series.block.size ≤ series.block.allowed + 5

variable {level : Level} {series : Series} {runs : List Run}

theorem holds_ofLevel (level : Level) : Holds level (.ofLevel level) [] :=
  ⟨rfl, Block.holds_nil _, by simp, rfl, Nat.zero_le _⟩

theorem Holds.small (holds : Holds level series runs) :
    series.block.bytes.size ≤ 100000 * level.value ∧ 100000 * level.value ≤ 900000 := by
  have room := holds.room
  have one := level.one_le
  have nine := level.le_nine
  rw [holds.allowed, Level.blockSize, Block.margin, Block.size] at room
  omega

theorem Holds.append (holds : Holds level series runs) (short : series.block.isFull = false)
    {run : Run} (positive : 0 < run.length) : Holds level (series.append run) (runs ++ [run]) := by
  have below : series.block.size ≤ series.block.allowed := by
    simpa [Block.isFull] using short
  refine ⟨holds.setting, holds.block.append positive, fun other member => ?_, holds.allowed,
    (Block.size_append _ run).trans (Nat.add_le_add_right below 5)⟩
  rcases List.mem_append.mp member with earlier | last
  · exact holds.positive other earlier
  · rwa [List.mem_singleton.mp last]

theorem Holds.isEmpty (holds : Holds level series runs) : series.block.isEmpty = runs.isEmpty :=
  holds.block.isEmpty holds.positive

theorem Holds.isFull (holds : Holds level series []) : series.block.isFull = false := by
  have vacant : series.block.bytes = #[] := Array.isEmpty_iff.mp holds.isEmpty
  simp [Block.isFull, Block.size, vacant]

theorem Holds.occupied (holds : Holds level series runs) (full : series.block.isFull = true) :
    series.block.isEmpty = false := by
  rw [holds.isEmpty, List.isEmpty_eq_false_iff]
  rintro rfl
  exact Bool.false_ne_true (holds.isFull.symm.trans full)

theorem Holds.isFull_iff (holds : Holds level series runs) :
    series.block.isFull = true ↔ level.blockSize - Block.margin < Run.room runs := by
  rw [Block.isFull, decide_eq_true_eq, holds.allowed, Block.size, ← Array.length_toList,
    holds.block.bytes, Run.room]

theorem Holds.closeBlock (holds : Holds level series runs) :
    Holds level series.closeBlock [] := by
  rw [Series.closeBlock]
  have kept : series.block.sort.block.allowed = series.block.allowed := by
    rw [Block.sort]
    simp only
    split <;> rfl
  split
  · rename_i empty
    rw [holds.isEmpty, List.isEmpty_iff] at empty
    exact empty ▸ holds
  · refine ⟨holds.setting, Block.holds_nil _, by simp, kept.trans holds.allowed, Nat.zero_le _⟩

/-- The runs in the current block after one more was added. -/
def keep (series : Series) (runs : List Run) (run : Run) : List Run :=
  if series.block.isFull then [run] else runs ++ [run]

theorem Holds.take (holds : Holds level series runs) {run : Run} (positive : 0 < run.length) :
    Holds level (series.take run) (series.keep runs run) := by
  rw [Series.take, keep]
  cases full : series.block.isFull with
  | true =>
    rw [if_pos rfl, if_pos rfl]
    exact holds.closeBlock.append holds.closeBlock.isFull positive
  | false =>
    rw [if_neg (by simp), if_neg (by simp)]
    exact holds.append full positive

theorem Holds.blockFields_narrow (holds : Holds level series runs) : Narrow series.blockFields := by
  have small := holds.small
  rw [blockFields]
  split
  · exact .nil
  · rename_i empty
    have occupied : series.block.isEmpty = false := by simpa using empty
    have sorts := Block.sort_sorts holds.block occupied
    have size := sorts.size
    have full : series.block.bytes.size ≠ 0 := by simpa [Block.isEmpty, Array.isEmpty] using occupied
    exact (SortedBlock.fields_exact sorts.order (by omega) (by omega)).narrow

theorem Holds.takeAllFields_narrow (holds : Holds level series runs) {more : List Run}
    (positive : ∀ run ∈ more, 0 < run.length) : Narrow (series.takeAllFields more) := by
  induction more generalizing series runs with
  | nil => exact .nil
  | cons run rest ih =>
    have next := holds.take (positive run (by simp))
    rw [takeAllFields, takeFields]
    refine Narrow.append ?_ (ih next fun other member => positive other (by simp [member]))
    split
    · exact holds.blockFields_narrow
    · exact .nil

theorem Holds.takeAll (holds : Holds level series runs) {more : List Run}
    (positive : ∀ run ∈ more, 0 < run.length) :
    ∃ current, Holds level (series.takeAll more) current := by
  induction more generalizing series runs with
  | nil => exact ⟨runs, holds⟩
  | cons run rest ih =>
    exact ih (holds.take (positive run (by simp))) fun other member =>
      positive other (by simp [member])

theorem Holds.closingFields_narrow (holds : Holds level series runs) :
    Narrow series.closingFields :=
  holds.blockFields_narrow.append ((Narrow.bytes _).append (Narrow.word _))

/-- A series counts the blocks that are read from what it wrote. -/
structure Counts (before : Series) (found : List Decoder.Block) (after : Series) : Prop where
  written : after.written = before.written + found.length
  perturbed : after.perturbed = before.perturbed + found.countP Decoder.Block.randomised

theorem Counts.refl (series : Series) : series.Counts [] series := ⟨rfl, rfl⟩

theorem Counts.one {series : Series} {first : Decoder.Block}
    (randomised : first.randomised = series.block.sort.block.perturbed) :
    series.Counts [first] (series.withSorted series.block.sort).advance := by
  refine ⟨rfl, ?_⟩
  rw [List.countP_singleton, randomised, advance, withSorted]
  cases series.block.sort.block.perturbed <;> rfl

theorem Counts.cons {before middle after : Series} {first : Decoder.Block}
    {found : List Decoder.Block} (one : before.Counts [first] middle)
    (others : middle.Counts found after) : before.Counts (first :: found) after := by
  obtain ⟨written, perturbed⟩ := one
  refine ⟨?_, ?_⟩
  · rw [others.written, written, Nat.add_assoc, ← List.length_append, List.singleton_append]
  · rw [others.perturbed, perturbed, Nat.add_assoc, ← List.countP_append, List.singleton_append]

theorem Counts.of_append {before after : Series} {run : Run} {found : List Decoder.Block}
    (counts : (before.append run).Counts found after) : before.Counts found after :=
  ⟨counts.written, counts.perturbed⟩

end Series

namespace Decoder

variable {level : Level} {series : Series} {current : List Run}

theorem reads_endMark (limit : Nat) {rounds : Nat} (positive : 0 < rounds) :
    Reads (blocks limit rounds) (Bits.ofNat 48 endMark) [] := by
  obtain ⟨rounds, rfl⟩ := Nat.exists_eq_succ_of_ne_zero (Nat.ne_of_gt positive)
  rw [← List.append_nil (Bits.ofNat 48 endMark), blocks]
  refine (Reads.number (by decide)).bind ?_
  rw [if_neg (by decide)]
  exact Reads.check rfl (Reads.pure [])

/-- A block that was read as one that holds the given runs and nothing else, so that it can be
expanded without those around it. -/
structure Block.Holds (block : Block) (runs : List Run) : Prop where
  encoded : block.encoded = runs.flatMap Run.encode
  data : block.data = runs.flatMap Run.expand
  alone : expandRuns 0 0 block.encoded = some block.data
  crc : block.crc = Decoder.crc block.data

theorem data_of_groups {found : List Block} {groups : List (List Run)}
    (holds : List.Forall₂ Block.Holds found groups) :
    found.flatMap Block.data = groups.flatten.flatMap Run.expand := by
  induction holds with
  | nil => rfl
  | cons first _ ih =>
    rw [List.flatMap_cons, ih, first.data, List.flatten_cons, List.flatMap_append]

/-- What is read of a member from a series on, up to the end mark: blocks that hold groups of runs
one by one. Their checksums are chained to that of the series, and they are counted. -/
structure Recovers (level : Level) (series after : Series) (groups : List (List Run))
    (bits : List Bool) (found : List Block) : Prop where
  holds : List.Forall₂ Block.Holds found groups
  crc : (found.map Block.crc).foldl combine series.combined.toNat = after.combined.toNat
  counts : series.Counts found after
  few : found.length ≤ bits.length
  reads : ∀ rounds, found.length < rounds →
    Reads (blocks (100000 * level.value) rounds) (bits ++ Bits.ofNat 48 endMark) found

variable {after : Series} {groups : List (List Run)} {bits : List Bool} {found : List Block}

theorem Recovers.nil (level : Level) (series : Series) : Recovers level series series [] [] [] :=
  ⟨.nil, rfl, .refl series, Nat.le_refl 0, fun _ enough => reads_endMark _ enough⟩

theorem Recovers.of_append {run : Run}
    (recovers : Recovers level (series.append run) after groups bits found) :
    Recovers level series after groups bits found :=
  ⟨recovers.holds, recovers.crc, recovers.counts.of_append, recovers.few, recovers.reads⟩

/-- A block that is not empty is read as one that holds its runs. -/
theorem reads_closed (holds : series.Holds level current) (proper : Run.Proper current)
    (occupied : series.block.isEmpty = false) :
    ∃ (first : Block) (written : List Bool),
      fieldBits series.blockFields = Bits.ofNat 48 blockMark ++ written ∧ first.Holds current ∧
      combine series.combined.toNat first.crc = series.closeBlock.combined.toNat ∧
      series.Counts [first] series.closeBlock ∧
      Reads (block (100000 * level.value)) written first := by
  have small := holds.small
  have content : current ≠ [] := by
    rw [holds.isEmpty] at occupied
    simpa using occupied
  obtain ⟨written, first, fields, reads, encoded, data, crc, randomised⟩ :=
    reads_block holds.block proper content small.1 small.2
  have closed : series.closeBlock = (series.withSorted series.block.sort).advance := by
    rw [Series.closeBlock, occupied]
    rfl
  refine ⟨first, written, ?_, ⟨encoded, data, ?_, ?_⟩, ?_, ?_, reads⟩
  · rw [Series.blockFields, occupied]
    exact fields
  · rw [encoded, data]
    exact proper.expandRuns
  · rw [crc, data, crc_eq, holds.block.crc]
    rfl
  · rw [crc, combine_eq, closed]
    rfl
  · rw [closed]
    exact .one randomised

/-- A block that is not empty stands before the other blocks of its member. -/
theorem Recovers.cons (holds : series.Holds level current) (proper : Run.Proper current)
    (occupied : series.block.isEmpty = false)
    (others : Recovers level series.closeBlock after groups bits found) :
    ∃ first, Recovers level series after (current :: groups)
      (fieldBits series.blockFields ++ bits) (first :: found) := by
  obtain ⟨first, written, shape, content, chained, one, reads⟩ :=
    reads_closed holds proper occupied
  refine ⟨first, .cons content others.holds, ?_, one.cons others.counts, ?_,
    fun rounds enough => ?_⟩
  · rw [List.map_cons, List.foldl_cons, chained, others.crc]
  · have few := others.few
    rw [shape, List.length_append, List.length_append, Bits.length_ofNat, List.length_cons]
    omega
  · obtain ⟨rounds, rfl⟩ := Nat.exists_eq_succ_of_ne_zero (Nat.ne_zero_of_lt enough)
    have rest := others.reads rounds (Nat.lt_of_succ_lt_succ enough)
    rw [shape, List.append_assoc, List.append_assoc, blocks]
    refine (Reads.number (by decide)).bind ?_
    rw [if_pos rfl]
    exact reads.bind (rest.map (first :: ·))

/-- The current block, unless it is empty, is the last one of its member. -/
theorem recovers_last (holds : series.Holds level current) (proper : Run.Proper current) :
    ∃ found, Recovers level series series.closeBlock (if current = [] then [] else [current])
      (fieldBits series.blockFields) found := by
  cases empty : series.block.isEmpty with
  | true =>
    have content := holds.isEmpty
    rw [empty, eq_comm, List.isEmpty_iff] at content
    rw [Series.blockFields, Series.closeBlock, if_pos empty, if_pos empty, if_pos content]
    exact ⟨[], .nil level series⟩
  | false =>
    have content := holds.isEmpty
    rw [empty, eq_comm, List.isEmpty_eq_false_iff] at content
    obtain ⟨first, recovers⟩ := Recovers.cons holds proper empty (.nil level series.closeBlock)
    rw [List.append_nil] at recovers
    rw [if_neg content]
    exact ⟨_, recovers⟩

/-- All blocks up to the end mark are read back, each as one that holds its group of the runs of the
current block and those that come after it. -/
theorem reads_blocks (holds : series.Holds level current) (runs : List Run)
    (proper : Run.Proper (current ++ runs)) :
    ∃ found, Recovers level series (series.takeAll runs).closeBlock
      (Run.groups (level.blockSize - BlockSort.Block.margin) current runs)
      (fieldBits (series.takeAllFields runs ++ (series.takeAll runs).blockFields)) found := by
  induction runs generalizing series current with
  | nil =>
    rw [List.append_nil] at proper
    exact recovers_last holds proper
  | cons run rest ih =>
    have next := holds.take (proper.positive run (by simp))
    have step : series.takeAll (run :: rest) = (series.take run).takeAll rest := rfl
    rw [Series.takeAllFields, Series.takeFields, Run.groups, step, List.append_assoc,
      fieldBits_append]
    cases full : series.block.isFull with
    | true =>
      -- the run begins a block, and the full one before it is read first
      have kept : series.keep current run = [run] := by rw [Series.keep, full, if_pos rfl]
      have taken : series.take run = series.closeBlock.append run := by
        rw [Series.take, full, if_pos rfl]
      have earlier := proper.part (List.prefix_append current (run :: rest)).isInfix
      have later := proper.part (List.suffix_append current (run :: rest)).isInfix
      rw [kept] at next
      obtain ⟨found, others⟩ := ih next later
      rw [if_pos rfl, if_pos (holds.isFull_iff.mp full)]
      rw [taken] at others ⊢
      obtain ⟨first, recovers⟩ := Recovers.cons holds earlier (holds.occupied full) others.of_append
      exact ⟨_, recovers⟩
    | false =>
      -- the run is one of the block's, and nothing is written yet
      have kept : series.keep current run = current ++ [run] := by
        rw [Series.keep, full, if_neg (by simp)]
      have taken : series.take run = series.append run := by
        rw [Series.take, full, if_neg (by simp)]
      have short : ¬level.blockSize - BlockSort.Block.margin < Run.room current := by
        rw [← holds.isFull_iff, full]
        exact Bool.false_ne_true
      rw [kept] at next
      obtain ⟨found, others⟩ := ih next (by rwa [List.append_assoc])
      rw [if_neg Bool.false_ne_true, if_neg short]
      rw [taken] at others ⊢
      exact ⟨found, others.of_append⟩

end Decoder

end BlockSort

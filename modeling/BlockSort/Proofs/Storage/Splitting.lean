import BlockSort.Proofs.Storage.Isolation

/-!
The blocks of a member at the level of a framer. The runs of its bytes fall into groups in order,
each group is written as one block that can be read and expanded alone, and the checksums of the
blocks are chained to the one in the trailer.
-/
namespace BlockSort

open Framer (Request)

namespace Series

/-- The actions that calls ask of the writer in order. -/
def planAll : Series → List Request → List Action
  | _, [] => []
  | series, request :: rest => series.plan request ++ planAll (series.answered request) rest

/-- The series when calls have succeeded in order. -/
def answeredAll (series : Series) (requests : List Request) : Series :=
  requests.foldl answered series

variable (series : Series) (runs : List Run) (rest : List Request)

theorem planAll_runs :
    series.planAll (runs.map .run ++ rest) =
      (series.takeAllFields runs).map .put ++ (series.takeAll runs).planAll rest := by
  induction runs generalizing series with
  | nil => rfl
  | cons run others ih =>
    rw [List.map_cons, List.cons_append, planAll, answered, ih, takeAllFields, List.map_append,
      List.append_assoc]
    rfl

theorem answeredAll_runs :
    series.answeredAll (runs.map .run ++ rest) = (series.takeAll runs).answeredAll rest := by
  rw [answeredAll, List.foldl_append, List.foldl_map]
  rfl

theorem planAll_member :
    series.planAll (runs.map .run ++ [.endBlock, .endStream]) =
      (series.takeAllFields runs ++ (series.takeAll runs).closingFields).map .put ++ [.finish] := by
  rw [planAll_runs, closingFields, List.map_append, List.map_append]
  simp only [planAll, plan, answered, List.append_nil, List.append_assoc]

end Series

namespace Framer

variable {framer : Framer} {series : Series} {level : Level} {channel : Channel}

/-- On an accepting sink, calls in order succeed and carry out their plans. -/
theorem Shows.serveAll_ready (shows : framer.Shows series) (requests : List Request)
    (ready : channel.Ready) :
    ∃ after, serveAll requests framer channel = some (.ok () after) ∧
      after.channel.Ready ∧
      after.channel.writer.stream =
        Action.extendAll (series.planAll requests) channel.writer.stream ∧
      after.framer.Shows (series.answeredAll requests) := by
  induction requests generalizing framer series channel with
  | nil => exact ⟨⟨framer, channel⟩, rfl, ready, rfl, shows⟩
  | cons request rest ih =>
    obtain ⟨middle, success, still, stream, shown⟩ := shows.serve_ready request ready
    obtain ⟨after, others, final, streams, result⟩ := ih shown still
    refine ⟨after, ?_, final, ?_, result⟩
    · simp only [serveAll, success, Option.bind_eq_bind, Option.bind_some, others]
    · rw [streams, stream, Series.planAll, Action.extendAll_append]

/-- The calls that write bytes as a member that has been begun. -/
def memberCalls (data : List UInt8) : List Request :=
  (Run.divide data).map .run ++ [.endBlock, .endStream]

end Framer

namespace Decoder

open Reader

/-- What follows the header of a member: its blocks, and the checksum in its trailer. -/
def body (limit rounds : Nat) : Reader (List Block × Nat) := do
  let blocks ← blocks limit rounds
  let combined ← number 32
  return (blocks, combined)

/-- What follows the header of a member that holds the given bytes. Their runs are in groups, and
each block holds one of them. -/
structure Splits (level : Level) (data : List UInt8) (groups : List (List Run))
    (found : List Block) (bits : List Bool) : Prop where
  /-- Every run is whole in one group, and all are in order. -/
  whole : groups.flatten = Run.divide data
  occupied : ∀ group ∈ groups, group ≠ []
  bounded : ∀ group ∈ groups, (group.flatMap Run.encode).length ≤ 100000 * level.value - 15
  filled : ∀ group ∈ groups.dropLast,
    100000 * level.value - 19 ≤ (group.flatMap Run.encode).length
  holds : List.Forall₂ Block.Holds found groups
  data : found.flatMap Block.data = data
  reads : ∀ rounds, found.length < rounds →
    Reads (body (100000 * level.value) rounds) bits (found, (found.map Block.crc).foldl combine 0)

/-- Bytes without equal neighbours that fill one block and do not fill two go into two. -/
theorem Splits.two {level : Level} {data : List UInt8} {groups : List (List Run)}
    {found : List Block} {bits : List Bool} (splits : Splits level data groups found bits)
    (apart : data.IsChain (· ≠ ·)) (more : 100000 * level.value - 15 < data.length)
    (fewer : data.length < 2 * (100000 * level.value - 19)) : groups.length = 2 := by
  obtain ⟨sizes, listed⟩ : ∃ sizes,
      groups.map (fun group => (group.flatMap Run.encode).length) = sizes := ⟨_, rfl⟩
  have number : sizes.length = groups.length := by rw [← listed, List.length_map]
  have whole : sizes.sum = data.length := by
    rw [← Run.encode_divide_of_apart apart, ← splits.whole, ← listed]
    simp [List.flatMap_def, List.map_flatten, List.length_flatten, List.sum_flatten,
      Function.comp_def]
  have above : sizes.sum ≤ sizes.length * (100000 * level.value - 15) := by
    refine List.sum_le_card_nsmul sizes _ fun size member => ?_
    rw [← listed] at member
    obtain ⟨group, inside, rfl⟩ := List.mem_map.mp member
    exact splits.bounded group inside
  have below : sizes.dropLast.length * (100000 * level.value - 19) ≤ sizes.dropLast.sum := by
    refine List.card_nsmul_le_sum sizes.dropLast _ fun size member => ?_
    rw [← listed, ← List.map_dropLast] at member
    obtain ⟨group, inside, rfl⟩ := List.mem_map.mp member
    exact splits.filled group inside
  have part : sizes.dropLast.sum ≤ sizes.sum :=
    (List.dropLast_sublist sizes).sum_le_sum fun _ _ => Nat.zero_le _
  rw [List.length_dropLast] at below
  have several : 1 < sizes.length := by
    by_contra few
    have one := Nat.mul_le_mul_right (100000 * level.value - 15) (Nat.not_lt.mp few)
    omega
  have few : sizes.length - 1 < 2 := by
    by_contra many
    have two := Nat.mul_le_mul_right (100000 * level.value - 19) (Nat.not_lt.mp many)
    omega
  omega

/-- What a series without runs and without a checksum writes for bytes and the end of their
member. -/
theorem splits_closing {level : Level} {series : Series} (holds : series.Holds level [])
    (fresh : series.combined = 0) (data : List UInt8) :
    ∃ groups found,
      Splits level data groups found (fieldBits (series.takeAllFields (Run.divide data) ++
        (series.takeAll (Run.divide data)).closingFields)) ∧
      (series.takeAll (Run.divide data)).closeBlock.written = series.written + groups.length := by
  obtain ⟨proper, expands⟩ := Run.divide_spec data
  obtain ⟨found, contents, crc, counts, -, reads⟩ := reads_blocks holds (Run.divide data) proper
  have grouping := @Run.grouping [] (level.blockSize - BlockSort.Block.margin) (Run.divide data)
    (Nat.zero_le _)
  have positive := level.one_le
  have small : level.blockSize - BlockSort.Block.margin = 100000 * level.value - 20 := by
    rw [Level.blockSize, BlockSort.Block.margin, Nat.mul_comm]
  rw [small] at contents grouping
  have trailer : fieldBits (Mark.trailer.map .byte) = Bits.ofNat 48 endMark := by decide
  refine ⟨_, found, ⟨grouping.whole, grouping.occupied, fun group member => ?_,
    fun group member => ?_, contents, ?_, fun rounds enough => ?_⟩, ?_⟩
  · have bounded := grouping.bounded group member
    rw [Run.room] at bounded
    omega
  · have filled := grouping.filled group member
    rw [Run.room] at filled
    omega
  · rw [data_of_groups contents, grouping.whole, List.nil_append, expands]
  · have bits : fieldBits (series.takeAllFields (Run.divide data) ++
          (series.takeAll (Run.divide data)).closingFields) =
        (fieldBits (series.takeAllFields (Run.divide data) ++
            (series.takeAll (Run.divide data)).blockFields) ++ Bits.ofNat 48 endMark) ++
          (Bits.ofNat 32 (series.takeAll (Run.divide data)).closeBlock.combined.toNat ++ []) := by
      simp only [Series.closingFields, fieldBits_append, trailer, Field.bits_word,
        List.append_assoc, List.append_nil]
    rw [fresh] at crc
    rw [bits, ← crc]
    refine (reads rounds enough).bind ((Reads.number ?_).bind (Reads.pure _))
    rw [crc]
    exact UInt32.toNat_lt _
  · rw [counts.written, contents.length_eq]

end Decoder

namespace Framer

variable {framer : Framer} {series : Series} {level : Level} {channel : Channel}

theorem Shows.splits (shows : framer.Shows series) (holds : series.Holds level [])
    (fresh : series.combined = 0) (data : List UInt8) (ready : channel.Ready) :
    ∃ groups found bits after,
      serveAll (memberCalls data) framer channel = some (.ok () after) ∧
      after.channel.Ready ∧
      after.channel.writer.stream = Action.extend (channel.writer.stream ++ bits) .finish ∧
      Decoder.Splits level data groups found bits ∧
      after.framer.written = framer.written + groups.length := by
  obtain ⟨groups, found, splits, written⟩ := Decoder.splits_closing holds fresh data
  obtain ⟨after, success, final, stream, shown⟩ := shows.serveAll_ready (memberCalls data) ready
  rw [memberCalls, Series.planAll_member, Action.extendAll_append, Action.extendAll_puts] at stream
  rw [memberCalls, Series.answeredAll_runs] at shown
  refine ⟨groups, found, _, after, success, final, stream, splits, ?_⟩
  rw [shown.written, shows.written, ← written]
  rfl

/-- A member that is begun after any calls, on whatever sinks, is split like that of a new framer,
and its blocks are added to those counted before. -/
theorem visit_splits (level : Level) (history : List (Request × Channel)) (data : List UInt8)
    (ready : channel.Ready) :
    ∃ framer groups found bits after,
      visit history (ofLevel level) = some framer ∧
      serveAll (.start :: memberCalls data) framer channel = some (.ok () after) ∧
      after.channel.Ready ∧
      after.channel.writer.stream = Action.extend (channel.writer.stream ++
        fieldBits (Series.ofLevel level).headerFields ++ bits) .finish ∧
      Decoder.Splits level data groups found bits ∧
      after.framer.written = framer.written + groups.length := by
  obtain ⟨framer, series, visited, shows, setting⟩ := @visit_spec (·.level = level) history
    (fun _ _ _ _ _ leads kept => leads.level.trans kept) _ _ (ofLevel_shows level) rfl
  have allowed := shows.allowed
  rw [setting] at allowed
  obtain ⟨begun, success, still, stream, shown⟩ := shows.serve_ready .start ready
  have empty : series.restart.Holds level [] :=
    ⟨setting, Block.holds_nil _, by simp, Nat.eq_sub_of_add_eq allowed, Nat.zero_le _⟩
  obtain ⟨groups, found, bits, after, others, final, streams, splits, written⟩ :=
    shown.splits empty rfl data still
  have header : series.headerFields = (Series.ofLevel level).headerFields := by
    rw [Series.headerFields, Series.headerFields, setting]
    rfl
  rw [stream, Series.plan, Action.extendAll_puts, header] at streams
  refine ⟨framer, groups, found, bits, after, visited, ?_, final, streams, splits, ?_⟩
  · simp only [serveAll, success, Option.bind_eq_bind, Option.bind_some, others]
  · rw [written, shown.written, shows.written]
    rfl

/-- A framer splits the runs of any bytes into blocks without loss. On an accepting sink all calls
succeed. They write the runs in groups, none of which exceeds the level's size but for a margin and
each of which except the last fills it; every block is read back as one that holds its group alone,
with the checksum of the bytes that the group stands for, and the trailer has the checksums of the
blocks chained in order. Every block is counted. The same holds of a member that is begun after any
calls. -/
theorem serveAll_splits (level : Level) (data : List UInt8) {channel : Channel}
    (ready : channel.Ready) :
    (∃ groups found bits after,
      serveAll (memberCalls data) (ofLevel level) channel = some (.ok () after) ∧
      after.channel.Ready ∧
      after.channel.writer.stream = Action.extend (channel.writer.stream ++ bits) .finish ∧
      Decoder.Splits level data groups found bits ∧
      after.framer.written = groups.length) ∧
    ∀ history : List (Request × Channel), ∃ framer groups found bits after,
      visit history (ofLevel level) = some framer ∧
      serveAll (.start :: memberCalls data) framer channel = some (.ok () after) ∧
      after.channel.Ready ∧
      after.channel.writer.stream = Action.extend (channel.writer.stream ++
        fieldBits (Series.ofLevel level).headerFields ++ bits) .finish ∧
      Decoder.Splits level data groups found bits ∧
      after.framer.written = framer.written + groups.length := by
  refine ⟨?_, fun history => visit_splits level history data ready⟩
  obtain ⟨groups, found, bits, after, success, final, stream, splits, written⟩ :=
    (ofLevel_shows level).splits (Series.holds_ofLevel level) rfl data ready
  exact ⟨groups, found, bits, after, success, final, stream, splits,
    written.trans (Nat.zero_add _)⟩

/-- Bytes that go into two blocks, written behind five bits. -/
theorem serveAll_splits_two :
    let data := (List.range 120000).map UInt8.ofNat
    let channel : Channel := { writer := { register := 0xA8000000, held := 5 } }
    channel.Ready ∧ ∃ groups found bits after,
      serveAll (memberCalls data) (ofLevel .least) channel = some (.ok () after) ∧
      after.channel.Ready ∧
      after.channel.writer.stream = Action.extend (channel.writer.stream ++ bits) .finish ∧
      Decoder.Splits .least data groups found bits ∧ groups.length = 2 ∧
      after.framer.written = 2 := by
  intro data channel
  have ready : channel.Ready := ⟨⟨rfl, rfl⟩, by decide, by decide⟩
  have apart : data.IsChain (· ≠ ·) := by
    refine (List.isChain_map _).mpr ((List.isChain_range _ _).mpr fun place _ same => ?_)
    have values := congrArg UInt8.toNat same
    rw [UInt8.toNat_ofNat', UInt8.toNat_ofNat'] at values
    omega
  have size : data.length = 120000 := by rw [List.length_map, List.length_range]
  have one : Level.least.value = 1 := rfl
  obtain ⟨groups, found, bits, after, success, final, stream, splits, written⟩ :=
    (serveAll_splits .least data ready).1
  have two := splits.two apart (by rw [size, one]; decide) (by rw [size, one]; decide)
  exact ⟨ready, groups, found, bits, after, success, final, stream, splits, two,
    written.trans two⟩

end Framer

end BlockSort

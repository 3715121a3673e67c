import BlockSort.Proofs.Storage.StoredBits

/-!
What a framer writes does not depend on what it did before. A member that is begun anew is written
like the first one of a new framer, and a block like any other block with the same bytes, at every
level and whatever earlier blocks, members and failures have left in the storage.
-/
namespace BlockSort

namespace Action

/-- What actions add to a stream depends on its length only, and of that only on how far the last
byte is filled. -/
theorem extendAll_alike (actions : List Action) {one other : List Bool}
    (aligned : one.length % 8 = other.length % 8) :
    ∃ bits, extendAll actions one = one ++ bits ∧ extendAll actions other = other ++ bits := by
  induction actions generalizing one other with
  | nil => exact ⟨[], by simp [extendAll]⟩
  | cons action rest ih =>
    have step : ∃ bits, extend one action = one ++ bits ∧ extend other action = other ++ bits := by
      cases action with
      | put field => exact ⟨field.bits, rfl, rfl⟩
      | finish => exact ⟨_, rfl, by rw [extend, aligned]⟩
      | flush => exact ⟨[], by simp [extend]⟩
    obtain ⟨bits, first, second⟩ := step
    obtain ⟨more, firsts, seconds⟩ := @ih (one ++ bits) (other ++ bits)
      (by rw [List.length_append, List.length_append, Nat.add_mod, aligned, ← Nat.add_mod])
    refine ⟨bits ++ more, ?_, ?_⟩
    · rw [extendAll, List.foldl_cons, first, ← List.append_assoc]
      exact firsts
    · rw [extendAll, List.foldl_cons, second, ← List.append_assoc]
      exact seconds

end Action

namespace Channel

/-- The sink takes everything, and the writer is in order as every writer is that its own operations
have left behind. -/
structure Ready (channel : Channel) : Prop where
  accepting : channel.writer.sink.Accepting
  tidy : channel.writer.Tidy

/-- Channels that have filled their last byte alike. -/
def Aligned (one other : Channel) : Prop :=
  one.writer.stream.length % 8 = other.writer.stream.length % 8

/-- A channel that is ready once more, and to which bits were written. -/
structure Gained (before : Channel) (bits : List Bool) (after : Channel) : Prop where
  ready : after.Ready
  stream : after.writer.stream = before.writer.stream ++ bits

variable {one other before middle after : Channel} {bits more : List Bool}

theorem Gained.refl (ready : before.Ready) : Gained before [] before :=
  ⟨ready, (List.append_nil _).symm⟩

theorem Gained.trans (first : Gained before bits middle) (second : Gained middle more after) :
    Gained before (bits ++ more) after :=
  ⟨second.ready, by rw [second.stream, first.stream, List.append_assoc]⟩

theorem Aligned.gained (aligned : Aligned one other) {next next' : Channel}
    (first : Gained one bits next) (second : Gained other bits next') : Aligned next next' := by
  rw [Aligned] at aligned ⊢
  rw [first.stream, second.stream, List.length_append, List.length_append, Nat.add_mod, aligned,
    ← Nat.add_mod]

/-- How far the last byte is filled is what the register holds. -/
theorem aligned_of_held (tidy : one.writer.Tidy) (tidy' : other.writer.Tidy)
    (same : one.writer.held = other.writer.held) : Aligned one other := by
  have held := tidy.held_lt
  have held' := tidy'.held_lt
  rw [Aligned, BitWriter.length_stream, BitWriter.length_stream]
  omega

end Channel

namespace Series

open Framer (Request)

/-- The actions that a call asks of the writer. -/
def plan (series : Series) : Request → List Action
  | .start => series.headerFields.map .put
  | .run _ => series.takeFields.map .put
  | .endBlock => series.blockFields.map .put
  | .endStream => (Mark.trailer.map Field.byte ++ Field.word series.combined).map .put ++ [.finish]

/-- The series when a call has succeeded. -/
def answered (series : Series) : Request → Series
  | .start => series.restart
  | .run run => series.take run
  | .endBlock => series.closeBlock
  | .endStream => series

theorem follows_pressed (request : Request) (press : Press) :
    Follows Press.writer (Framer.pressed request) press (press.series.plan request)
      (fun after => after.series = press.series.answered request) (fun _ => True) := by
  cases request with
  | start => exact Press.follows_openMember press
  | run run => exact Press.follows_add run press
  | endBlock => exact Press.follows_writeBlock press
  | endStream => exact Press.follows_writeTrailer press

/-- Only a block that could not be written stays perturbed. -/
theorem answered_raw (series : Series) (raw : series.block.perturbed = false) (request : Request) :
    (series.answered request).block.perturbed = false := by
  have closed : series.closeBlock.block.perturbed = false := by
    rw [closeBlock]
    split
    · exact raw
    · rfl
  cases request with
  | start => rfl
  | endBlock => exact closed
  | endStream => exact raw
  | run run =>
    rw [answered, take]
    split
    · exact closed
    · exact raw

/-- Series that differ in what they have counted only. -/
structure Alike (one other : Series) : Prop where
  level : one.level = other.level
  block : one.block = other.block
  combined : one.combined = other.combined

variable {one other : Series}

/-- A call asks for the same actions, whatever was counted, and the counts stay the only
difference. -/
theorem Alike.call (alike : Alike one other) (request : Request) :
    one.plan request = other.plan request ∧
      Alike (one.answered request) (other.answered request) := by
  obtain ⟨level, block, combined, written, perturbed⟩ := one
  obtain ⟨_, _, _, written', perturbed'⟩ := other
  obtain ⟨rfl, rfl, rfl⟩ := alike
  have closed : Alike (closeBlock ⟨level, block, combined, written, perturbed⟩)
      (closeBlock ⟨level, block, combined, written', perturbed'⟩) := by
    rw [closeBlock, closeBlock]
    by_cases empty : block.isEmpty
    · simp only [empty, if_true]
      exact ⟨rfl, rfl, rfl⟩
    · simp only [empty, Bool.false_eq_true, if_false]
      exact ⟨rfl, rfl, rfl⟩
  cases request with
  | start => exact ⟨rfl, rfl, rfl, rfl⟩
  | endBlock => exact ⟨rfl, closed⟩
  | endStream => exact ⟨rfl, rfl, rfl, rfl⟩
  | run run =>
    refine ⟨rfl, ?_⟩
    rw [answered, answered, take, take]
    by_cases full : block.isFull
    · simp only [full, if_true]
      exact ⟨closed.level, congrArg (·.append run) closed.block, closed.combined⟩
    · simp only [full, Bool.false_eq_true, if_false]
      exact ⟨rfl, rfl, rfl⟩

end Series

namespace Framer

variable {framer : Framer} {series : Series}

theorem Shows.plan_exact (shows : framer.Shows series) (request : Request) {field : Field}
    (asked : .put field ∈ series.plan request) : field.Exact := by
  have each {fields : List Field} (exact : Exact fields)
      (asked : .put field ∈ fields.map Action.put) : field.Exact := by
    obtain ⟨_, member, same⟩ := List.mem_map.mp asked
    cases same
    exact exact field member
  have block : Exact series.blockFields := by
    rw [Series.blockFields]
    split
    · intro field absent
      cases absent
    · rename_i empty
      have occupied : series.block.bytes.size ≠ 0 := by simpa [Block.isEmpty] using empty
      obtain ⟨-, -, -, -, -, perm, -, small⟩ := shows.sort occupied
      exact SortedBlock.fields_exact perm (by rwa [Block.sort_size]) (by omega)
  cases request with
  | start => exact each (Exact.bytes [Mark.coding, series.level.digit]) asked
  | run run =>
    rw [Series.plan, Series.takeFields] at asked
    split at asked
    · exact each block asked
    · cases asked
  | endBlock => exact each block asked
  | endStream =>
    rcases List.mem_append.mp asked with written | ended
    · exact each ((Exact.bytes Mark.trailer).append (.word _)) written
    · cases List.mem_singleton.mp ended

theorem Shows.plan_narrow (shows : framer.Shows series) (request : Request) :
    ∀ action ∈ series.plan request, action.Narrow := by
  intro action asked
  cases action with
  | put field => exact (shows.plan_exact request asked).narrow
  | finish | flush => trivial

/-- Answers calls in order, up to the first that fails. -/
def serveAll : List Request → Framer → Channel → Outcome
  | [], framer, channel => some (.ok () ⟨framer, channel⟩)
  | request :: rest, framer, channel => do
    match ← serve request framer channel with
    | .ok _ press => serveAll rest press.framer press.channel
    | .error fault press => some (.error fault press)

/-- On an accepting sink a call succeeds and carries out its plan. -/
theorem Shows.serve_ready (shows : framer.Shows series) (request : Request) {channel : Channel}
    (ready : channel.Ready) :
    ∃ after, Framer.serve request framer channel = some (.ok () after) ∧
      after.channel.Ready ∧
      after.channel.writer.stream =
        Action.extendAll (series.plan request) channel.writer.stream ∧
      after.framer.Shows (series.answered request) := by
  obtain ⟨written, performed, wrote⟩ :=
    BitWriter.perform_accepting ready.accepting ready.tidy (shows.plan_narrow request)
  have follows := Series.follows_pressed request ⟨series, channel⟩
  have served := shows.serve request channel
  simp only [Follows, Press.writer, performed] at follows
  obtain ⟨press, success, same, answered⟩ := follows
  rw [success] at served
  obtain ⟨after, result, shown⟩ := served
  subst same
  exact ⟨⟨after, press.channel⟩, result, ⟨wrote.accepting, wrote.tidy⟩, wrote.stream,
    answered ▸ shown⟩

variable {first second : Framer} {one other : Series} {channel channel' : Channel}

/-- Two framers that are asked for the same plan write the same bits from the same alignment. -/
theorem Shows.serve_same (shows : first.Shows one) (shown : second.Shows other) {request : Request}
    (same : one.plan request = other.plan request) (ready : channel.Ready)
    (ready' : channel'.Ready) (aligned : channel.Aligned channel') :
    ∃ bits after after',
      Framer.serve request first channel = some (.ok () after) ∧
      Framer.serve request second channel' = some (.ok () after') ∧
      channel.Gained bits after.channel ∧ channel'.Gained bits after'.channel ∧
      after.framer.Shows (one.answered request) ∧ after'.framer.Shows (other.answered request) := by
  obtain ⟨after, success, final, stream, result⟩ := shows.serve_ready request ready
  obtain ⟨after', success', final', stream', result'⟩ := shown.serve_ready request ready'
  obtain ⟨bits, added, added'⟩ := Action.extendAll_alike (one.plan request) aligned
  rw [← stream] at added
  rw [same, ← stream'] at added'
  exact ⟨bits, after, after', success, success', ⟨final, added⟩, ⟨final', added'⟩, result, result'⟩

/-- Two framers whose series are alike answer calls alike, and write the same bits from the same
alignment. -/
theorem serveAll_alike (shows : first.Shows one) (shown : second.Shows other)
    (alike : Series.Alike one other) (requests : List Request) (ready : channel.Ready)
    (ready' : channel'.Ready) (aligned : channel.Aligned channel') :
    ∃ bits after after',
      serveAll requests first channel = some (.ok () after) ∧
      serveAll requests second channel' = some (.ok () after') ∧
      channel.Gained bits after.channel ∧ channel'.Gained bits after'.channel ∧
      (one.block.perturbed = false → after.framer.store.perturbed = false) := by
  induction requests generalizing first second one other channel channel' with
  | nil =>
    exact ⟨[], ⟨first, channel⟩, ⟨second, channel'⟩, rfl, rfl, .refl ready, .refl ready',
      shows.store.perturbed.trans⟩
  | cons request rest ih =>
    obtain ⟨same, onward⟩ := alike.call request
    obtain ⟨bits, middle, middle', success, success', gained, gained', shows, shown⟩ :=
      shows.serve_same shown same ready ready' aligned
    obtain ⟨more, after, after', others, others', further, further', raw⟩ :=
      ih shows shown onward gained.ready gained'.ready (aligned.gained gained gained')
    refine ⟨bits ++ more, after, after', ?_, ?_, gained.trans further, gained'.trans further',
      fun unperturbed => raw (one.answered_raw unperturbed request)⟩
    · simp only [serveAll, success, Option.bind_eq_bind, Option.bind_some, others]
    · simp only [serveAll, success', Option.bind_eq_bind, Option.bind_some, others']

end Framer

/-- The bytes that a store holds. -/
def BlockStore.bytes (store : BlockStore) : List UInt8 :=
  (store.slots.toList.drop 1).take store.size

theorem BlockStore.size_ne_zero {store : BlockStore} (held : store.bytes ≠ []) : store.size ≠ 0 :=
  fun empty => held (by rw [BlockStore.bytes, empty, List.take_zero])

theorem BlockStore.Shows.bytes {store : BlockStore} {block : Block} (shows : store.Shows block) :
    store.bytes = block.bytes.toList := by
  obtain ⟨first, back, slots⟩ := shows.slots
  rw [BlockStore.bytes, slots, shows.size]
  simp

namespace Block

private theorem fill_from (runs : List Run) (added : Nat) (block : Block) :
    runs.foldl (fun (state : Nat × Block) run =>
      match state.2.offer run with
      | (accepted, block) => (if accepted then state.1 + 1 else state.1, block)) (added, block) =
      (added + (block.fill runs).1, (block.fill runs).2) := by
  induction runs generalizing added block with
  | nil => rfl
  | cons run rest ih =>
    rw [fill, List.foldl_cons, List.foldl_cons, ih, ih]
    by_cases full : block.isFull
    · simp [offer, full]
    · simp [offer, full, Nat.add_assoc]

theorem fill_cons (block : Block) (run : Run) (rest : List Run) :
    (block.fill (run :: rest)).1 =
      if block.isFull then (block.fill rest).1 else ((block.append run).fill rest).1 + 1 := by
  rw [fill, List.foldl_cons]
  by_cases full : block.isFull
  · have offered : block.offer run = (false, block) := by simp [offer, full]
    simp only [offered, full, Bool.false_eq_true, if_false, if_true]
    exact (congrArg Prod.fst (fill_from rest 0 block)).trans (Nat.zero_add _)
  · have offered : block.offer run = (true, block.append run) := by simp [offer, full]
    simp only [offered, full, Bool.false_eq_true, if_false, if_true]
    exact (congrArg Prod.fst (fill_from rest (0 + 1) _)).trans (Nat.add_comm _ _)

theorem fill_le (block : Block) (runs : List Run) : (block.fill runs).1 ≤ runs.length := by
  induction runs generalizing block with
  | nil => exact Nat.le_refl 0
  | cons run rest ih =>
    rw [fill_cons, List.length_cons]
    split
    · exact Nat.le_succ_of_le (ih block)
    · exact Nat.succ_le_succ (ih _)

end Block

/-- A block of the level takes all runs of the data. -/
def Level.Fits (level : Level) (data : List UInt8) : Prop :=
  ((Block.ofSize level.blockSize).fill (Run.divide data)).1 = (Run.divide data).length

instance (level : Level) (data : List UInt8) : Decidable (level.Fits data) :=
  inferInstanceAs (Decidable (_ = _))

namespace Series

variable {level : Level} {series : Series} {earlier runs : List Run}

theorem Holds.takeAll_fitting (holds : Holds level series earlier)
    (positive : ∀ run ∈ runs, 0 < run.length) (fits : (series.block.fill runs).1 = runs.length) :
    series.takeAllFields runs = [] ∧ Holds level (series.takeAll runs) (earlier ++ runs) ∧
      (series.takeAll runs).combined = series.combined := by
  induction runs generalizing series earlier with
  | nil => exact ⟨rfl, by rwa [List.append_nil], rfl⟩
  | cons run rest ih =>
    rw [Block.fill_cons, List.length_cons] at fits
    have short : series.block.isFull = false := by
      by_contra full
      rw [Bool.not_eq_false] at full
      have few := Block.fill_le series.block rest
      rw [if_pos full] at fits
      omega
    simp only [short, Bool.false_eq_true, if_false, Nat.add_right_cancel_iff] at fits
    have taken : series.take run = series.append run := by simp [Series.take, short]
    obtain ⟨silent, result, combined⟩ := @ih (series.append run) (earlier ++ [run])
      (holds.append short (positive run (by simp)))
      (fun other member => positive other (by simp [member])) fits
    refine ⟨?_, ?_, ?_⟩
    · rw [takeAllFields, taken, silent, takeFields]
      simp [short]
    · rw [Series.takeAll, List.foldl_cons, taken]
      rwa [List.append_assoc, List.singleton_append] at result
    · rw [Series.takeAll, List.foldl_cons, taken]
      exact combined

end Series

/-- What follows the header of a member whose runs all fit into one block. -/
def soleBlockBits (runs : List Run) : List Bool :=
  let crc := (Crc.pushAll {} (runs.flatMap Run.expand)).value
  (if runs = [] then [] else Block.storedBits false (runs.flatMap Run.encode) crc) ++
    fieldBits (Mark.trailer.map .byte ++
      Field.word (if runs = [] then 0 else Crc.chain 0 crc))

theorem Series.Holds.bits_closing {level : Level} {series : Series} {runs : List Run}
    (holds : Series.Holds level series runs) (fresh : series.combined = 0) :
    fieldBits series.closingFields = soleBlockBits runs := by
  have exact : series.block.Exact := holds.block.present
  have bits := exact.bits
  rw [holds.block.raw, holds.block.bytes, holds.block.crc] at bits
  rw [closingFields, fieldBits_append, soleBlockBits, blockFields, Series.closeBlock]
  have empty := holds.isEmpty
  by_cases vacant : runs = []
  · have : series.block.isEmpty = true := by rw [empty, vacant, List.isEmpty_nil]
    simp [this, vacant, fresh]
  · have : series.block.isEmpty = false := by
      rw [empty]
      simpa using vacant
    simp only [this, Bool.false_eq_true, if_false, bits, vacant, advance, withSorted, fresh,
      holds.block.crc]

theorem Bits.exists_append {whole front : List UInt8} {bits : List Bool}
    (same : ofBytes whole = ofBytes front ++ bits) :
    ∃ back, whole = front ++ back ∧ ofBytes back = bits := by
  have size := congrArg List.length same
  rw [List.length_append, length_ofBytes, length_ofBytes] at size
  have cut := same
  rw [← List.take_append_drop front.length whole, ofBytes_append] at cut
  obtain ⟨head, tail⟩ := List.append_inj cut (by
    rw [length_ofBytes, length_ofBytes, List.length_take]
    omega)
  refine ⟨whole.drop front.length, ?_, tail⟩
  conv => lhs; rw [← List.take_append_drop front.length whole]
  rw [ofBytes_injective head]

/-- The bytes that a member begins with, of which the last one tells the level. -/
def Level.header (level : Level) : List UInt8 := Mark.member ++ [Mark.coding, level.digit]

theorem Level.bits_header (level : Level) :
    fieldBits (Outline.headerFields level) = Bits.ofBytes level.header := by
  simp [Outline.headerFields, Series.headerFields, Level.header, Series.ofLevel, Bits.ofBytes,
    fieldBits, Mark.member, Mark.coding]

theorem Level.Fits.memberBits {level : Level} {data : List UInt8} (fits : level.Fits data) :
    Draft.memberBits level data =
      Bits.ofBytes level.header ++ Action.extend (soleBlockBits (Run.divide data)) .finish := by
  have positive := (Run.divide_spec data).1.positive
  obtain ⟨silent, holds, fresh⟩ :=
    (Series.holds_ofLevel level).takeAll_fitting positive fits
  have aligned : (Bits.ofBytes level.header).length % 8 = 0 := by
    rw [Bits.length_ofBytes]
    exact Nat.mul_mod_right 8 _
  rw [List.nil_append] at holds
  rw [Draft.memberBits, Draft.memberFields_eq, silent, List.nil_append, fieldBits_append,
    level.bits_header, holds.bits_closing fresh, Action.extend_finish_append aligned]

/-- The compressed forms of data that fits into one block differ at different levels in the digit
of the level only. -/
theorem compress_fitting (data : List UInt8) :
    ∃ back, ∀ level : Level, level.Fits data →
      compress data level = .ok (level.header ++ back).toArray := by
  by_cases fitting : ∃ level : Level, level.Fits data
  · obtain ⟨level, fits⟩ := fitting
    obtain ⟨output, _, bits⟩ := Encoder.compress_bits data level
    rw [fits.memberBits] at bits
    obtain ⟨back, -, rest⟩ := Bits.exists_append bits
    refine ⟨back, fun level fits => ?_⟩
    obtain ⟨output, compressed, bits⟩ := Encoder.compress_bits data level
    rw [fits.memberBits, ← rest, ← Bits.ofBytes_append] at bits
    rw [compressed, ← Bits.ofBytes_injective bits, Array.toArray_toList]
  · exact ⟨[], fun level fits => absurd ⟨level, fits⟩ fitting⟩

namespace Framer

/-- A member that is begun anew is written like the first one of a new framer. -/
theorem visit_start (level : Level) (history : List (Request × Channel)) (requests : List Request)
    {channel fresh : Channel} (ready : channel.Ready) (ready' : fresh.Ready)
    (same : channel.writer.held = fresh.writer.held) :
    ∃ framer bits after after',
      visit history (ofLevel level) = some framer ∧
      serveAll (.start :: requests) framer channel = some (.ok () after) ∧
      serveAll (.start :: requests) (ofLevel level) fresh = some (.ok () after') ∧
      channel.Gained bits after.channel ∧ fresh.Gained bits after'.channel ∧
      after.framer.store.perturbed = false := by
  obtain ⟨framer, series, visited, shows, setting⟩ := @visit_spec (·.level = level) history
    (fun _ _ _ _ _ leads kept => leads.level.trans kept) _ _ (ofLevel_shows level) rfl
  have allowed : series.block.cleared = (Series.ofLevel level).block.cleared := by
    have extent := shows.allowed
    rw [setting] at extent
    simp only [Block.cleared, Series.ofLevel, Block.ofSize, ← extent, Nat.add_sub_cancel]
  have plan : series.plan .start = (Series.ofLevel level).plan .start := by
    rw [Series.plan, Series.plan, Series.headerFields, Series.headerFields, setting]
    rfl
  have aligned := Channel.aligned_of_held ready.tidy ready'.tidy same
  obtain ⟨bits, begun, begun', success, success', gained, gained', shows, shown⟩ :=
    shows.serve_same (ofLevel_shows level) plan ready ready' aligned
  obtain ⟨more, after, after', others, others', further, further', raw⟩ :=
    serveAll_alike shows shown ⟨setting, allowed, rfl⟩ requests gained.ready gained'.ready
      (aligned.gained gained gained')
  refine ⟨framer, bits ++ more, after, after', visited, ?_, ?_, gained.trans further,
    gained'.trans further', raw rfl⟩
  · simp only [serveAll, success, Option.bind_eq_bind, Option.bind_some, others]
  · simp only [serveAll, success', Option.bind_eq_bind, Option.bind_some, others']

/-- What the storage of a block tells of the runs that were taken for it. -/
structure Course.Accounts (course : Course) : Prop where
  crc : course.framer.store.crc = Crc.pushAll {} (course.accepted.flatMap Run.expand)
  bytes : course.framer.store.perturbed = false →
    course.framer.store.bytes = course.accepted.flatMap Run.encode
  marked : course.framer.store.perturbed = true → course.failed = true

theorem Course.Tracks.accounts {course : Course} {series : Series} (tracks : course.Tracks series)
    (shows : course.framer.Shows series) : course.Accounts := by
  refine ⟨shows.store.crc.trans tracks.recalls.crc, fun raw => ?_, fun perturbed => ?_⟩
  · rw [shows.store.bytes]
    exact tracks.recalls.bytes (shows.store.perturbed.symm.trans raw)
  · exact tracks.marked (shows.store.perturbed.symm.trans perturbed)

theorem Course.Accounts.raw {course : Course} (accounts : course.Accounts)
    (kept : course.failed = false) :
    course.framer.store.perturbed = false ∧
      course.framer.store.bytes = course.accepted.flatMap Run.encode := by
  cases flag : course.framer.store.perturbed with
  | true => exact nomatch kept.symm.trans (accounts.marked flag)
  | false => exact ⟨rfl, accounts.bytes flag⟩

/-- A block is written like any other block with the same bytes, checksum and flag. -/
theorem Course.Tracks.endBlock {course : Course} {series : Series} (tracks : course.Tracks series)
    (shows : course.framer.Shows series) (occupied : course.framer.store.size ≠ 0)
    {channel : Channel} (ready : channel.Ready) :
    ∃ after, Framer.endBlock course.framer channel = some (.ok () after) ∧
      channel.Gained (Block.storedBits course.framer.store.perturbed course.framer.store.bytes
        course.framer.store.crc.value) after.channel := by
  obtain ⟨after, success, final, stream, -⟩ := shows.serve_ready .endBlock ready
  refine ⟨after, success, final, ?_⟩
  have filled : series.block.isEmpty = false := by
    rw [shows.store.size] at occupied
    simpa [Block.isEmpty, Array.isEmpty] using occupied
  rw [stream, Series.plan, Action.extendAll_puts, Series.blockFields, filled, shows.store.bytes,
    shows.store.perturbed, shows.store.crc, if_neg Bool.false_ne_true, tracks.recalls.exact.bits]

theorem visit_endBlock (level : Level) {history : List (Request × Channel)}
    (proper : ∀ call ∈ history, call.1.Proper) {channel : Channel} (ready : channel.Ready) :
    ∃ course, Course.visit history { framer := ofLevel level } = some course ∧
      visit history (ofLevel level) = some course.framer ∧ course.Accounts ∧
      (course.framer.store.size ≠ 0 → ∃ after,
        endBlock course.framer channel = some (.ok () after) ∧
        channel.Gained (Block.storedBits course.framer.store.perturbed course.framer.store.bytes
          course.framer.store.crc.value) after.channel) := by
  obtain ⟨course, series, followed, visited, shows, tracks⟩ := Course.visit_ofLevel level proper
  exact ⟨course, followed, visited, tracks.accounts shows, fun occupied =>
    tracks.endBlock shows occupied ready⟩

/-- Nothing leaks from one block, member or failure into what is written later. After any calls on
any sinks, a member that is begun anew is written like the first one of a new framer. What is
written of a block is one and the same function of the bytes that it holds, its checksum and whether
it is perturbed already, at every level and after every history. The checksum is that of the runs
taken for the block, and the bytes are their encoded form, unless the block is perturbed already,
which only a failed attempt to write this very block has done. So the compressed forms of data that
fits into one block differ at different levels in the digit of the level only. -/
theorem isolation :
    (∀ (level : Level) (history : List (Request × Channel)) (requests : List Request)
      (channel fresh : Channel), channel.Ready → fresh.Ready →
      channel.writer.held = fresh.writer.held →
      ∃ framer bits after after',
        visit history (ofLevel level) = some framer ∧
        serveAll (.start :: requests) framer channel = some (.ok () after) ∧
        serveAll (.start :: requests) (ofLevel level) fresh = some (.ok () after') ∧
        channel.Gained bits after.channel ∧ fresh.Gained bits after'.channel ∧
        after.framer.store.perturbed = false) ∧
    (∃ blockBits : Bool → List UInt8 → UInt32 → List Bool,
      ∀ (level : Level) (history : List (Request × Channel)) (channel : Channel),
        (∀ call ∈ history, call.1.Proper) → channel.Ready →
        ∃ course, Course.visit history { framer := ofLevel level } = some course ∧
          visit history (ofLevel level) = some course.framer ∧ course.Accounts ∧
          (course.framer.store.size ≠ 0 → ∃ after,
            endBlock course.framer channel = some (.ok () after) ∧
            channel.Gained (blockBits course.framer.store.perturbed course.framer.store.bytes
              course.framer.store.crc.value) after.channel)) ∧
    (∀ data : List UInt8, ∃ back, ∀ level : Level, level.Fits data →
      compress data level = .ok (level.header ++ back).toArray) :=
  ⟨fun level history requests _ _ ready ready' same =>
      visit_start level history requests ready ready' same,
    ⟨Block.storedBits, fun level _ _ proper ready => visit_endBlock level proper ready⟩,
    compress_fitting⟩

/-- The same after a block and a trailer that the sink has refused. -/
theorem isolation_refused :
    ∃ blockBits : Bool → List UInt8 → UInt32 → List Bool, ∃ back : List UInt8,
      let refusing : Channel :=
        { writer :=
          { ready := Array.replicate 4095 0, sink := { writeReplies := [.take 0] } } }
      let history : List (Request × Channel) :=
        [(.start, {}), (.run ⟨7, 9⟩, {}), (.endBlock, refusing), (.endStream, refusing)]
      (∃ framer bits after after',
        visit history (ofLevel .least) = some framer ∧
        serveAll [.start, .run ⟨1, 3⟩, .endBlock, .endStream] framer {} = some (.ok () after) ∧
        serveAll [.start, .run ⟨1, 3⟩, .endBlock, .endStream] (ofLevel .least) {} =
          some (.ok () after') ∧
        Channel.Gained {} bits after.channel ∧ Channel.Gained {} bits after'.channel ∧
        after.framer.store.perturbed = false) ∧
      (∃ course, Course.visit history { framer := ofLevel .least } = some course ∧
        visit history (ofLevel .least) = some course.framer ∧ course.Accounts ∧
        (course.framer.store.size ≠ 0 → ∃ after,
          endBlock course.framer {} = some (.ok () after) ∧
          Channel.Gained {} (blockBits course.framer.store.perturbed course.framer.store.bytes
            course.framer.store.crc.value) after.channel)) ∧
      compress [1, 1] .least = .ok (Level.least.header ++ back).toArray ∧
      compress [1, 1] .greatest = .ok (Level.greatest.header ++ back).toArray := by
  have ready : Channel.Ready {} := ⟨⟨rfl, rfl⟩, by decide, by decide⟩
  obtain ⟨anew, ⟨blockBits, bits⟩, fitting⟩ := isolation
  obtain ⟨back, same⟩ := fitting [1, 1]
  refine ⟨blockBits, back, anew _ _ [.run ⟨1, 3⟩, .endBlock, .endStream] {} {} ready ready rfl,
    bits _ _ {} ?_ ready, same _ ?_, same _ ?_⟩
  · simp [Request.Proper]
  · decide
  · decide

/-- Runs of 255 bytes are encoded as equal bytes if they repeat the byte that tells their length. -/
theorem flatMap_encode_replicate (count : Nat) :
    (List.replicate count (⟨251, 255⟩ : Run)).flatMap Run.encode =
      List.replicate (5 * count) 251 := by
  have one : Run.encode ⟨251, 255⟩ = List.replicate 5 251 := by decide
  rw [List.flatMap_replicate, one, List.flatten_replicate_replicate, Nat.mul_comm]

theorem sort_replicate (level : Level) {count : Nat} (long : 25 ≤ count) :
    let sorted := ((List.replicate count (⟨251, 255⟩ : Run)).foldl Series.append
      (.ofLevel level)).block.sort.block
    sorted.perturbed = true ∧
      sorted.bytes = Perturbation.apply (Array.replicate (5 * count) 251) := by
  obtain ⟨bytes, -, -, -⟩ :=
    Series.foldl_append (.ofLevel level) (List.replicate count (⟨251, 255⟩ : Run))
  have equal : ((List.replicate count (⟨251, 255⟩ : Run)).foldl Series.append
      (.ofLevel level)).block.bytes = Array.replicate (5 * count) 251 := by
    rw [← Array.toList_inj, bytes, flatMap_encode_replicate, Array.toList_replicate]
    rfl
  dsimp only
  rw [Block.sort_uniform equal (by omega)]
  exact ⟨rfl, congrArg Perturbation.apply equal⟩

section Uniform

variable {channel refusing : Channel} {fault : Fault} {writer : BitWriter} {count : Nat}
variable {other : UInt8}

theorem length_uniform_pos :
    ∀ run ∈ List.replicate count (⟨251, 255⟩ : Run) ++ [⟨other, 3⟩], 0 < run.length := by
  intro run member
  rcases List.mem_append.mp member with early | late
  · rw [List.eq_of_mem_replicate early]
    decide
  · rw [List.mem_singleton.mp late]
    exact (by decide : (0 : UInt8) < 3)

/-- Such runs stay perturbed once an attempt to write them has failed, and another run is added to
them as it is. -/
theorem visit_uniform_refused (level : Level) (channel : Channel)
    (refused : BitWriter.put (.byte 0x31) refusing.writer = .error fault writer)
    (long : 25 ≤ count) (room : 5 * (count + 1) ≤ level.blockSize - Block.margin) :
    let runs : List Run := List.replicate count ⟨251, 255⟩
    let last : List Run := [⟨other, 3⟩]
    ∃ (retried : Course) (series : Series),
      Course.visit ((.start, channel) ::
          (Course.calls channel runs ++ (.endBlock, refusing) :: Course.calls channel last))
        { framer := ofLevel level } = some retried ∧
      retried.framer.Shows series ∧ retried.Tracks series ∧ retried.accepted = runs ++ last ∧
      retried.framer.store.perturbed = true ∧
      retried.framer.store.bytes = (Perturbation.apply (Array.replicate (5 * count) 251)).toList ++
        List.replicate 3 other := by
  intro runs last
  have begun : runs ≠ [] := List.ne_nil_of_length_pos (by rw [List.length_replicate]; omega)
  have fits : 5 * (runs ++ last).length ≤ level.blockSize - Block.margin := by
    simpa [runs, last] using room
  obtain ⟨retried, series, visited, shows, tracks, accepted, flag, bytes⟩ :=
    Course.visit_retried level channel length_uniform_pos begun fits refused
  obtain ⟨perturbed, flips⟩ := sort_replicate level long
  refine ⟨retried, series, visited, shows, tracks, accepted,
    shows.store.perturbed.trans (flag.trans perturbed), ?_⟩
  rw [shows.store.bytes, bytes, flips]
  simp [Run.encode]

/-- The bytes and the checksum of its runs do not decide what is written of a block. An attempt to
write runs of equal bytes fails once they are perturbed; they stay so, and with one more run the
block is written differently from the one that takes all runs before it is first written. -/
theorem visit_uniform (level : Level) (ready : channel.Ready)
    (refused : BitWriter.put (.byte 0x31) refusing.writer = .error fault writer)
    {place later : Nat} (apart : other ≠ 251) (distant : other ^^^ 1 ≠ 251)
    (long : 25 ≤ count) (room : 5 * (count + 1) ≤ level.blockSize - Block.margin)
    (inside : place < 5 * count) (flipped : Perturbation.mask place = 1)
    (after : 5 * count ≤ later) (within : later < 5 * count + 3)
    (flipped' : Perturbation.mask later = 1) :
    let runs : List Run := List.replicate count ⟨251, 255⟩
    let last : List Run := [⟨other, 3⟩]
    ∃ course retried after after' bits bits',
      Course.visit ((.start, channel) :: Course.calls channel (runs ++ last))
        { framer := ofLevel level } = some course ∧
      Course.visit ((.start, channel) ::
          (Course.calls channel runs ++ (.endBlock, refusing) :: Course.calls channel last))
        { framer := ofLevel level } = some retried ∧
      course.accepted = runs ++ last ∧ retried.accepted = runs ++ last ∧
      course.framer.store.crc = retried.framer.store.crc ∧
      endBlock course.framer channel = some (.ok () after) ∧
      endBlock retried.framer channel = some (.ok () after') ∧
      channel.Gained bits after.channel ∧ channel.Gained bits' after'.channel ∧ bits ≠ bits' := by
  intro runs last
  have fits : 5 * (runs ++ last).length ≤ level.blockSize - Block.margin := by
    simpa [runs, last] using room
  obtain ⟨framer, shows, tracks, taken⟩ :=
    Course.visit_begun level channel length_uniform_pos fits []
  rw [List.append_nil] at taken
  obtain ⟨raw, whole⟩ := (tracks.accounts shows).raw rfl
  dsimp only at raw whole
  rw [List.flatMap_append, flatMap_encode_replicate] at whole
  obtain ⟨retried, series, attempted, shows', tracks', accepted, marked, held⟩ :=
    @visit_uniform_refused _ _ _ _ other level channel refused long room
  have crc := (tracks.accounts shows).crc.trans
    (accepted ▸ (tracks'.accounts shows').crc).symm
  obtain ⟨left, written, gained⟩ :=
    tracks.endBlock shows (BlockStore.size_ne_zero (by simp [whole, Run.encode])) ready
  obtain ⟨left', written', gained'⟩ :=
    tracks'.endBlock shows' (BlockStore.size_ne_zero (by simp [held])) ready
  refine ⟨_, retried, left, left', _, _, taken, attempted, rfl, accepted, crc, written, written',
    gained, gained', ?_⟩
  dsimp only
  rw [raw, whole, held, marked]
  exact Block.storedBits_retried apart distant inside flipped after within flipped' _ _

end Uniform

/-- The same after 267 runs, which fill the places up to 1335 with equal bytes, of which the one at
617 is the first to be perturbed; the next one is at 1337, in the last run. -/
theorem endBlock_retried :
    let refusing : Channel :=
      { writer :=
        { ready := Array.replicate 4095 0
          completed := 4095
          sink := { writeReplies := [.take 0] } } }
    let runs : List Run := List.replicate 267 ⟨251, 255⟩
    let last : List Run := [⟨104, 3⟩]
    ∃ course retried after after' bits bits',
      Course.visit ((.start, {}) :: Course.calls {} (runs ++ last))
        { framer := ofLevel .least } = some course ∧
      Course.visit ((.start, {}) ::
          (Course.calls {} runs ++ (.endBlock, refusing) :: Course.calls {} last))
        { framer := ofLevel .least } = some retried ∧
      course.accepted = runs ++ last ∧ retried.accepted = runs ++ last ∧
      course.framer.store.crc = retried.framer.store.crc ∧
      endBlock course.framer {} = some (.ok () after) ∧
      endBlock retried.framer {} = some (.ok () after') ∧
      Channel.Gained {} bits after.channel ∧ Channel.Gained {} bits' after'.channel ∧
      bits ≠ bits' := by
  have ready : Channel.Ready {} := ⟨⟨rfl, rfl⟩, by decide, by decide⟩
  have first : 617 + 2 = Perturbation.reach 1 := by decide +kernel
  have second : 1337 + 2 = Perturbation.reach 2 := by decide +kernel
  intro refusing
  obtain ⟨left, refused⟩ := @BitWriter.put_refused refusing.writer [] rfl
    (by rw [Array.size_replicate]; rfl) rfl 0x31
  exact visit_uniform .least ready refused (by decide) (by decide) (by decide) (by decide)
    (by decide) (Perturbation.mask_reach (by decide) first) (by decide) (by decide)
    (Perturbation.mask_reach (by decide) second)

end Framer

end BlockSort

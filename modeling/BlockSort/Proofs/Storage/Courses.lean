import BlockSort.Proofs.Segments
import BlockSort.Proofs.Storage.Framer

/-!
The course of a framer over calls that succeed or fail. It always shows a series. The runs that it
has taken for its block, and whether an attempt to write this block has failed, tell what the block
holds.
-/
namespace BlockSort

/-- Whether an operation has succeeded. -/
def succeeded {ε σ α : Type} : EStateM.Result ε σ α → Bool
  | .ok .. => true
  | .error .. => false

/-- A byte is not written if it fills the ready bytes up and the sink takes none of them. -/
theorem BitWriter.put_refused {writer : BitWriter} {replies : List WriteReply}
    (whole : writer.held = 0) (full : writer.ready.size + 1 = releaseSize)
    (refuses : writer.sink.writeReplies = .take 0 :: replies) (byte : UInt8) :
    ∃ left, put (.byte byte) writer = .error (.sink .noProgress) left := by
  obtain ⟨⟨data, _, flushReplies, writeCalls, flushCalls⟩, register, _, ready, completed⟩ := writer
  dsimp only at whole full refuses
  subst whole refuses
  simp [put, Field.byte, Field.widest, load, moveBytes, full, release, bind, EStateM.bind, get,
    getThe, MonadStateOf.get, EStateM.get, onSink, within, Sink.writeAll, EStateM.adaptExcept,
    Sink.deliver]

namespace Series

open Framer (Request)

/-- How a call changes a series, by whether it succeeds. -/
inductive Leads : Request → Bool → Series → Series → Prop
  | start (told : Bool) (series : Series) : Leads .start told series series.restart
  | added {series : Series} (short : series.block.isFull = false) (run : Run) :
      Leads (.run run) true series (series.append run)
  | moved {series : Series} (full : series.block.isFull = true) (run : Run) :
      Leads (.run run) true series (series.closeBlock.append run)
  | refused {series : Series} (occupied : series.block.isEmpty = false) (run : Run) :
      Leads (.run run) false series (series.withSorted series.block.sort)
  | closed (series : Series) : Leads .endBlock true series series.closeBlock
  | stuck {series : Series} (occupied : series.block.isEmpty = false) :
      Leads .endBlock false series (series.withSorted series.block.sort)
  | ended (told : Bool) (series : Series) : Leads .endStream told series series

variable {request : Request} {told : Bool} {series after : Series}

theorem writeBlock_failed {channel : Channel} {fault : Fault} {press : Press}
    (failed : Press.writeBlock ⟨series, channel⟩ = .error fault press) :
    series.block.isEmpty = false ∧ press.series = series.withSorted series.block.sort := by
  rw [Press.writeBlock] at failed
  by_cases empty : series.block.isEmpty
  · simp [empty] at failed
  · simp only [empty, Bool.false_eq_true, if_false] at failed
    split at failed
    · cases failed
    · cases failed
      exact ⟨Bool.not_eq_true _ ▸ empty, rfl⟩

theorem writeBlock_refused {channel : Channel} (occupied : series.block.isEmpty = false)
    {fault : Fault} {writer : BitWriter}
    (refused : BitWriter.put (.byte 0x31) channel.writer = .error fault writer) :
    ∃ left, Press.writeBlock ⟨series, channel⟩ =
      .error fault ⟨series.withSorted series.block.sort, left⟩ := by
  have noted : BitWriter.put (.byte 0x31)
      (series.block.sort.overrunEvent.elim channel channel.note).writer = .error fault writer := by
    cases series.block.sort.overrunEvent <;> exact refused
  have emitted : ∃ left, Channel.emit (series.block.sort.emissions (series.written + 1)) channel =
      .error fault left := by
    rw [Framer.emit_emissions]
    generalize series.block.sort.overrunEvent.elim channel channel.note = noting at noted
    simp [Channel.emit, Channel.onWriter, within, BitWriter.putAll, Mark.block, noted]
  obtain ⟨left, emitted⟩ := emitted
  refine ⟨left, ?_⟩
  simp [Press.writeBlock, occupied, withSorted, emitted]

theorem pressed_leads (request : Request) (series : Series) (channel : Channel) :
    Leads request (succeeded (Framer.pressed request ⟨series, channel⟩)) series
      (finalState (Framer.pressed request ⟨series, channel⟩)).series := by
  cases request with
  | start =>
    simp only [Framer.pressed, Press.openMember, Press.onChannel, within]
    cases Channel.emit [.fields series.headerFields] channel with
    | ok _ channel | error _ channel => exact .start _ series
  | run run =>
    simp only [Framer.pressed, Press.add]
    by_cases full : series.block.isFull
    · simp only [full, if_true]
      cases told : Press.writeBlock ⟨series, channel⟩ with
      | ok _ press =>
        have closed := (Press.follows_writeBlock ⟨series, channel⟩).of_ok told
        simp only [finalState, Press.append, closed]
        exact .moved full run
      | error fault press =>
        obtain ⟨occupied, same⟩ := writeBlock_failed told
        rw [finalState, same]
        exact .refused occupied run
    · simp only [full, Bool.false_eq_true, if_false]
      exact .added (Bool.not_eq_true _ ▸ full) run
  | endBlock =>
    rw [Framer.pressed]
    cases told : Press.writeBlock ⟨series, channel⟩ with
    | ok _ press =>
      have closed := (Press.follows_writeBlock ⟨series, channel⟩).of_ok told
      rw [finalState, closed]
      exact .closed series
    | error fault press =>
      obtain ⟨occupied, same⟩ := writeBlock_failed told
      rw [finalState, same]
      exact .stuck occupied
  | endStream =>
    simp only [Framer.pressed, Press.writeTrailer, bind, EStateM.bind, get, getThe,
      MonadStateOf.get, EStateM.get, Press.onChannel, within]
    cases Channel.emit series.trailerEmissions channel with
    | error fault channel => exact .ended _ series
    | ok _ channel =>
      dsimp only
      cases Channel.onWriter BitWriter.finish channel with
      | ok _ channel | error _ channel => exact .ended _ series

theorem Leads.level (leads : Leads request told series after) : after.level = series.level := by
  cases leads with
  | moved =>
    rw [append, closeBlock]
    split <;> rfl
  | closed =>
    rw [closeBlock]
    split <;> rfl
  | start | added | refused | stuck | ended => rfl

theorem foldl_append (series : Series) (runs : List Run) :
    let block := (runs.foldl append series).block
    block.bytes.toList = series.block.bytes.toList ++ runs.flatMap Run.encode ∧
      block.perturbed = series.block.perturbed ∧ block.allowed = series.block.allowed ∧
      block.size ≤ series.block.size + 5 * runs.length := by
  induction runs generalizing series with
  | nil => simp
  | cons run rest ih =>
    obtain ⟨bytes, perturbed, allowed, size⟩ := ih (series.append run)
    have grown : (series.append run).block.size ≤ series.block.size + 5 :=
      series.block.size_append run
    refine ⟨?_, perturbed, allowed, ?_⟩
    · rw [List.foldl_cons, bytes, append, Block.bytes_append, List.append_assoc, List.flatMap_cons]
    · rw [List.foldl_cons, List.length_cons]
      omega

end Series

namespace Block

/-- The values in use are those that occur. -/
def Exact (block : Block) : Prop :=
  ∀ byte, block.present.contains byte = true ↔ byte ∈ block.bytes

variable {block : Block}

theorem exact_cleared (block : Block) : block.cleared.Exact := by simp [Exact, cleared]

theorem Exact.append (exact : block.Exact) {run : Run} (positive : 0 < run.length) :
    (block.append run).Exact := by
  intro byte
  rw [contains_append, ← Run.mem_encode positive, exact byte, ← Array.mem_toList_iff,
    ← Array.mem_toList_iff, bytes_append, List.mem_append, or_comm]

theorem Exact.sort (exact : block.Exact) : block.sort.block.Exact := by
  obtain ⟨sorted, budget, overrun, rfl | rfl, -, same⟩ := block.sort_cases
  · rwa [same]
  · rw [same]
    exact block.contains_perturb

/-- What a block tells of the runs that it has taken, also once it is perturbed. -/
structure Recalls (block : Block) (runs : List Run) : Prop where
  exact : block.Exact
  crc : block.crc = Crc.pushAll {} (runs.flatMap Run.expand)
  bytes : block.perturbed = false → block.bytes.toList = runs.flatMap Run.encode
  vacant : block.isEmpty = true → runs = [] ∧ block.perturbed = false

variable {runs : List Run}

theorem recalls_cleared (block : Block) : block.cleared.Recalls [] :=
  ⟨exact_cleared block, rfl, fun _ => rfl, fun _ => ⟨rfl, rfl⟩⟩

theorem Recalls.append (recalls : block.Recalls runs) {run : Run} (positive : 0 < run.length) :
    (block.append run).Recalls (runs ++ [run]) := by
  refine ⟨recalls.exact.append positive, ?_, fun raw => ?_, fun vacant => ?_⟩
  · rw [Block.append]
    simp only [Crc.pushCopies_eq, recalls.crc, List.flatMap_append, List.flatMap_singleton]
    exact List.foldl_append.symm
  · rw [bytes_append, recalls.bytes raw, List.flatMap_append, List.flatMap_singleton]
  · rw [isEmpty, ← Array.isEmpty_toList, bytes_append] at vacant
    simp [Run.encode_ne_nil positive] at vacant

theorem Recalls.sort (recalls : block.Recalls runs) (occupied : block.isEmpty = false) :
    block.sort.block.Recalls runs := by
  refine ⟨recalls.exact.sort, block.sort_crc.trans recalls.crc, fun raw => ?_, fun vacant => ?_⟩
  · obtain ⟨sorted, budget, overrun, rfl | rfl, -, same⟩ := block.sort_cases
    · rw [same] at raw ⊢
      exact recalls.bytes raw
    · rw [same] at raw
      cases raw
  · rw [isEmpty, Array.isEmpty, block.sort_size] at vacant
    exact absurd vacant (Bool.not_eq_true _ ▸ occupied)

end Block

namespace Framer

/-- A run that is added is not empty. -/
def Request.Proper : Request → Prop
  | .run copies => 0 < copies.length
  | _ => True

/-- The framer after calls, each on a channel of its own, whether they succeed or not. -/
def visit : List (Request × Channel) → Framer → Option Framer
  | [], framer => some framer
  | (request, channel) :: rest, framer => do
    visit rest (finalState (← serve request framer channel)).framer

/-- A framer with the runs that it has taken for its block. -/
structure Course where
  framer : Framer
  accepted : List Run := []
  /-- Whether an attempt to write the block has failed. -/
  failed : Bool := false

namespace Course

/-- The course once a call has left the framer, by whether it has succeeded. -/
def next (course : Course) (framer : Framer) : Request → Bool → Course
  | .start, _ | .endBlock, true => { framer }
  | .run run, true =>
    if course.framer.store.allowed < course.framer.store.size then { framer, accepted := [run] }
    else { course with framer, accepted := course.accepted ++ [run] }
  | .run _, false | .endBlock, false => { course with framer, failed := true }
  | .endStream, _ => { course with framer }

/-- The course after calls, each on a channel of its own, whether they succeed or not. -/
def visit : List (Request × Channel) → Course → Option Course
  | [], course => some course
  | (request, channel) :: rest, course => do
    let result ← serve request course.framer channel
    visit rest (course.next (finalState result).framer request (succeeded result))

theorem framer_next (course : Course) (framer : Framer) (request : Request) (told : Bool) :
    (course.next framer request told).framer = framer := by
  cases request with
  | run run =>
    cases told with
    | true =>
      rw [next]
      split <;> rfl
    | false => rfl
  | endBlock => cases told <;> rfl
  | start | endStream => rfl

end Course

theorem Reflects.finalState {outcome : Outcome} {result : EStateM.Result Fault Press Unit}
    (reflects : Reflects outcome result) :
    ∃ final, outcome = some final ∧ succeeded final = succeeded result ∧
      (BlockSort.finalState final).framer.Shows (BlockSort.finalState result).series := by
  cases result with
  | ok _ press | error _ press =>
    obtain ⟨framer, same, shows⟩ := reflects
    exact ⟨_, same, rfl, shows⟩

namespace Course

variable {course : Course} {series : Series}

theorem visit_cons (shows : course.framer.Shows series) (request : Request) (channel : Channel)
    (rest : List (Request × Channel)) :
    let result := pressed request ⟨series, channel⟩
    ∃ framer, framer.Shows (BlockSort.finalState result).series ∧
      visit ((request, channel) :: rest) course =
        visit rest (course.next framer request (succeeded result)) ∧
      Framer.visit ((request, channel) :: rest) course.framer = Framer.visit rest framer := by
  obtain ⟨final, served, told, shown⟩ := (shows.serve request channel).finalState
  refine ⟨_, shown, ?_, ?_⟩
  · simp only [visit, served, Option.bind_eq_bind, Option.bind_some, told]
  · simp only [Framer.visit, served, Option.bind_eq_bind, Option.bind_some]

/-- No call misses a place, whatever came before it, and the storage always shows a series, of which
the calls keep what each of them keeps. -/
theorem visit_spec (property : Course → Series → Prop) {history : List (Request × Channel)}
    (kept : ∀ call ∈ history, ∀ (course : Course) framer series told after,
      course.framer.Shows series → Series.Leads call.1 told series after → property course series →
      property (course.next framer call.1 told) after)
    (shows : course.framer.Shows series) (holds : property course series) :
    ∃ after series, visit history course = some after ∧
      Framer.visit history course.framer = some after.framer ∧ after.framer.Shows series ∧
      property after series := by
  induction history generalizing course series with
  | nil => exact ⟨course, series, rfl, rfl, shows, holds⟩
  | cons call rest ih =>
    obtain ⟨request, channel⟩ := call
    obtain ⟨framer, shown, step, stepped⟩ := visit_cons shows request channel rest
    have onward := kept (request, channel) List.mem_cons_self course framer _ _ _ shows
      (Series.pressed_leads request series channel) holds
    have next := framer_next course framer request (succeeded (pressed request ⟨series, channel⟩))
    obtain ⟨after, last, others, visited, result⟩ :=
      ih (fun other member => kept other (List.mem_cons_of_mem _ member)) (by rwa [next]) onward
    rw [next] at visited
    exact ⟨after, last, step.trans others, stepped.trans visited, result⟩

end Course

/-- A framer keeps what each call keeps of its series. -/
theorem visit_spec (property : Series → Prop) {history : List (Request × Channel)}
    (kept : ∀ call ∈ history, ∀ told series after, Series.Leads call.1 told series after →
      property series → property after)
    {framer : Framer} {series : Series} (shows : framer.Shows series) (holds : property series) :
    ∃ after series, visit history framer = some after ∧ after.Shows series ∧ property series := by
  obtain ⟨after, last, -, visited, result⟩ := @Course.visit_spec { framer } series
    (fun _ => property) history
    (fun call member _ _ series told after _ => kept call member told series after) shows holds
  exact ⟨after.framer, last, visited, result⟩

namespace Course

/-- A block recalls the runs of its course, and only a failed attempt to write it has perturbed
it. -/
structure Tracks (course : Course) (series : Series) : Prop where
  recalls : series.block.Recalls course.accepted
  marked : series.block.perturbed = true → course.failed = true

theorem tracks_cleared (framer : Framer) {series : Series} (block : Block)
    (cleared : series.block = block.cleared) : Tracks { framer } series := by
  refine ⟨cleared ▸ Block.recalls_cleared block, fun perturbed => ?_⟩
  rw [cleared] at perturbed
  cases perturbed

variable {course : Course} {series after : Series} {request : Request} {told : Bool}

theorem Tracks.append (tracks : course.Tracks series) (framer : Framer) {run : Run}
    (positive : 0 < run.length) :
    Tracks { course with framer, accepted := course.accepted ++ [run] } (series.append run) :=
  ⟨tracks.recalls.append positive, tracks.marked⟩

theorem Tracks.sort (tracks : course.Tracks series) (framer : Framer)
    (occupied : series.block.isEmpty = false) :
    Tracks { course with framer, failed := true } (series.withSorted series.block.sort) :=
  ⟨tracks.recalls.sort occupied, fun _ => rfl⟩

theorem Tracks.close (tracks : course.Tracks series) (framer : Framer) :
    Tracks { framer } series.closeBlock := by
  rw [Series.closeBlock]
  split
  · rename_i vacant
    obtain ⟨fresh, raw⟩ := tracks.recalls.vacant vacant
    exact ⟨fresh ▸ tracks.recalls, fun perturbed => by simp [raw] at perturbed⟩
  · exact tracks_cleared framer series.block.sort.block rfl

theorem Tracks.next (tracks : course.Tracks series) (shows : course.framer.Shows series)
    (framer : Framer) (leads : Series.Leads request told series after) (proper : request.Proper) :
    (course.next framer request told).Tracks after := by
  have full : course.framer.store.allowed < course.framer.store.size ↔
      series.block.isFull = true := by
    rw [shows.store.allowed, shows.store.size]
    exact decide_eq_true_iff.symm
  cases leads with
  | start => exact tracks_cleared framer series.block rfl
  | added short run =>
    rw [Course.next, if_neg (by rw [full, short]; exact Bool.false_ne_true)]
    exact tracks.append framer proper
  | moved filled run =>
    rw [Course.next, if_pos (full.mpr filled)]
    exact (tracks.close framer).append framer proper
  | refused occupied run => exact tracks.sort framer occupied
  | closed => exact tracks.close framer
  | stuck occupied => exact tracks.sort framer occupied
  | ended => exact ⟨tracks.recalls, tracks.marked⟩

theorem visit_ofLevel (level : Level) {history : List (Request × Channel)}
    (proper : ∀ call ∈ history, call.1.Proper) :
    ∃ course series, visit history { framer := ofLevel level } = some course ∧
      Framer.visit history (ofLevel level) = some course.framer ∧ course.framer.Shows series ∧
      course.Tracks series :=
  visit_spec Tracks (fun call member _ framer _ _ _ shows leads tracks =>
    tracks.next shows framer leads (proper call member)) (ofLevel_shows level)
    (tracks_cleared _ (Series.ofLevel level).block rfl)

/-- The calls for runs, all on one channel. -/
def calls (channel : Channel) (runs : List Run) : List (Request × Channel) :=
  runs.map fun run => (.run run, channel)

theorem Tracks.visit_runs (tracks : course.Tracks series) (shows : course.framer.Shows series)
    (channel : Channel) {runs : List Run} (positive : ∀ run ∈ runs, 0 < run.length)
    (room : series.block.size + 5 * runs.length ≤ series.block.allowed)
    (rest : List (Request × Channel)) :
    ∃ framer, framer.Shows (runs.foldl Series.append series) ∧
      Tracks { course with framer, accepted := course.accepted ++ runs }
        (runs.foldl Series.append series) ∧
      visit (calls channel runs ++ rest) course =
        visit rest { course with framer, accepted := course.accepted ++ runs } := by
  induction runs generalizing course series with
  | nil => exact ⟨course.framer, shows, by simpa using tracks, by simp [calls]⟩
  | cons run others ih =>
    rw [List.length_cons] at room
    have short : series.block.isFull = false := by
      rw [Block.isFull, decide_eq_false_iff_not]
      omega
    have added : pressed (.run run) ⟨series, channel⟩ =
        .ok () ⟨series.append run, channel⟩ := by
      simp [pressed, Press.add, short, Press.append]
    obtain ⟨framer, shown, step, -⟩ :=
      visit_cons shows (.run run) channel (calls channel others ++ rest)
    rw [added] at shown step
    have space : ¬course.framer.store.allowed < course.framer.store.size := by
      rw [shows.store.allowed, shows.store.size]
      exact of_decide_eq_false short
    rw [succeeded, Course.next, if_neg space] at step
    have grown : (series.append run).block.size ≤ series.block.size + 5 :=
      series.block.size_append run
    have allowed : (series.append run).block.allowed = series.block.allowed := rfl
    obtain ⟨after, last, still, remaining⟩ :=
      ih (tracks.append framer (positive run List.mem_cons_self)) shown
        (fun other member => positive other (List.mem_cons_of_mem _ member)) (by omega)
    simp only [List.append_assoc, List.singleton_append] at still remaining
    exact ⟨after, last, still, step.trans remaining⟩

/-- A member is begun with runs that fit into its first block. -/
theorem visit_begun (level : Level) (channel : Channel) {runs : List Run}
    (positive : ∀ run ∈ runs, 0 < run.length)
    (room : 5 * runs.length ≤ level.blockSize - Block.margin) (rest : List (Request × Channel)) :
    ∃ framer, framer.Shows (runs.foldl Series.append (.ofLevel level)) ∧
      Tracks { framer, accepted := runs } (runs.foldl Series.append (.ofLevel level)) ∧
      visit ((.start, channel) :: (calls channel runs ++ rest)) { framer := ofLevel level } =
        visit rest { framer, accepted := runs } := by
  obtain ⟨begun, shown, step, -⟩ := @visit_cons { framer := ofLevel level } _ (ofLevel_shows level)
    .start channel (calls channel runs ++ rest)
  have leads := Series.pressed_leads .start (.ofLevel level) channel
  generalize (BlockSort.finalState (pressed .start ⟨.ofLevel level, channel⟩)).series = after at *
  cases leads
  obtain ⟨framer, shows, tracks, taken⟩ :=
    (tracks_cleared begun (Series.ofLevel level).block rfl).visit_runs shown channel positive
      (by simpa [Series.restart, Block.size, Block.cleared, Series.ofLevel, Block.ofSize] using room)
      rest
  exact ⟨framer, shows, tracks, step.trans taken⟩

/-- The same, but an attempt to write the block has failed before the last of its runs. -/
theorem visit_retried (level : Level) (channel : Channel) {runs last : List Run}
    (positive : ∀ run ∈ runs ++ last, 0 < run.length) (begun : runs ≠ [])
    (room : 5 * (runs ++ last).length ≤ level.blockSize - Block.margin) {refusing : Channel}
    {fault : Fault} {writer : BitWriter}
    (refused : BitWriter.put (.byte 0x31) refusing.writer = .error fault writer) :
    let sorted := (runs.foldl Series.append (.ofLevel level)).block.sort.block
    ∃ course series,
      visit ((.start, channel) :: (calls channel runs ++ (.endBlock, refusing) :: calls channel last))
        { framer := ofLevel level } = some course ∧
      course.framer.Shows series ∧ course.Tracks series ∧ course.accepted = runs ++ last ∧
      series.block.perturbed = sorted.perturbed ∧
      series.block.bytes.toList = sorted.bytes.toList ++ last.flatMap Run.encode := by
  rw [List.length_append] at room
  obtain ⟨before, shows, tracks, taken⟩ := visit_begun level channel
    (fun run member => positive run (List.mem_append_left last member)) (by omega)
    ((.endBlock, refusing) :: calls channel last)
  obtain ⟨bytes, -, allowed, size⟩ := Series.foldl_append (.ofLevel level) runs
  have occupied : (runs.foldl Series.append (.ofLevel level)).block.isEmpty = false := by
    obtain ⟨run, rest, rfl⟩ := List.exists_cons_of_ne_nil begun
    rw [Block.isEmpty, ← Array.isEmpty_toList, bytes]
    simp [Run.encode_ne_nil (positive run (by simp))]
  obtain ⟨left, failed⟩ := Series.writeBlock_refused occupied refused
  obtain ⟨between, shown, step, -⟩ := @visit_cons { framer := before, accepted := runs } _ shows
    .endBlock refusing (calls channel last)
  rw [pressed, failed] at shown step
  dsimp only at allowed size ⊢
  generalize runs.foldl Series.append (.ofLevel level) = series at *
  have fits : series.block.sort.block.size + 5 * last.length ≤ series.block.sort.block.allowed := by
    have sorted : series.block.sort.block.size = series.block.size := series.block.sort_size
    have fresh : (Series.ofLevel level).block.size = 0 := rfl
    have limit : (Series.ofLevel level).block.allowed = level.blockSize - Block.margin := rfl
    rw [series.block.sort_allowed]
    omega
  obtain ⟨after, final, still, others⟩ := (tracks.sort between occupied).visit_runs shown channel
    (fun run member => positive run (List.mem_append_right runs member)) fits []
  obtain ⟨bytes', perturbed', -, -⟩ :=
    Series.foldl_append (series.withSorted series.block.sort) last
  rw [List.append_nil] at others
  exact ⟨_, _, taken.trans (step.trans others), final, still, rfl, perturbed', bytes'⟩

end Course

end Framer

end BlockSort

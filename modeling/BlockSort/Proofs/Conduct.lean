import BlockSort.Member
import BlockSort.Proofs.Actions

/-!
Operations on a member as plans. Which actions an operation asks of its bit writer, and what it
leaves of the blocks and runs, depends on neither the sink nor on what was written before.
-/
namespace BlockSort

variable {σ τ : Type}

/-- An operation asks its bit writer for the given actions. If they succeed then so does the
operation, and the result holds; if one fails then the operation stops with the same fault. -/
def Follows (writer : σ → BitWriter) (operation : EStateM Fault σ Unit) (before : σ)
    (actions : List Action) (result failure : σ → Prop) : Prop :=
  match BitWriter.perform actions (writer before) with
  | .ok _ written =>
    ∃ after, operation before = .ok () after ∧ writer after = written ∧ result after
  | .error fault written =>
    ∃ after, operation before = .error fault after ∧ writer after = written ∧ failure after

namespace Follows

variable {writer : σ → BitWriter} {operation : EStateM Fault σ Unit} {before : σ}
  {actions : List Action} {result failure : σ → Prop}

/-- An operation follows the plan of another one that it runs, if it ends as that one does. -/
theorem around {outer : τ → BitWriter} {whole : EStateM Fault τ Unit} {start : τ}
    {final other : τ → Prop} (follows : Follows writer operation before actions result failure)
    (part : outer start = writer before)
    (succeeds : ∀ after, operation before = .ok () after → result after →
      ∃ joined, whole start = .ok () joined ∧ outer joined = writer after ∧ final joined)
    (fails : ∀ fault after, operation before = .error fault after → failure after →
      ∃ joined, whole start = .error fault joined ∧ outer joined = writer after ∧ other joined) :
    Follows outer whole start actions final other := by
  rw [Follows] at follows ⊢
  rw [part]
  cases done : BitWriter.perform actions (writer before) with
  | ok _ written =>
    rw [done] at follows
    obtain ⟨after, success, same, holds⟩ := follows
    obtain ⟨joined, ended, kept, outcome⟩ := succeeds after success holds
    exact ⟨joined, ended, kept.trans same, outcome⟩
  | error fault written =>
    rw [done] at follows
    obtain ⟨after, failed, same, holds⟩ := follows
    obtain ⟨joined, ended, kept, outcome⟩ := fails fault after failed holds
    exact ⟨joined, ended, kept.trans same, outcome⟩

theorem mono {weaker other : σ → Prop}
    (follows : Follows writer operation before actions result failure)
    (weaken : ∀ after, result after → weaker after)
    (relax : ∀ after, failure after → other after) :
    Follows writer operation before actions weaker other :=
  follows.around rfl
    (fun after success holds => ⟨after, success, rfl, weaken after holds⟩)
    (fun _ after failed holds => ⟨after, failed, rfl, relax after holds⟩)

theorem idle (after : σ) (success : operation before = .ok () after)
    (same : writer after = writer before) (holds : result after) :
    Follows writer operation before [] result failure := ⟨after, success, same, holds⟩

theorem onto {other : EStateM Fault σ Unit} {start : σ}
    (same : other start = operation before) (kept : writer start = writer before)
    (follows : Follows writer operation before actions result failure) :
    Follows writer other start actions result failure :=
  follows.around kept
    (fun after success holds => ⟨after, same.trans success, rfl, holds⟩)
    (fun _ after failed holds => ⟨after, same.trans failed, rfl, holds⟩)

theorem chain {whole second : EStateM Fault σ Unit} {others : List Action} {final : σ → Prop}
    (follows : Follows writer operation before actions result failure)
    (next : ∀ middle, result middle → Follows writer second middle others final failure)
    (goesOn : ∀ middle, operation before = .ok () middle → whole before = second middle)
    (stops : ∀ fault middle, operation before = .error fault middle →
      whole before = .error fault middle) :
    Follows writer whole before (actions ++ others) final failure := by
  rw [Follows] at follows ⊢
  rw [BitWriter.perform_append]
  cases done : BitWriter.perform actions (writer before) with
  | ok _ written =>
    rw [done] at follows
    obtain ⟨middle, success, same, holds⟩ := follows
    have follows := next middle holds
    rw [Follows, same] at follows
    rw [goesOn middle success]
    exact follows
  | error fault written =>
    rw [done] at follows
    obtain ⟨after, failed, same, holds⟩ := follows
    exact ⟨after, stops fault after failed, same, holds⟩

theorem seq {second : EStateM Fault σ Unit} {others : List Action} {final : σ → Prop}
    (follows : Follows writer operation before actions result failure)
    (next : ∀ middle, result middle → Follows writer second middle others final failure) :
    Follows writer (operation >>= fun _ => second) before (actions ++ others) final failure :=
  follows.chain next
    (fun _ success => by simp only [bind, EStateM.bind, success])
    (fun _ _ failed => by simp only [bind, EStateM.bind, failed])

theorem within {outer : τ → BitWriter} {split : τ → σ × (σ → τ)} {whole : τ}
    (follows : Follows writer operation (split whole).1 actions result failure)
    (part : outer whole = writer (split whole).1)
    (joined : ∀ after, outer ((split whole).2 after) = writer after) :
    Follows outer (BlockSort.within split operation) whole actions
      (fun final => ∃ after, result after ∧ final = (split whole).2 after)
      (fun final => ∃ after, failure after ∧ final = (split whole).2 after) :=
  follows.around part
    (fun after success holds =>
      ⟨_, by simp only [BlockSort.within, success], joined after, after, holds, rfl⟩)
    (fun _ after failed holds =>
      ⟨_, by simp only [BlockSort.within, failed], joined after, after, holds, rfl⟩)

end Follows

theorem BitWriter.follows_act (action : Action) (writer : BitWriter) :
    Follows id (act action) writer [action] (fun _ => True) (fun _ => True) := by
  rw [Follows]
  simp only [perform, id_eq]
  cases done : act action writer with
  | ok _ after => exact ⟨after, rfl, rfl, trivial⟩
  | error fault after => exact ⟨after, rfl, rfl, trivial⟩

namespace Emission

def actions : Emission → List Action
  | .fields content => content.map .put
  | .note _ => []

end Emission

namespace Channel

theorem follows_onWriter (action : Action) (channel : Channel) :
    Follows Channel.writer (onWriter (BitWriter.act action)) channel [action]
      (fun _ => True) (fun _ => True) :=
  ((BitWriter.follows_act action channel.writer).within rfl fun _ => rfl).mono
    (fun _ _ => trivial) (fun _ _ => trivial)

theorem follows_putAll (content : List Field) (channel : Channel) :
    Follows Channel.writer (onWriter (BitWriter.putAll content)) channel (content.map .put)
      (fun _ => True) (fun _ => True) := by
  rw [Follows, BitWriter.perform_puts, onWriter]
  simp only [within]
  cases BitWriter.putAll content channel.writer with
  | ok _ after => exact ⟨_, rfl, rfl, trivial⟩
  | error fault after => exact ⟨_, rfl, rfl, trivial⟩

theorem follows_emit (emissions : List Emission) (channel : Channel) :
    Follows Channel.writer (emit emissions) channel (emissions.flatMap Emission.actions)
      (fun _ => True) (fun _ => True) := by
  induction emissions generalizing channel with
  | nil => exact .idle channel rfl rfl trivial
  | cons emission rest ih =>
    rw [List.flatMap_cons]
    cases emission with
    | note event => exact ih (channel.note event)
    | fields content =>
      exact (follows_putAll content channel).chain (fun middle _ => ih middle)
        (fun _ success => by simp only [emit, success])
        (fun _ _ failed => by simp only [emit, failed])

end Channel

namespace Series

/-- The fields of the current block, none if it is empty. -/
def blockFields (series : Series) : List Field :=
  if series.block.isEmpty then []
  else series.block.sort.headerFields ++ series.block.sort.coded.fields

/-- The series when its current block is written. -/
def closeBlock (series : Series) : Series :=
  if series.block.isEmpty then series else (series.withSorted series.block.sort).advance

/-- The fields that are written before a run can be added. -/
def takeFields (series : Series) : List Field :=
  if series.block.isFull then series.blockFields else []

/-- The series when a run is added. -/
def take (series : Series) (run : Run) : Series :=
  (if series.block.isFull then series.closeBlock else series).append run

/-- The series when runs are added in order. -/
def takeAll (series : Series) (runs : List Run) : Series := runs.foldl take series

/-- The fields that are written while runs are added. -/
def takeAllFields : Series → List Run → List Field
  | _, [] => []
  | series, run :: rest => series.takeFields ++ takeAllFields (series.take run) rest

theorem takeAll_append (series : Series) (first second : List Run) :
    series.takeAll (first ++ second) = (series.takeAll first).takeAll second := List.foldl_append

theorem takeAllFields_append (series : Series) (first second : List Run) :
    series.takeAllFields (first ++ second) =
      series.takeAllFields first ++ (series.takeAll first).takeAllFields second := by
  induction first generalizing series with
  | nil => rfl
  | cons run rest ih =>
    rw [List.cons_append, takeAllFields, ih, takeAllFields, List.append_assoc]
    rfl

/-- What ends a member: the last block and the trailer. -/
def closingFields (series : Series) : List Field :=
  series.blockFields ++ (Mark.trailer.map Field.byte ++ Field.word series.closeBlock.combined)

end Series

/-- Of what is emitted for symbols, the fields only are written. -/
theorem CodedStream.emissions_actions (stream : CodedStream) :
    stream.emissions.flatMap Emission.actions = stream.fields.map .put := by
  have passes (choices : List (Coding.Choice stream.alphabet)) :
      (choices.mapIdx fun pass choice =>
        Emission.note (.tablePass pass choice.selectors.length choice.bits)).flatMap
          Emission.actions = [] := by
    simp [List.flatMap_eq_nil_iff, List.mem_mapIdx, Emission.actions]
    rintro _ _ _ rfl
    rfl
  simp [CodedStream.emissions, passes, Emission.actions]

namespace Press

/-- The bit writer at the end of the channel. -/
def writer (press : Press) : BitWriter := press.channel.writer

theorem follows_onChannel {operation : EStateM Fault Channel Unit} {actions : List Action}
    {press : Press}
    (follows : Follows Channel.writer operation press.channel actions
      (fun _ => True) (fun _ => True)) :
    Follows writer (onChannel operation) press actions
      (fun after => after.series = press.series) (fun _ => True) := by
  apply Follows.mono (Follows.within follows rfl fun _ => rfl)
  · rintro _ ⟨channel, _, rfl⟩
    rfl
  · exact fun _ _ => trivial

theorem follows_openMember (press : Press) :
    Follows writer openMember press (press.series.headerFields.map .put)
      (fun after => after.series = press.series.restart) (fun _ => True) := by
  have follows := Channel.follows_emit [.fields press.series.headerFields] press.channel
  rw [List.flatMap_singleton] at follows
  exact @follows_onChannel _ _ ⟨press.series.restart, press.channel⟩ follows

theorem blockEmissions_actions (sorted : SortedBlock) (number : Nat) :
    (sorted.emissions number).flatMap Emission.actions =
      (sorted.headerFields ++ sorted.coded.fields).map .put := by
  have notes (events : List Event) : (events.map Emission.note).flatMap Emission.actions = [] := by
    simp [List.flatMap_map, Emission.actions]
  simp [SortedBlock.emissions, notes, CodedStream.emissions_actions, Emission.actions]

theorem follows_writeBlock (press : Press) :
    Follows writer writeBlock press (press.series.blockFields.map .put)
      (fun after => after.series = press.series.closeBlock) (fun _ => True) := by
  obtain ⟨series, channel⟩ := press
  rw [Series.blockFields, Series.closeBlock]
  by_cases empty : series.block.isEmpty
  · simp only [empty, if_true]
    exact .idle ⟨series, channel⟩ (by simp [writeBlock, empty]) rfl rfl
  · simp only [empty, Bool.false_eq_true, if_false]
    have follows := Channel.follows_emit (series.block.sort.emissions (series.written + 1)) channel
    rw [blockEmissions_actions] at follows
    refine follows.around rfl (fun after success _ => ?_) fun fault after failed _ => ?_
    · refine ⟨⟨(series.withSorted series.block.sort).advance, after⟩, ?_, rfl, rfl⟩
      simp only [writeBlock, empty, Bool.false_eq_true, if_false, Series.withSorted, success]
    · refine ⟨⟨series.withSorted series.block.sort, after⟩, ?_, rfl, trivial⟩
      simp only [writeBlock, empty, Bool.false_eq_true, if_false, Series.withSorted, failed]

theorem follows_add (run : Run) (press : Press) :
    Follows writer (add run) press (press.series.takeFields.map .put)
      (fun after => after.series = press.series.take run) (fun _ => True) := by
  rw [Series.takeFields, Series.take]
  by_cases full : press.series.block.isFull
  · simp only [full, if_true]
    have appended (middle : Press) (closed : middle.series = press.series.closeBlock) :
        Follows writer (fun press => .ok () (press.append run)) middle []
          (fun after => after.series = press.series.closeBlock.append run) (fun _ => True) :=
      .idle _ rfl rfl (by rw [← closed]; rfl)
    rw [← List.append_nil (press.series.blockFields.map Action.put)]
    exact (follows_writeBlock press).chain appended
      (fun _ success => by simp only [add, full, if_true, success])
      (fun _ _ failed => by simp only [add, full, if_true, failed])
  · simp only [full, Bool.false_eq_true, if_false]
    refine .idle (press.append run) ?_ rfl rfl
    simp only [add, full, Bool.false_eq_true, if_false]

theorem follows_writeTrailer (press : Press) :
    Follows writer writeTrailer press
      ((Mark.trailer.map Field.byte ++ Field.word press.series.combined).map .put ++ [.finish])
      (fun after => after.series = press.series) (fun _ => True) := by
  have emitted := follows_onChannel
    (Channel.follows_emit press.series.trailerEmissions press.channel)
  have actions : press.series.trailerEmissions.flatMap Emission.actions =
      (Mark.trailer.map Field.byte ++ Field.word press.series.combined).map .put := by
    simp [Series.trailerEmissions, Emission.actions]
  rw [actions] at emitted
  have finished (middle : Press) (kept : middle.series = press.series) :
      Follows writer (onChannel (Channel.onWriter BitWriter.finish)) middle [.finish]
        (fun after => after.series = press.series) (fun _ => True) := by
    rw [← kept]
    exact follows_onChannel (Channel.follows_onWriter .finish middle.channel)
  exact emitted.chain finished
    (fun _ success => by
      simp only [writeTrailer, bind, EStateM.bind, get, getThe, MonadStateOf.get, EStateM.get,
        success])
    (fun _ _ failed => by
      simp only [writeTrailer, bind, EStateM.bind, get, getThe, MonadStateOf.get, EStateM.get,
        failed])

end Press

/-! What an open member remembers of its input, apart from the bits already written. -/

/-- A member in the making without its channel. -/
structure Draft where
  series : Series
  runs : RunBuilder := {}

namespace Draft

/-- A member that was just begun. -/
def ofLevel (level : Level) : Draft := { series := .ofLevel level }

/-- The draft when bytes are taken. -/
def push (draft : Draft) (bytes : List UInt8) : Draft :=
  ⟨draft.series.takeAll (draft.runs.pushAll bytes).1, (draft.runs.pushAll bytes).2⟩

/-- The fields that are written while bytes are taken. -/
def pushFields (draft : Draft) (bytes : List UInt8) : List Field :=
  draft.series.takeAllFields (draft.runs.pushAll bytes).1

/-- The series when the run that could still grow is added as well. -/
def ended (draft : Draft) : Series := draft.series.takeAll draft.runs.growing.toList

/-- The fields that are written to end the member. -/
def endFields (draft : Draft) : List Field :=
  draft.series.takeAllFields draft.runs.growing.toList ++ draft.ended.closingFields

end Draft

namespace RunBuilder

/-- One step of a division into runs. -/
private def collect (state : List Run × RunBuilder) (byte : UInt8) : List Run × RunBuilder :=
  match push state.2 byte with
  | (some run, builder) => (run :: state.1, builder)
  | (none, builder) => (state.1, builder)

private theorem collect_fold (bytes : List UInt8) (runs : List Run) (builder : RunBuilder) :
    bytes.foldl collect (runs, builder) =
      ((bytes.foldl collect ([], builder)).1 ++ runs, (bytes.foldl collect ([], builder)).2) := by
  induction bytes generalizing runs builder with
  | nil => rfl
  | cons byte rest ih =>
    rw [List.foldl_cons, List.foldl_cons]
    rcases completes : push builder byte with ⟨_ | run, next⟩
    · simp only [collect, completes]
      exact ih runs next
    · simp only [collect, completes]
      rw [ih (run :: runs), ih [run]]
      simp

private theorem pushAll_eq (builder : RunBuilder) (bytes : List UInt8) :
    builder.pushAll bytes =
      ((bytes.foldl collect ([], builder)).1.reverse, (bytes.foldl collect ([], builder)).2) := rfl

theorem pushAll_nil (builder : RunBuilder) : builder.pushAll [] = ([], builder) := rfl

theorem pushAll_cons (builder : RunBuilder) (byte : UInt8) (rest : List UInt8) :
    builder.pushAll (byte :: rest) =
      ((builder.push byte).1.toList ++ ((builder.push byte).2.pushAll rest).1,
        ((builder.push byte).2.pushAll rest).2) := by
  rw [pushAll_eq, pushAll_eq, List.foldl_cons]
  rcases completes : push builder byte with ⟨_ | run, next⟩
  · simp [collect, completes]
  · simp only [collect, completes]
    rw [collect_fold rest [run]]
    simp

theorem pushAll_append (builder : RunBuilder) (first second : List UInt8) :
    builder.pushAll (first ++ second) =
      ((builder.pushAll first).1 ++ ((builder.pushAll first).2.pushAll second).1,
        ((builder.pushAll first).2.pushAll second).2) := by
  induction first generalizing builder with
  | nil => simp [pushAll_nil]
  | cons byte rest ih => simp [pushAll_cons, ih]

end RunBuilder

namespace Draft

theorem push_append (draft : Draft) (first second : List UInt8) :
    draft.push (first ++ second) = (draft.push first).push second := by
  simp [push, RunBuilder.pushAll_append, Series.takeAll_append]

theorem pushFields_append (draft : Draft) (first second : List UInt8) :
    draft.pushFields (first ++ second) =
      draft.pushFields first ++ (draft.push first).pushFields second := by
  simp [push, pushFields, RunBuilder.pushAll_append, Series.takeAllFields_append]

end Draft

namespace Member

def writer (member : Member) : BitWriter := member.press.writer

def draft (member : Member) : Draft := ⟨member.press.series, member.runs⟩

theorem follows_onPress {operation : EStateM Fault Press Unit} {actions : List Action}
    {member : Member} {result : Press → Prop}
    (follows : Follows Press.writer operation member.press actions result (fun _ => True)) :
    Follows writer (onPress operation) member actions
      (fun after => result after.press ∧ after.runs = member.runs ∧
        after.bytesIn = member.bytesIn) (fun _ => True) := by
  apply Follows.mono (Follows.within follows rfl fun _ => rfl)
  · rintro _ ⟨press, holds, rfl⟩
    exact ⟨holds, rfl, rfl⟩
  · exact fun _ _ => trivial

theorem follows_push (byte : UInt8) (member : Member) :
    Follows writer (push byte) member ((member.draft.pushFields [byte]).map .put)
      (fun after => after.draft = member.draft.push [byte] ∧
        after.bytesIn = member.bytesIn + 1) (fun _ => True) := by
  obtain ⟨press, runs, bytesIn⟩ := member
  have one : runs.pushAll [byte] = ((runs.push byte).1.toList, (runs.push byte).2) := by
    simp [RunBuilder.pushAll_cons, RunBuilder.pushAll_nil]
  simp only [draft, Draft.pushFields, Draft.push, one]
  rcases completes : runs.push byte with ⟨_ | run, next⟩
  · exact .idle ⟨press, next, bytesIn + 1⟩ (by simp only [push, completes]) rfl ⟨rfl, rfl⟩
  · have follows := Press.follows_add run press
    simp only [Option.toList_some, Series.takeAllFields, List.append_nil]
    refine follows.around rfl (fun after success taken => ?_) fun fault after failed _ => ?_
    · refine ⟨⟨after, next, bytesIn + 1⟩, by simp only [push, completes, success], rfl, ?_, rfl⟩
      rw [taken]
      rfl
    · exact ⟨⟨after, next, bytesIn⟩, by simp only [push, completes, failed], rfl, trivial⟩

theorem follows_pushAll (bytes : List UInt8) (member : Member) :
    Follows writer (pushAll bytes) member ((member.draft.pushFields bytes).map .put)
      (fun after => after.draft = member.draft.push bytes ∧
        after.bytesIn = member.bytesIn + bytes.length) (fun _ => True) := by
  induction bytes generalizing member with
  | nil => exact .idle member rfl rfl ⟨rfl, rfl⟩
  | cons byte rest ih =>
    rw [← List.singleton_append, Draft.pushFields_append, Draft.push_append, List.map_append]
    have next (middle : Member)
        (taken : middle.draft = member.draft.push [byte] ∧ middle.bytesIn = member.bytesIn + 1) :
        Follows writer (pushAll rest) middle
          (((member.draft.push [byte]).pushFields rest).map .put)
          (fun after => after.draft = (member.draft.push [byte]).push rest ∧
            after.bytesIn = member.bytesIn + ([byte] ++ rest).length) (fun _ => True) := by
      rw [← taken.1]
      refine (ih middle).mono (fun after kept => ⟨kept.1, ?_⟩) fun _ _ => trivial
      rw [kept.2, taken.2, List.length_append, List.length_singleton]
      omega
    exact (follows_push byte member).chain next
      (fun _ success => by simp only [pushAll, List.singleton_append, success])
      (fun _ _ failed => by simp only [pushAll, List.singleton_append, failed])

theorem follows_endRun (member : Member) :
    Follows writer endRun member
      ((member.press.series.takeAllFields member.runs.growing.toList).map .put)
      (fun after => after.press.series = member.draft.ended ∧ after.bytesIn = member.bytesIn)
      (fun _ => True) := by
  obtain ⟨press, runs, bytesIn⟩ := member
  rcases growing : runs.growing with _ | run
  · refine .idle ⟨press, {}, bytesIn⟩ ?_ rfl ⟨?_, rfl⟩
    · simp [endRun, bind, EStateM.bind, get, getThe, MonadStateOf.get, EStateM.get, modify,
        modifyGet, MonadStateOf.modifyGet, EStateM.modifyGet, growing, pure, EStateM.pure]
    · simp [draft, Draft.ended, growing, Series.takeAll]
  · have added : Follows writer (onPress (Press.add run)) ⟨press, {}, bytesIn⟩ _ _ _ :=
      follows_onPress (Press.follows_add run press)
    simp only [Option.toList_some, Series.takeAllFields, List.append_nil]
    refine Follows.onto ?_ ?_ (added.mono ?_ fun _ _ => trivial)
    · simp [endRun, bind, EStateM.bind, get, getThe, MonadStateOf.get, EStateM.get, modify,
        modifyGet, MonadStateOf.modifyGet, EStateM.modifyGet, growing]
    · rfl
    · rintro after ⟨taken, _, kept⟩
      refine ⟨?_, kept⟩
      rw [taken]
      simp [draft, Draft.ended, growing, Series.takeAll]

/-- The actions that end a member. -/
def endActions (draft : Draft) : List Action := draft.endFields.map .put ++ [.finish, .flush]

theorem follows_finish (member : Member) :
    Follows writer finish member (endActions member.draft)
      (fun after => after.press.series = member.draft.ended.closeBlock ∧
        after.bytesIn = member.bytesIn) (fun _ => True) := by
  have wroteBlock (middle : Member)
      (done : middle.press.series = member.draft.ended ∧ middle.bytesIn = member.bytesIn) :
      Follows writer (onPress Press.writeBlock) middle (member.draft.ended.blockFields.map .put)
        (fun after => after.press.series = member.draft.ended.closeBlock ∧
          after.bytesIn = member.bytesIn) (fun _ => True) := by
    have follows := follows_onPress (Press.follows_writeBlock middle.press)
    rw [done.1] at follows
    exact follows.mono (fun _ holds => ⟨holds.1, holds.2.2.trans done.2⟩) fun _ _ => trivial
  have wroteTrailer (middle : Member)
      (done : middle.press.series = member.draft.ended.closeBlock ∧
        middle.bytesIn = member.bytesIn) :
      Follows writer (onPress Press.writeTrailer) middle
        ((Mark.trailer.map Field.byte ++
          Field.word member.draft.ended.closeBlock.combined).map .put ++ [.finish])
        (fun after => after.press.series = member.draft.ended.closeBlock ∧
          after.bytesIn = member.bytesIn) (fun _ => True) := by
    have follows := follows_onPress (Press.follows_writeTrailer middle.press)
    rw [done.1] at follows
    exact follows.mono (fun _ holds => ⟨holds.1, holds.2.2.trans done.2⟩) fun _ _ => trivial
  have flushed (middle : Member)
      (done : middle.press.series = member.draft.ended.closeBlock ∧
        middle.bytesIn = member.bytesIn) :
      Follows writer (onPress (Press.onChannel (Channel.onWriter BitWriter.flush))) middle [.flush]
        (fun after => after.press.series = member.draft.ended.closeBlock ∧
          after.bytesIn = member.bytesIn) (fun _ => True) := by
    have follows := follows_onPress (Press.follows_onChannel
      (Channel.follows_onWriter .flush middle.press.channel))
    rw [done.1] at follows
    exact follows.mono (fun _ holds => ⟨holds.1, holds.2.2.trans done.2⟩) fun _ _ => trivial
  have follows := (follows_endRun member).seq fun middle done =>
    (wroteBlock middle done).seq fun middle done => (wroteTrailer middle done).seq flushed
  have actions : endActions member.draft =
      (member.press.series.takeAllFields member.runs.growing.toList).map Action.put ++
        (member.draft.ended.blockFields.map .put ++
          ((Mark.trailer.map Field.byte ++
            Field.word member.draft.ended.closeBlock.combined).map .put ++ [.finish] ++
              [.flush])) := by
    simp [endActions, Draft.endFields, Series.closingFields, draft]
  rw [actions]
  exact follows

end Member

end BlockSort

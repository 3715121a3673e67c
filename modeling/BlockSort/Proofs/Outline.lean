import BlockSort.Encoder
import BlockSort.Proofs.Conduct

/-!
An encoder without its channel. Every operation of an encoder is a plan for the bit writer and a
step of the outline, both of which the outline alone decides.
-/
namespace BlockSort

structure Outline where
  level : Level
  phase : Phase := .fresh
  totals : Totals := {}

namespace Outline

/-- The open member, or the one that would be opened. -/
def draft (outline : Outline) : Draft :=
  match outline.phase with
  | .opened series runs => ⟨series, runs⟩
  | _ => .ofLevel outline.level

/-- What a member starts with. -/
def headerFields (level : Level) : List Field :=
  Mark.member.map .byte ++ (Series.ofLevel level).headerFields

/-- The header, unless a member is open. -/
def beginFields (outline : Outline) : List Field :=
  match outline.phase with
  | .opened _ _ => []
  | _ => headerFields outline.level

/-- The outline when a member is open. -/
def begun (outline : Outline) : Outline :=
  match outline.phase with
  | .opened _ _ => outline
  | _ =>
    { outline with
      phase := .opened (.ofLevel outline.level) {}
      totals.members := outline.totals.members + 1 }

def write (outline : Outline) (bytes : List UInt8) : Outline :=
  if bytes.isEmpty then outline
  else
    { outline.begun with
      phase := .opened (outline.draft.push bytes).series (outline.draft.push bytes).runs
      totals.bytesIn := outline.totals.bytesIn + bytes.length }

def writeActions (outline : Outline) (bytes : List UInt8) : List Action :=
  if bytes.isEmpty then []
  else (outline.beginFields ++ outline.draft.pushFields bytes).map .put

/-- The outline when a member was ended, which was opened for this if none was open. -/
def ended (outline : Outline) : Outline :=
  let series := outline.draft.ended.closeBlock
  { outline.begun with
    phase := .closed
    totals.blocks := outline.totals.blocks + series.written
    totals.perturbed := outline.totals.perturbed + series.perturbed }

def endActions (outline : Outline) : List Action :=
  outline.beginFields.map .put ++ Member.endActions outline.draft

/-- Whether there is a member to end: one is open, or none was ever begun. -/
def mustEnd (outline : Outline) : Bool :=
  match outline.phase with
  | .opened _ _ => true
  | .fresh => outline.totals.members = 0
  | _ => false

def finish (outline : Outline) : Outline :=
  if outline.mustEnd then outline.ended
  else
    match outline.phase with
    | .fresh => { outline with phase := .closed }
    | _ => outline

def finishActions (outline : Outline) : List Action :=
  if outline.mustEnd then outline.endActions else []

/-- Whether a member is open. -/
def isOpen (outline : Outline) : Bool :=
  match outline.phase with
  | .opened _ _ => true
  | _ => false

def reset (outline : Outline) : Outline :=
  { (if outline.isOpen then outline.ended else outline) with phase := .fresh }

def resetActions (outline : Outline) : List Action :=
  if outline.isOpen then outline.endActions else []

end Outline

namespace Encoder

def writer (encoder : Encoder) : BitWriter := encoder.channel.writer

def outline (encoder : Encoder) : Outline := ⟨encoder.level, encoder.phase, encoder.totals⟩

theorem refuse_of_broken {encoder : Encoder} (broken : encoder.isBroken = true) :
    refuseIfBroken encoder = .error .broken encoder := by
  simp [refuseIfBroken, broken]

theorem refuse_of_usable {encoder : Encoder} (usable : encoder.isBroken = false) :
    refuseIfBroken encoder = .ok () encoder := by
  simp [refuseIfBroken, usable]

/-- The plan of an operation that stops the encoder when it fails. -/
theorem follows_orBreak {operation : EStateM Fault Encoder Unit} {encoder : Encoder}
    {actions : List Action} {result failure : Encoder → Prop}
    (follows : Follows writer operation encoder actions result failure) :
    Follows writer (orBreak operation) encoder actions result
      (fun after => after.isBroken = true) :=
  follows.around rfl
    (fun after success holds => ⟨after, by simp only [orBreak, success], rfl, holds⟩)
    (fun _ after failed _ => ⟨after.leave .broken, by simp only [orBreak, failed], rfl, rfl⟩)

theorem follows_openMember {encoder : Encoder} (closed : encoder.outline.isOpen = false) :
    Follows writer openMember encoder (encoder.outline.beginFields.map .put)
      (fun after => after.outline = encoder.outline.begun) (fun _ => True) := by
  obtain ⟨level, channel, phase, totals⟩ := encoder
  have begins : (Outline.mk level phase totals).beginFields = Outline.headerFields level := by
    cases phase with
    | opened series runs => simp [Outline.isOpen, outline] at closed
    | _ => rfl
  have opens : (Outline.mk level phase totals).begun =
      ⟨level, .opened (.ofLevel level) {}, { totals with members := totals.members + 1 }⟩ := by
    cases phase with
    | opened series runs => simp [Outline.isOpen, outline] at closed
    | _ => rfl
  simp only [outline, begins, opens]
  have marked : Follows Press.writer _ ⟨.ofLevel level, channel⟩ _ _ _ :=
    Press.follows_onChannel (Channel.follows_emit [.fields (Mark.member.map .byte)] channel)
  have headed (middle : Press) (kept : middle.series = Series.ofLevel level) :
      Follows Press.writer Press.openMember middle ((Series.ofLevel level).headerFields.map .put)
        (fun after => after.series = Series.ofLevel level) (fun _ => True) := by
    have follows := Press.follows_openMember middle
    rw [kept] at follows
    exact follows
  have follows := marked.seq headed
  have actions : (Outline.headerFields level).map Action.put =
      [Emission.fields (Mark.member.map .byte)].flatMap Emission.actions ++
        (Series.ofLevel level).headerFields.map .put := by
    simp [Outline.headerFields, Emission.actions]
  rw [actions]
  refine follows.around rfl (fun after success opened => ?_) fun fault after failed _ => ?_
  · simp only [openMember, success]
    exact ⟨_, rfl, rfl, by rw [opened]⟩
  · simp only [openMember, failed]
    exact ⟨_, rfl, rfl, trivial⟩

theorem follows_openIfNone (encoder : Encoder) :
    Follows writer openIfNone encoder (encoder.outline.beginFields.map .put)
      (fun after => after.outline = encoder.outline.begun) (fun _ => True) := by
  by_cases opened : encoder.outline.isOpen = true
  · obtain ⟨level, channel, phase, totals⟩ := encoder
    cases phase with
    | opened series runs => exact .idle _ rfl rfl rfl
    | _ => simp [Outline.isOpen, outline] at opened
  · have closed : encoder.outline.isOpen = false := by simpa using opened
    refine Follows.onto ?_ rfl (follows_openMember closed)
    obtain ⟨level, channel, phase, totals⟩ := encoder
    cases phase with
    | opened series runs => simp [Outline.isOpen, outline] at closed
    | _ => rfl

theorem follows_onMember {operation : EStateM Fault Member Unit} {encoder : Encoder}
    {series : Series} {runs : RunBuilder} (opened : encoder.phase = .opened series runs)
    {actions : List Action} {result failure : Member → Prop}
    (follows : Follows Member.writer operation
      ⟨⟨series, encoder.channel⟩, runs, encoder.totals.bytesIn⟩ actions result failure) :
    Follows writer (onMember operation) encoder actions
      (fun after => ∃ member, result member ∧
        after.outline = ⟨encoder.level, .opened member.press.series member.runs,
          { encoder.totals with bytesIn := member.bytesIn }⟩) (fun _ => True) := by
  obtain ⟨level, channel, phase, totals⟩ := encoder
  subst opened
  refine follows.around rfl (fun member success holds => ?_) fun fault member failed _ => ?_
  · simp only [onMember, success]
    exact ⟨_, rfl, rfl, member, holds, rfl⟩
  · simp only [onMember, failed]
    exact ⟨_, rfl, rfl, trivial⟩

theorem begun_phase (outline : Outline) :
    outline.begun.phase = .opened outline.draft.series outline.draft.runs := by
  obtain ⟨level, phase, totals⟩ := outline
  cases phase <;> rfl

theorem begun_bytesIn (outline : Outline) :
    outline.begun.totals.bytesIn = outline.totals.bytesIn := by
  obtain ⟨level, phase, totals⟩ := outline
  cases phase <;> rfl

theorem begun_blocks (outline : Outline) :
    outline.begun.totals.blocks = outline.totals.blocks ∧
      outline.begun.totals.perturbed = outline.totals.perturbed := by
  obtain ⟨level, phase, totals⟩ := outline
  cases phase <;> exact ⟨rfl, rfl⟩

theorem follows_write {encoder : Encoder} (usable : encoder.isBroken = false)
    (bytes : List UInt8) :
    Follows writer (write bytes) encoder (encoder.outline.writeActions bytes)
      (fun after => after.outline = encoder.outline.write bytes)
      (fun after => after.isBroken = true) := by
  rw [Outline.writeActions, Outline.write]
  by_cases empty : bytes.isEmpty
  · simp only [empty, if_true]
    refine .idle encoder ?_ rfl rfl
    simp [write, bind, EStateM.bind, refuse_of_usable usable, empty, pure, EStateM.pure]
  · simp only [empty, Bool.false_eq_true, if_false, List.map_append]
    have pushed (middle : Encoder) (begun : middle.outline = encoder.outline.begun) :
        Follows writer (onMember (Member.pushAll bytes)) middle
          ((encoder.outline.draft.pushFields bytes).map .put)
          (fun after => after.outline =
            { encoder.outline.begun with
              phase := .opened (encoder.outline.draft.push bytes).series
                (encoder.outline.draft.push bytes).runs
              totals.bytesIn := encoder.outline.totals.bytesIn + bytes.length })
          (fun _ => True) := by
      have opened : middle.phase =
          .opened encoder.outline.draft.series encoder.outline.draft.runs := by
        rw [← begun_phase, ← begun]
        rfl
      refine (follows_onMember opened (Member.follows_pushAll bytes _)).mono ?_ fun _ _ => trivial
      rintro after ⟨member, ⟨drafted, counted⟩, same⟩
      have series : member.press.series = (encoder.outline.draft.push bytes).series :=
        congrArg Draft.series drafted
      have runs : member.runs = (encoder.outline.draft.push bytes).runs :=
        congrArg Draft.runs drafted
      have bytesIn : middle.totals.bytesIn = encoder.outline.totals.bytesIn := by
        rw [← begun_bytesIn, ← begun]
        rfl
      rw [same, series, runs, counted, bytesIn, ← begun]
      rfl
    refine Follows.onto ?_ rfl (follows_orBreak ((follows_openIfNone encoder).seq pushed))
    simp [write, bind, EStateM.bind, refuse_of_usable usable, empty]

theorem follows_endMember {encoder : Encoder} {outline : Outline}
    (begun : encoder.outline = outline.begun) :
    Follows writer endMember encoder (Member.endActions outline.draft)
      (fun after => after.outline = outline.ended) (fun _ => True) := by
  have opened : encoder.phase = .opened outline.draft.series outline.draft.runs := by
    rw [← begun_phase, ← begun]
    rfl
  have noted (middle : Encoder)
      (done : ∃ member : Member, (member.press.series = outline.draft.ended.closeBlock ∧
          member.bytesIn = encoder.totals.bytesIn) ∧
        middle.outline = ⟨encoder.level, .opened member.press.series member.runs,
          { encoder.totals with bytesIn := member.bytesIn }⟩) :
      Follows writer (modify fun encoder =>
          let encoder := encoder.leave .closed
          { encoder with
            channel := encoder.channel.note
              (.memberFinished encoder.totals.members encoder.bytesIn encoder.bytesOut) })
        middle [] (fun after => after.outline = outline.ended) (fun _ => True) := by
    obtain ⟨member, ⟨closed, counted⟩, same⟩ := done
    refine .idle _ rfl rfl ?_
    have phase : middle.phase = .opened member.press.series member.runs :=
      congrArg Outline.phase same
    have level : middle.level = encoder.level := congrArg Outline.level same
    have totals : middle.totals = { encoder.totals with bytesIn := member.bytesIn } :=
      congrArg Outline.totals same
    rw [counted] at totals
    have blocks := begun_blocks outline
    rw [← begun] at blocks
    change Outline.mk middle.level .closed
      { middle.totals with blocks := middle.blockCount, perturbed := middle.perturbedCount } = _
    simp only [blockCount, perturbedCount, phase, level, totals, closed, Outline.ended, ← begun]
    simp only [Encoder.outline] at blocks
    rw [blocks.1, blocks.2]
    rfl
  have follows := (follows_onMember opened (Member.follows_finish _)).seq noted
  rw [List.append_nil] at follows
  exact follows

theorem follows_finish {encoder : Encoder} (usable : encoder.isBroken = false) :
    Follows writer finish encoder encoder.outline.finishActions
      (fun after => after.outline = encoder.outline.finish)
      (fun after => after.isBroken = true) := by
  obtain ⟨level, channel, phase, totals⟩ := encoder
  have ended (middle : Encoder) (begun : middle.outline = (Outline.mk level phase totals).begun) :=
    follows_endMember begun
  cases phase with
  | broken => simp [isBroken] at usable
  | closed =>
    exact .idle ⟨level, channel, .closed, totals⟩ rfl rfl rfl
  | opened series runs =>
    have follows := follows_orBreak (ended ⟨level, channel, .opened series runs, totals⟩ rfl)
    refine Follows.onto ?_ rfl follows
    rfl
  | fresh =>
    by_cases first : totals.members = 0
    · have shut : (Encoder.mk level channel .fresh totals).outline.isOpen = false := rfl
      have opened := follows_openMember shut
      have follows := follows_orBreak (opened.seq ended)
      have must : (Outline.mk level .fresh totals).mustEnd = true := by
        simp [Outline.mustEnd, first]
      simp only [outline, Outline.finishActions, Outline.finish, must, if_true]
      refine Follows.onto ?_ rfl follows
      simp [finish, bind, EStateM.bind, refuse_of_usable usable, orBreak, get, getThe,
        MonadStateOf.get, EStateM.get, first]
    · have idle : (Outline.mk level .fresh totals).mustEnd = false := by
        simp [Outline.mustEnd, first]
      simp only [outline, Outline.finishActions, Outline.finish, idle, Bool.false_eq_true, if_false]
      refine .idle ⟨level, channel, .closed, totals⟩ ?_ rfl rfl
      simp [finish, bind, EStateM.bind, refuse_of_usable usable, orBreak, get, getThe,
        MonadStateOf.get, EStateM.get, first, modify, modifyGet, MonadStateOf.modifyGet,
        EStateM.modifyGet]

theorem follows_reset {encoder : Encoder} (usable : encoder.isBroken = false) :
    Follows writer reset encoder encoder.outline.resetActions
      (fun after => after.outline = encoder.outline.reset)
      (fun after => after.isBroken = true) := by
  obtain ⟨level, channel, phase, totals⟩ := encoder
  have renewed (outline : Outline) (middle : Encoder) (same : middle.outline = outline) :
      Follows writer (modify ({ · with phase := .fresh })) middle []
        (fun after => after.outline = { outline with phase := .fresh })
        (fun after => after.isBroken = true) :=
    .idle { middle with phase := .fresh } rfl rfl (by rw [← same]; rfl)
  cases phase with
  | broken => simp [isBroken] at usable
  | closed => exact .idle ⟨level, channel, .fresh, totals⟩ rfl rfl rfl
  | fresh => exact .idle ⟨level, channel, .fresh, totals⟩ rfl rfl rfl
  | opened series runs =>
    have follows := (follows_finish usable).seq (renewed _)
    rw [List.append_nil] at follows
    refine Follows.onto ?_ rfl follows
    rfl

theorem follows_flush {encoder : Encoder} (usable : encoder.isBroken = false) :
    Follows writer flush encoder [.flush] (fun after => after.outline = encoder.outline)
      (fun after => after.isBroken = true) := by
  have flushed : Follows writer (onWriter BitWriter.flush) encoder [.flush]
      (fun after => after.outline = encoder.outline) (fun _ => True) := by
    refine ((Channel.follows_onWriter .flush encoder.channel).within rfl fun _ => rfl).mono ?_
      fun _ _ => trivial
    rintro _ ⟨channel, _, rfl⟩
    rfl
  refine Follows.onto ?_ rfl (follows_orBreak flushed)
  simp [flush, bind, EStateM.bind, refuse_of_usable usable]

theorem follows_close {encoder : Encoder} (usable : encoder.isBroken = false) :
    Follows writer close encoder (encoder.outline.finishActions ++ [.finish])
      (fun after => after.outline = encoder.outline.finish) (fun _ => True) := by
  have padded (middle : Encoder) (finished : middle.outline = encoder.outline.finish) :
      Follows writer (onWriter BitWriter.finish) middle [.finish]
        (fun after => after.outline = encoder.outline.finish) (fun _ => True) := by
    refine ((Channel.follows_onWriter .finish middle.channel).within rfl fun _ => rfl).mono ?_
      fun _ _ => trivial
    rintro _ ⟨channel, _, rfl⟩
    exact finished
  exact ((follows_finish usable).mono (fun _ same => same) fun _ _ => trivial).seq padded

end Encoder

end BlockSort

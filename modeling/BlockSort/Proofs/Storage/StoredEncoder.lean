import BlockSort.Proofs.FailStop
import BlockSort.Proofs.Progress
import BlockSort.Proofs.Storage.Layout

/-!
The encoder with its blocks in storage does what the encoder does without. No expectation is ever
broken, and every call of a framer writes its values as they are.
-/
namespace BlockSort

theorem EStateM.get_bind {ε σ α : Type} (next : σ → EStateM ε σ α) (state : σ) :
    (get >>= next : EStateM ε σ α) state = next state state := rfl

namespace Guarded

variable {σ τ : Type}

/-- A guarded operation ends as a plain one: it has a result, with the same fault or none, and the
states are related. -/
def Ends (after failed : σ → τ → Prop) (outcome : Option (EStateM.Result Fault σ Unit))
    (result : EStateM.Result Fault τ Unit) : Prop :=
  match result with
  | .ok _ model => ∃ state, outcome = some (.ok () state) ∧ after state model
  | .error fault model => ∃ state, outcome = some (.error fault state) ∧ failed state model

/-- A guarded operation does what a plain one does, from related states to related states. -/
def Refines (before after failed : σ → τ → Prop) (operation : Guarded σ Unit)
    (plain : EStateM Fault τ Unit) : Prop :=
  ∀ state model, before state model → Ends after failed (operation state) (plain model)

variable {before middle after failed : σ → τ → Prop} {operation next : Guarded σ Unit}
  {plain further : EStateM Fault τ Unit}

@[simp]
theorem get_bind {α : Type} (next : σ → Guarded σ α) (state : σ) :
    (get >>= next : Guarded σ α) state = next state state := rfl

theorem Refines.mono {result weaker : σ → τ → Prop}
    (refines : Refines before after failed operation plain)
    (weaken : ∀ state model, after state model → result state model)
    (relax : ∀ state model, failed state model → weaker state model) :
    Refines before result weaker operation plain := by
  intro state model related
  have ends := refines state model related
  cases done : plain model with
  | ok _ final =>
    rw [done] at ends
    obtain ⟨reached, success, holds⟩ := ends
    exact ⟨reached, success, weaken reached final holds⟩
  | error fault final =>
    rw [done] at ends
    obtain ⟨reached, failure, holds⟩ := ends
    exact ⟨reached, failure, relax reached final holds⟩

theorem Refines.seq (first : Refines before middle failed operation plain)
    (second : Refines middle after failed next further) :
    Refines before after failed (operation >>= fun _ => next) (plain >>= fun _ => further) := by
  intro state model related
  have start := first state model related
  simp only [bind, EStateM.bind]
  cases done : plain model with
  | ok _ between =>
    rw [done] at start
    obtain ⟨reached, success, holds⟩ := start
    rw [success]
    exact second reached between holds
  | error fault between =>
    rw [done] at start
    obtain ⟨reached, failure, holds⟩ := start
    rw [failure]
    exact ⟨reached, rfl, holds⟩

end Guarded

namespace StoredMember

open Guarded

/-- A member in storage shows one without: its framer shows the blocks, and its calls so far were
exact. -/
structure Shows (stored : StoredMember) (member : Member) : Prop where
  framer : stored.framer.Shows member.press.series
  channel : stored.channel = member.press.channel
  runs : stored.runs = member.runs
  bytesIn : stored.bytesIn = member.bytesIn
  exact : ∀ call ∈ stored.calls, call.Exact

theorem call_refines (request : Framer.Request) :
    Refines Shows Shows Shows (call request) (Member.onPress (Framer.pressed request)) := by
  rintro ⟨framer, channel, runs, bytesIn, calls⟩ ⟨⟨series, _⟩, _, _⟩ ⟨shows, rfl, rfl, rfl, exact⟩
  have served := shows.serve request channel
  have exact : ∀ call ∈ ⟨request, framer, channel⟩ :: calls, Framer.Call.Exact call :=
    List.forall_mem_cons.mpr ⟨shows.call_exact request channel, exact⟩
  simp only [call, Member.onPress, BlockSort.within]
  cases pressed : Framer.pressed request ⟨series, channel⟩ with
  | ok _ press | error _ press =>
    rw [pressed] at served
    obtain ⟨after, result, shown⟩ := served
    rw [result]
    exact ⟨_, rfl, shown, rfl, rfl, rfl, exact⟩

/-- The same with the runs of both members changed alike. -/
theorem call_refines_with (request : Framer.Request) {stored : StoredMember} {member : Member}
    (shows : stored.Shows member) (runs : RunBuilder) :
    Ends Shows Shows (call request { stored with runs })
      (Member.onPress (Framer.pressed request) { member with runs }) :=
  call_refines request _ _
    ⟨shows.framer, shows.channel, rfl, shows.bytesIn, shows.exact⟩

theorem push_refines (byte : UInt8) :
    Refines Shows Shows Shows (push byte) (Member.push byte) := by
  intro stored member shows
  have same := shows.runs
  have count := shows.bytesIn
  rw [Member.push]
  simp only [push, bind, get, getThe, MonadStateOf.get, modify, modifyGet, MonadStateOf.modifyGet,
    same]
  generalize member.runs.push byte = completed
  obtain ⟨_ | run, runs⟩ := completed
  · exact ⟨_, rfl, shows.framer, shows.channel, rfl, congrArg (· + 1) count, shows.exact⟩
  · have called := call_refines_with (.run run) shows runs
    simp only [Member.onPress, BlockSort.within, Framer.pressed] at called
    cases added : Press.add run member.press with
    | error fault press =>
      rw [added] at called
      obtain ⟨after, failed, shown⟩ := called
      simp only [failed, added]
      exact ⟨after, rfl, shown⟩
    | ok _ press =>
      rw [added] at called
      obtain ⟨after, success, shown⟩ := called
      simp only [success, added]
      exact ⟨_, rfl, shown.framer, shown.channel, shown.runs, congrArg (· + 1) shown.bytesIn,
        shown.exact⟩

theorem pushAll_refines (bytes : List UInt8) :
    Refines Shows Shows Shows (pushAll bytes) (Member.pushAll bytes) := by
  induction bytes with
  | nil => exact fun stored member shows => ⟨stored, rfl, shows⟩
  | cons byte rest ih =>
    have first : Member.pushAll (byte :: rest) =
        (Member.push byte >>= fun _ => Member.pushAll rest) := by
      funext member
      rw [Member.pushAll]
      simp only [bind, EStateM.bind]
      cases Member.push byte member with
      | ok _ member | error _ member => rfl
    rw [first]
    exact (push_refines byte).seq ih

theorem endRun_refines : Refines Shows Shows Shows endRun Member.endRun := by
  intro stored member shows
  have same := shows.runs
  simp only [endRun, Member.endRun, bind, EStateM.bind, get, getThe, MonadStateOf.get, EStateM.get,
    modify, modifyGet, MonadStateOf.modifyGet, EStateM.modifyGet, same]
  cases member.runs.growing with
  | none => exact ⟨_, rfl, shows.framer, shows.channel, rfl, shows.bytesIn, shows.exact⟩
  | some run => exact call_refines_with (.run run) shows {}

theorem flush_refines : Refines Shows Shows Shows
    (Guarded.within (fun member => (member.channel, ({ member with channel := · })))
      (Channel.onWriter BitWriter.flush))
    (Member.onPress (Press.onChannel (Channel.onWriter BitWriter.flush))) := by
  rintro stored ⟨⟨series, channel⟩, runs, bytesIn⟩ shows
  simp only [Guarded.within, Member.onPress, Press.onChannel, BlockSort.within, shows.channel]
  cases Channel.onWriter BitWriter.flush channel with
  | ok _ after | error _ after =>
    exact ⟨_, rfl, shows.framer, rfl, shows.runs, shows.bytesIn, shows.exact⟩

theorem finish_refines : Refines Shows Shows Shows finish Member.finish :=
  endRun_refines.seq
    ((call_refines .endBlock).seq ((call_refines .endStream).seq flush_refines))

end StoredMember

namespace StoredEncoder

open Guarded

/-- An encoder in storage has the settings, the channel and the counts of one without, and its calls
of framers so far were exact. -/
structure Agrees (stored : StoredEncoder) (encoder : Encoder) : Prop where
  level : stored.level = encoder.level
  channel : stored.channel = encoder.channel
  bytesIn : stored.totals.bytesIn = encoder.totals.bytesIn
  members : stored.totals.members = encoder.totals.members
  blocks : stored.blockCount = encoder.blockCount
  perturbed : stored.perturbedCount = encoder.perturbedCount
  exact : ∀ call ∈ stored.calls, call.Exact

/-- The phase of a stage. There is a framer as long as a member is open; whether there is one after
a failure does not matter. -/
inductive Stands : Stage → Option Framer → RunBuilder → Phase → Prop
  | pending (runs : RunBuilder) : Stands .pending none runs .fresh
  | opened {framer : Framer} {series : Series} (runs : RunBuilder) (shows : framer.Shows series) :
      Stands .opened (some framer) runs (.opened series runs)
  | finished (runs : RunBuilder) : Stands .finished none runs .closed
  | failed (framer : Option Framer) (runs : RunBuilder) : Stands .failed framer runs .broken

/-- An encoder in storage shows one without. -/
structure Shows (stored : StoredEncoder) (encoder : Encoder) : Prop where
  agrees : stored.Agrees encoder
  stands : Stands stored.stage stored.framer stored.runs encoder.phase

/-- An encoder that shows another one, at a given stage. -/
def ShowsAt (stage : Stage) (stored : StoredEncoder) (encoder : Encoder) : Prop :=
  stored.Shows encoder ∧ stored.stage = stage

variable {stored : StoredEncoder} {encoder : Encoder}

theorem ofSink_shows (level : Level) (sink : Sink) :
    (ofSink level sink).Shows (.ofSink level sink) :=
  ⟨⟨rfl, rfl, rfl, rfl, rfl, rfl, fun _ member => nomatch member⟩, .pending {}⟩

theorem Shows.isBroken (shows : stored.Shows encoder) :
    encoder.isBroken = decide (stored.stage = .failed) := by
  obtain ⟨-, stands⟩ := shows
  obtain ⟨level, channel, framer, runs, stage, totals, calls⟩ := stored
  obtain ⟨level', channel', phase, totals'⟩ := encoder
  cases stands <;> rfl

/-- An operation that stops an encoder when it fails need only leave it with the right counts. -/
theorem orFail_refines {before after : StoredEncoder → Encoder → Prop}
    {operation : Guarded StoredEncoder Unit} {plain : EStateM Fault Encoder Unit}
    (refines : Refines before after Agrees operation plain) :
    Refines before after Shows (orFail operation) (Encoder.orBreak plain) := by
  intro stored encoder related
  have ends := refines stored encoder related
  rw [orFail, Encoder.orBreak]
  cases done : plain encoder with
  | ok _ result =>
    rw [done] at ends
    obtain ⟨reached, success, holds⟩ := ends
    rw [success]
    exact ⟨reached, rfl, holds⟩
  | error fault result =>
    rw [done] at ends
    obtain ⟨reached, failure, agrees⟩ := ends
    rw [failure]
    exact ⟨_, rfl, ⟨agrees.level, agrees.channel, agrees.bytesIn, agrees.members, agrees.blocks,
      agrees.perturbed, agrees.exact⟩, .failed _ _⟩

theorem guarded_refines {after : StoredEncoder → Encoder → Prop}
    {operation : Guarded StoredEncoder Unit} {plain : EStateM Fault Encoder Unit}
    (refines : ∀ stage, stage ≠ .failed → Refines (ShowsAt stage) after Shows operation plain) :
    Refines Shows after Shows (refuseIfFailed >>= fun _ => operation)
      (Encoder.refuseIfBroken >>= fun _ => plain) := by
  intro stored encoder shows
  have broken := shows.isBroken
  simp only [bind, EStateM.bind]
  by_cases failed : stored.stage = .failed
  · simp only [failed, decide_true] at broken
    simp only [refuseIfFailed, failed, if_true, Encoder.refuseIfBroken, broken]
    exact ⟨stored, rfl, shows⟩
  · simp only [failed, decide_false] at broken
    simp only [refuseIfFailed, failed, if_false, Encoder.refuseIfBroken, broken,
      Bool.false_eq_true]
    exact refines stored.stage failed stored encoder ⟨shows, rfl⟩

theorem onWriter_refines (operation : EStateM Fault BitWriter Unit) :
    Refines Shows Shows Agrees (onChannel (Channel.onWriter operation))
      (Encoder.onWriter operation) := by
  rintro stored ⟨level, channel, phase, totals⟩ ⟨agrees, stands⟩
  have same := agrees.channel
  simp only [onChannel, Guarded.within, Encoder.onWriter, BlockSort.within, same]
  cases Channel.onWriter operation channel with
  | ok _ after =>
    exact ⟨_, rfl, ⟨agrees.level, rfl, agrees.bytesIn, agrees.members, agrees.blocks,
      agrees.perturbed, agrees.exact⟩, stands⟩
  | error fault after =>
    exact ⟨_, rfl, agrees.level, rfl, agrees.bytesIn, agrees.members, agrees.blocks,
      agrees.perturbed, agrees.exact⟩

/-- An open member has a framer, and its blocks are counted there. -/
theorem ShowsAt.opened (shows : ShowsAt .opened stored encoder) :
    ∃ framer series, stored.framer = some framer ∧ framer.Shows series ∧
      encoder.phase = .opened series stored.runs ∧
      stored.totals.blocks = encoder.totals.blocks ∧
      stored.totals.perturbed = encoder.totals.perturbed := by
  obtain ⟨level, channel, framer, runs, stage, totals, calls⟩ := stored
  obtain ⟨level', channel', phase, totals'⟩ := encoder
  obtain ⟨⟨agrees, stands⟩, rfl⟩ := shows
  cases stands with
  | @opened framer series _ shows =>
    have blocks : totals.blocks + framer.written = totals'.blocks + series.written := agrees.blocks
    have perturbed : totals.perturbed + framer.perturbed = totals'.perturbed + series.perturbed :=
      agrees.perturbed
    rw [shows.written, Nat.add_right_cancel_iff] at blocks
    rw [shows.perturbed, Nat.add_right_cancel_iff] at perturbed
    exact ⟨framer, series, rfl, shows, rfl, blocks, perturbed⟩

/-- Whatever an open member does, its encoder goes on to show that of the member without. -/
theorem Agrees.join (agrees : stored.Agrees encoder)
    (blocks : stored.totals.blocks = encoder.totals.blocks)
    (perturbed : stored.totals.perturbed = encoder.totals.perturbed)
    {member : StoredMember} {plain : Member} (shows : member.Shows plain) :
    Agrees ⟨stored.level, member.channel, some member.framer, member.runs, .opened,
        { stored.totals with bytesIn := member.bytesIn }, member.calls⟩
      ⟨encoder.level, plain.press.channel, .opened plain.press.series plain.runs,
        { encoder.totals with bytesIn := plain.bytesIn }⟩ :=
  ⟨agrees.level, shows.channel, shows.bytesIn, agrees.members,
    congrArg₂ (· + ·) blocks shows.framer.written,
    congrArg₂ (· + ·) perturbed shows.framer.perturbed, shows.exact⟩

/-- It is not missed that an open member has a framer. -/
theorem onMember_refines {operation : Guarded StoredMember Unit} {plain : EStateM Fault Member Unit}
    (refines : Refines StoredMember.Shows StoredMember.Shows StoredMember.Shows operation plain) :
    Refines (ShowsAt .opened) Shows Agrees (onMember operation) (Encoder.onMember plain) := by
  rintro ⟨level, channel, _, runs, _, totals, calls⟩ ⟨level', channel', _, totals'⟩ shows
  obtain ⟨framer, series, rfl, shown, rfl, blocks, perturbed⟩ := shows.opened
  obtain ⟨⟨agrees, -⟩, rfl⟩ := shows
  have ends := refines ⟨framer, channel, runs, totals.bytesIn, calls⟩
    ⟨⟨series, channel'⟩, runs, totals'.bytesIn⟩
    ⟨shown, agrees.channel, rfl, agrees.bytesIn, agrees.exact⟩
  simp only [onMember, Option.bind_eq_bind, Option.bind_some, Encoder.onMember]
  cases done : plain ⟨⟨series, channel'⟩, runs, totals'.bytesIn⟩ with
  | ok _ member =>
    rw [done] at ends
    obtain ⟨reached, success, holds⟩ := ends
    rw [success]
    have same := holds.runs
    exact ⟨_, rfl, agrees.join blocks perturbed holds, same ▸ .opened _ holds.framer⟩
  | error fault member =>
    rw [done] at ends
    obtain ⟨reached, failure, holds⟩ := ends
    rw [failure]
    exact ⟨_, rfl, agrees.join blocks perturbed holds⟩

theorem endMember_refines :
    Refines (ShowsAt .opened) (ShowsAt .finished) Agrees endMember Encoder.endMember := by
  rintro ⟨level, channel, _, runs, _, totals, calls⟩ ⟨level', channel', _, totals'⟩ shows
  obtain ⟨framer, series, rfl, shown, rfl, blocks, perturbed⟩ := shows.opened
  obtain ⟨⟨agrees, -⟩, rfl⟩ := shows
  have ends := StoredMember.finish_refines ⟨framer, channel, runs, totals.bytesIn, calls⟩
    ⟨⟨series, channel'⟩, runs, totals'.bytesIn⟩
    ⟨shown, agrees.channel, rfl, agrees.bytesIn, agrees.exact⟩
  simp only [endMember, Option.bind_some, Encoder.endMember, bind,
    EStateM.bind, Encoder.onMember]
  cases done : Member.finish ⟨⟨series, channel'⟩, runs, totals'.bytesIn⟩ with
  | ok _ member =>
    rw [done] at ends
    obtain ⟨reached, success, holds⟩ := ends
    have joined := agrees.join blocks perturbed holds
    rw [success]
    refine ⟨_, rfl, ⟨⟨joined.level, ?_, joined.bytesIn, joined.members, joined.blocks,
      joined.perturbed, joined.exact⟩, .finished _⟩, rfl⟩
    have noted : reached.channel.note (.memberFinished totals.members reached.bytesIn
          reached.channel.writer.completed) =
        member.press.channel.note (.memberFinished totals'.members member.bytesIn
          member.press.channel.writer.completed) := by
      have members : totals.members = totals'.members := agrees.members
      rw [holds.channel, holds.bytesIn, members]
    exact noted
  | error fault member =>
    rw [done] at ends
    obtain ⟨reached, failure, holds⟩ := ends
    have joined := agrees.join blocks perturbed holds
    rw [failure]
    exact ⟨_, rfl, joined.level, joined.channel, joined.bytesIn, joined.members, joined.blocks,
      joined.perturbed, joined.exact⟩

theorem ShowsAt.fresh (shows : ShowsAt .pending stored encoder) : encoder.phase = .fresh := by
  obtain ⟨level, channel, framer, runs, stage, totals, calls⟩ := stored
  obtain ⟨level', channel', phase, totals'⟩ := encoder
  obtain ⟨⟨-, stands⟩, rfl⟩ := shows
  cases stands with
  | pending => rfl

theorem ShowsAt.closed (shows : ShowsAt .finished stored encoder) : encoder.phase = .closed := by
  obtain ⟨level, channel, framer, runs, stage, totals, calls⟩ := stored
  obtain ⟨level', channel', phase, totals'⟩ := encoder
  obtain ⟨⟨-, stands⟩, rfl⟩ := shows
  cases stands with
  | finished => rfl

/-- Without an open member there is no framer, and all blocks are those of earlier members. -/
theorem ShowsAt.idle {stage : Stage} (shows : ShowsAt stage stored encoder)
    (closed : stage = .pending ∨ stage = .finished) :
    stored.framer = none ∧ encoder.blockCount = encoder.totals.blocks ∧
      encoder.perturbedCount = encoder.totals.perturbed := by
  obtain ⟨level, channel, framer, runs, stage, totals, calls⟩ := stored
  obtain ⟨level', channel', phase, totals'⟩ := encoder
  obtain ⟨⟨-, stands⟩, rfl⟩ := shows
  cases stands with
  | pending | finished => exact ⟨rfl, rfl, rfl⟩
  | opened | failed => rcases closed with same | same <;> cases same

theorem start_idle (level : Level) (channel : Channel) :
    (finalState (Press.openMember ⟨.ofLevel level, channel⟩)).series.written = 0 ∧
      (finalState (Press.openMember ⟨.ofLevel level, channel⟩)).series.perturbed = 0 := by
  have leads : Series.Leads .start _ (.ofLevel level)
      (finalState (Press.openMember ⟨.ofLevel level, channel⟩)).series :=
    Series.pressed_leads .start (.ofLevel level) channel
  generalize (finalState (Press.openMember ⟨.ofLevel level, channel⟩)).series = after at *
  cases leads with
  | start => exact ⟨rfl, rfl⟩

theorem startMember_refines {stage : Stage} (closed : stage = .pending ∨ stage = .finished) :
    Refines (ShowsAt stage) (ShowsAt .opened) Agrees startMember Encoder.openMember := by
  rintro ⟨level, channel, _, runs, _, totals, calls⟩ ⟨_, _, phase, totals'⟩ shows
  obtain ⟨rfl, counted, flagged⟩ := shows.idle closed
  obtain ⟨⟨⟨rfl, rfl, bytesIn, members, blocks, perturbed, exact⟩, -⟩, rfl⟩ := shows
  simp only [startMember, onChannel, Guarded.within, BlockSort.within, Encoder.openMember, bind,
    EStateM.bind, Press.onChannel]
  cases Channel.emit [.fields (Mark.member.map .byte)] channel with
  | error fault channel => exact ⟨_, rfl, rfl, rfl, bytesIn, members, blocks, perturbed, exact⟩
  | ok _ channel =>
    have called := StoredMember.call_refines .start
      ⟨.ofLevel level, channel, runs, totals.bytesIn, calls⟩
      ⟨⟨.ofLevel level, channel⟩, runs, totals.bytesIn⟩
      ⟨Framer.ofLevel_shows level, rfl, rfl, rfl, exact⟩
    have idle := start_idle level channel
    simp only [Member.onPress, BlockSort.within, Framer.pressed] at called
    simp only [modify, modifyGet, MonadStateOf.modifyGet, onMember]
    cases begun : Press.openMember ⟨.ofLevel level, channel⟩ with
    | ok _ press =>
      rw [begun] at called idle
      obtain ⟨reached, success, holds⟩ := called
      simp only [Option.getD_none, Option.bind_eq_bind, Option.bind_some, success]
      refine ⟨_, rfl, ⟨⟨rfl, ?_, holds.bytesIn.trans bytesIn, congrArg (· + 1) members,
        congrArg₂ (· + ·) (blocks.trans counted) holds.framer.written,
        congrArg₂ (· + ·) (perturbed.trans flagged) holds.framer.perturbed, holds.exact⟩,
        .opened {} holds.framer⟩, rfl⟩
      have noted : reached.channel.note (.memberStarted (totals.members + 1) level) =
          press.channel.note (.memberStarted (totals'.members + 1) level) := by
        have members : totals.members = totals'.members := members
        rw [holds.channel, members]
      exact noted
    | error fault press =>
      rw [begun] at called idle
      obtain ⟨reached, failed, holds⟩ := called
      have written : reached.framer.written = 0 := holds.framer.written.trans idle.1
      have flipped : reached.framer.perturbed = 0 := holds.framer.perturbed.trans idle.2
      simp only [Option.getD_none, Option.bind_eq_bind, Option.bind_some, failed]
      exact ⟨_, rfl, rfl, holds.channel, holds.bytesIn.trans bytesIn, members,
        (congrArg (totals.blocks + ·) written).trans blocks,
        (congrArg (totals.perturbed + ·) flipped).trans perturbed, holds.exact⟩

/-- When no member is open, the stage shows in no counter. -/
theorem ShowsAt.rephase {stage next : Stage} {phase : Phase} (shows : ShowsAt stage stored encoder)
    (closed : stage = .pending ∨ stage = .finished)
    (stands : Stands next none stored.runs phase)
    (counts : ({ encoder with phase } : Encoder).blockCount = encoder.totals.blocks ∧
      ({ encoder with phase } : Encoder).perturbedCount = encoder.totals.perturbed) :
    ShowsAt next { stored with stage := next } { encoder with phase } := by
  obtain ⟨absent, blocks, perturbed⟩ := shows.idle closed
  obtain ⟨⟨agrees, -⟩, -⟩ := shows
  refine ⟨⟨⟨agrees.level, agrees.channel, agrees.bytesIn, agrees.members,
    agrees.blocks.trans (blocks.trans counts.1.symm),
    agrees.perturbed.trans (perturbed.trans counts.2.symm), agrees.exact⟩, ?_⟩, rfl⟩
  dsimp only
  rwa [absent]

theorem openIfNone_refines {stage : Stage} (usable : stage ≠ .failed) :
    Refines (ShowsAt stage) (ShowsAt .opened) Agrees openIfNone Encoder.openIfNone := by
  intro stored encoder shows
  have at_stage := shows.2
  simp only [openIfNone, bind, get, getThe, MonadStateOf.get, at_stage, Encoder.openIfNone]
  cases stage with
  | failed => exact absurd rfl usable
  | opened =>
    obtain ⟨framer, series, -, -, phase, -, -⟩ := shows.opened
    rw [phase]
    exact ⟨stored, rfl, shows⟩
  | pending =>
    rw [shows.fresh]
    exact startMember_refines (.inl rfl) stored encoder shows
  | finished =>
    rw [shows.closed]
    exact startMember_refines (.inr rfl) stored encoder shows

theorem write_refines (bytes : List UInt8) :
    Refines Shows Shows Shows (write bytes) (Encoder.write bytes) := by
  refine guarded_refines fun stage usable => ?_
  cases bytes with
  | nil => exact fun stored encoder shows => ⟨stored, rfl, shows.1⟩
  | cons byte rest =>
    exact orFail_refines ((openIfNone_refines usable).seq
      (onMember_refines (StoredMember.pushAll_refines (byte :: rest))))

theorem finish_refines : Refines Shows (ShowsAt .finished) Shows finish Encoder.finish := by
  refine guarded_refines fun stage usable => orFail_refines fun stored encoder shows => ?_
  have at_stage := shows.2
  rw [get_bind, at_stage, EStateM.get_bind]
  cases stage with
  | failed => exact absurd rfl usable
  | opened =>
    obtain ⟨framer, series, -, -, phase, -, -⟩ := shows.opened
    rw [phase]
    exact endMember_refines stored encoder shows
  | finished =>
    rw [shows.closed]
    exact ⟨stored, rfl, shows⟩
  | pending =>
    have members := shows.1.agrees.members
    rw [shows.fresh]
    dsimp only
    by_cases fresh : encoder.totals.members = 0
    · have idle : ¬0 < stored.totals.members := by omega
      rw [if_neg idle, if_pos fresh]
      exact (startMember_refines (.inl rfl)).seq endMember_refines stored encoder shows
    · have later : 0 < stored.totals.members := by omega
      rw [if_pos later, if_neg fresh]
      exact ⟨_, rfl, shows.rephase (.inl rfl) (.finished _) ⟨rfl, rfl⟩⟩

theorem reset_refines : Refines Shows (ShowsAt .pending) Shows reset Encoder.reset := by
  have rephase : Refines (ShowsAt .finished) (ShowsAt .pending) Shows
      (modify ({ · with stage := .pending })) (modify ({ · with phase := .fresh })) :=
    fun stored encoder shows => ⟨_, rfl, shows.rephase (.inr rfl) (.pending _) ⟨rfl, rfl⟩⟩
  refine guarded_refines fun stage usable stored encoder shows => ?_
  have at_stage := shows.2
  rw [get_bind, at_stage, EStateM.get_bind]
  cases stage with
  | failed => exact absurd rfl usable
  | opened =>
    obtain ⟨framer, series, -, -, phase, -, -⟩ := shows.opened
    rw [phase]
    exact finish_refines.seq rephase stored encoder shows.1
  | finished =>
    rw [shows.closed]
    exact rephase stored encoder shows
  | pending =>
    rw [shows.fresh]
    exact ⟨_, rfl, shows.rephase (.inl rfl) (.pending _) ⟨rfl, rfl⟩⟩

theorem flush_refines : Refines Shows Shows Shows flush Encoder.flush :=
  guarded_refines fun _ _ => orFail_refines fun stored encoder shows =>
    onWriter_refines BitWriter.flush stored encoder shows.1

theorem close_refines : Refines Shows Shows Agrees close Encoder.close := by
  have written : Refines (ShowsAt .finished) Shows Agrees
      (onChannel (Channel.onWriter BitWriter.finish)) (Encoder.onWriter BitWriter.finish) :=
    fun stored encoder shows => onWriter_refines BitWriter.finish stored encoder shows.1
  exact (finish_refines.mono (fun _ _ => id) fun _ _ => Shows.agrees).seq written

/-- In storage a byte string is compressed to what it is compressed to without. -/
theorem compress_eq (bytes : List UInt8) (level : Level) :
    compress bytes level = some (BlockSort.compress bytes level) := by
  have whole : Refines Shows Agrees Agrees (write bytes >>= fun _ => close)
      (Encoder.write bytes >>= fun _ => Encoder.close) :=
    ((write_refines bytes).mono (fun _ _ => id) fun _ _ => Shows.agrees).seq
      (close_refines.mono (fun _ _ => Shows.agrees) fun _ _ => id)
  have ends := whole (ofSink level {}) (.ofSink level {}) (ofSink_shows level {})
  rw [compress, BlockSort.compress, compressWithJournal]
  cases done : (Encoder.write bytes >>= fun _ => Encoder.close) (.ofSink level {}) with
  | ok _ encoder =>
    rw [done] at ends
    obtain ⟨reached, success, agrees⟩ := ends
    simp only [success, Option.bind_eq_bind, Option.bind_some, agrees.channel]
    rfl
  | error fault encoder =>
    rw [done] at ends
    obtain ⟨reached, failure, -⟩ := ends
    simp only [failure, Option.bind_eq_bind, Option.bind_some]

/-- What a call asks of the encoder in storage. -/
def operation : Encoder.Request → Guarded StoredEncoder Unit
  | .write bytes | .sinkWrite bytes => write bytes
  | .writeByte byte => write [byte]
  | .sinkFlush => flush
  | .finish => finish
  | .reset => reset

/-- Answers a call. -/
def serve (request : Encoder.Request) (encoder : StoredEncoder) :
    Option (Encoder.Answer × StoredEncoder) := do
  match ← operation request encoder with
  | .ok _ after => some (request.success, after)
  | .error fault after => some (request.failure fault, after)

/-- Answers calls in order, the failed ones included. -/
def serveAll : List Encoder.Request → StoredEncoder → Option (List Encoder.Answer × StoredEncoder)
  | [], encoder => some ([], encoder)
  | request :: rest, encoder => do
    let (answer, encoder) ← serve request encoder
    let (answers, encoder) ← serveAll rest encoder
    return (answer :: answers, encoder)

theorem operation_refines (request : Encoder.Request) :
    Refines Shows Shows Shows (operation request) request.operation := by
  cases request with
  | write bytes | sinkWrite bytes => exact write_refines bytes
  | writeByte byte => exact write_refines [byte]
  | sinkFlush => exact flush_refines
  | finish => exact finish_refines.mono (fun _ _ => And.left) fun _ _ => id
  | reset => exact reset_refines.mono (fun _ _ => And.left) fun _ _ => id

/-- The step lemma: a call is answered in storage as without. -/
theorem Shows.serve (shows : stored.Shows encoder) (request : Encoder.Request) :
    ∃ after, StoredEncoder.serve request stored =
        some ((Encoder.serve request encoder).1, after) ∧
      after.Shows (Encoder.serve request encoder).2 := by
  have ends := operation_refines request stored encoder shows
  rw [Encoder.serve_eq, StoredEncoder.serve]
  cases done : request.operation encoder with
  | ok _ model | error _ model =>
    rw [done] at ends
    obtain ⟨after, result, shown⟩ := ends
    rw [result]
    exact ⟨after, rfl, shown⟩

theorem Shows.serveAll (shows : stored.Shows encoder) (requests : List Encoder.Request) :
    ∃ after, StoredEncoder.serveAll requests stored =
        some ((Encoder.serveAll requests encoder).1, after) ∧
      after.Shows (Encoder.serveAll requests encoder).2 := by
  induction requests generalizing stored encoder with
  | nil => exact ⟨stored, rfl, shows⟩
  | cons request rest ih =>
    obtain ⟨middle, first, shown⟩ := shows.serve request
    obtain ⟨after, others, final⟩ := ih shown
    refine ⟨after, ?_, final⟩
    simp only [StoredEncoder.serveAll, first, others, Option.bind_eq_bind, Option.bind_some]
    rfl

theorem Shows.close (shows : stored.Shows encoder) :
    ∃ outcome, StoredEncoder.close stored = some outcome ∧
      (finalState outcome).Agrees (finalState (Encoder.close encoder)) ∧
      ∀ {fault after}, outcome = .error fault after →
        ∃ last, Encoder.close encoder = .error fault last := by
  have ends := close_refines stored encoder shows
  cases closed : Encoder.close encoder with
  | ok _ last =>
    rw [closed] at ends
    obtain ⟨after, success, shown⟩ := ends
    exact ⟨_, success, shown.agrees, fun failed => nomatch failed⟩
  | error fault last =>
    rw [closed] at ends
    obtain ⟨after, failure, agrees⟩ := ends
    refine ⟨_, failure, agrees, fun failed => ?_⟩
    cases failed
    exact ⟨last, rfl⟩

end StoredEncoder

/-- A fault for which the encoder is not to blame: the sink's, or one that goes back to it. -/
def Fault.Blameless : Fault → Prop
  | .sink _ | .broken => True
  | _ => False

namespace Encoder

/-- The answer tells of a success, or of a fault for which the encoder is not to blame. -/
def Request.Answered (request : Request) (answer : Answer) : Prop :=
  answer = request.success ∨ ∃ fault, Fault.Blameless fault ∧ answer = request.failure fault

/-- The encoder answers in no other way. -/
theorem serveAll_answered (level : Level) (sink : Sink) (requests : List Request) :
    List.Forall₂ Request.Answered requests (serveAll requests (ofSink level sink)).1 ∧
      ∀ fault closed, close (serveAll requests (ofSink level sink)).2 = .error fault closed →
        fault.Blameless := by
  have all (served : List Request) :
      List.Forall₂ Request.Answered served (served.map Request.success) :=
    List.forall₂_map_right_iff.mpr (List.forall₂_same.mpr fun _ _ => .inl rfl)
  obtain ⟨_, -, -, runs⟩ := (Beside.start level sink).serveAll requests
  rcases runs with ⟨actual, ours, -, beside⟩ | ⟨served, request, rest, error, actual, rfl, stops, -⟩
  · rw [ours]
    refine ⟨all requests, fun fault closed failed => ?_⟩
    obtain ⟨_, -, -, -, fares⟩ := beside.close
    rw [failed] at fares
    cases fares with
    | refused => trivial
  · rw [stops.serveAll rest]
    refine ⟨List.rel_append (all served) (.cons (.inr ⟨.sink error, trivial, rfl⟩) ?_), ?_⟩
    · exact List.forall₂_map_right_iff.mpr
        (List.forall₂_same.mpr fun _ _ => .inr ⟨.broken, trivial, rfl⟩)
    · intro fault closed failed
      rw [close_of_broken stops.broken] at failed
      cases failed
      trivial

end Encoder

namespace StoredEncoder

/-- No value is ever cut off, and no expectation broken, at any level and any sink. Whatever calls
an encoder is given, they all have an answer, which is that of an encoder without storage; none
tells of a field that is too wide; and each call of a framer, the failed ones included, finds its
block within the bounds and writes all values as they are. The same holds when the encoder is
closed. No block is lost or counted twice when a framer is given up. -/
theorem serveAll_exact (level : Level) (sink : Sink) (requests : List Encoder.Request) :
    let plain := Encoder.serveAll requests (.ofSink level sink)
    let closed := finalState (Encoder.close plain.2)
    ∃ answers after outcome,
      serveAll requests (ofSink level sink) = some (answers, after) ∧
      close after = some outcome ∧
      (∀ call ∈ after.calls ++ (finalState outcome).calls, call.Exact) ∧
      List.Forall₂ Encoder.Request.Answered requests answers ∧
      (∀ fault closed, outcome = .error fault closed → fault.Blameless) ∧
      answers = plain.1 ∧ after.channel = plain.2.channel ∧
      (finalState outcome).channel = closed.channel ∧
      after.blockCount = plain.2.blockCount ∧ after.perturbedCount = plain.2.perturbedCount ∧
      (finalState outcome).blockCount = closed.blockCount ∧
      (finalState outcome).perturbedCount = closed.perturbedCount := by
  intro plain ended
  obtain ⟨after, served, shows⟩ := (ofSink_shows level sink).serveAll requests
  obtain ⟨answered, blameless⟩ := Encoder.serveAll_answered level sink requests
  have agrees := shows.agrees
  obtain ⟨outcome, closes, final, faults⟩ := shows.close
  refine ⟨_, after, outcome, served, closes, List.forall_mem_append.mpr ⟨agrees.exact, final.exact⟩,
    answered, fun fault _ failed => ?_, rfl, agrees.channel, final.channel, agrees.blocks, agrees.perturbed,
    final.blocks, final.perturbed⟩
  obtain ⟨last, same⟩ := faults failed
  exact blameless fault last same

end StoredEncoder

/-- The compressed form of any byte string can be made, and is decoded as one member of that level
which holds exactly these bytes. -/
theorem decode_compress (bytes : List UInt8) (level : Level) :
    ∃ output, compress bytes level = .ok output ∧
      ∃ member, Decoder.decode output.toList = some member ∧
        member.level = level.value ∧ member.data = bytes := by
  obtain ⟨output, compressed, bits⟩ := Encoder.compress_bits bytes level
  obtain ⟨member, setting, data, _, reads⟩ := Decoder.reads_member level bytes
  exact ⟨output, compressed, member, Decoder.decode_of_bits reads bits, setting, data⟩

/-- The same with the blocks in storage: no fault stops the compression, no place is missed and no
expectation is broken. -/
theorem decode_stored_compress (bytes : List UInt8) (level : Level) :
    ∃ output, StoredEncoder.compress bytes level = some (.ok output) ∧
      compress bytes level = .ok output ∧
      ∃ member, Decoder.decode output.toList = some member ∧
        member.level = level.value ∧ member.data = bytes := by
  obtain ⟨output, compressed, decoded⟩ := decode_compress bytes level
  refine ⟨output, ?_, compressed, decoded⟩
  rw [StoredEncoder.compress_eq, compressed]

end BlockSort

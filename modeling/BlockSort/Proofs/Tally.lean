import BlockSort.Proofs.Ledger
import BlockSort.Proofs.Requests

namespace BlockSort

namespace Event

def isMember : Event → Bool
  | .memberStarted _ _ => true
  | _ => false

def isBlock : Event → Bool
  | .blockWritten _ _ _ _ _ _ _ _ => true
  | _ => false

/-- Whether a block was written that had been perturbed. -/
def isPerturbed : Event → Bool
  | .blockWritten _ _ _ _ perturbed _ _ _ => perturbed
  | _ => false

/-- An event that no counter is kept of. -/
def isPlain (event : Event) : Bool := !event.isMember && !event.isBlock

theorem isBlock_of_isPerturbed {event : Event} (perturbed : event.isPerturbed) : event.isBlock := by
  cases event <;> simp_all [isPerturbed, isBlock]

theorem uncounted_of_isPlain {event : Event} (plain : event.isPlain) :
    event.isMember = false ∧ event.isBlock = false ∧ event.isPerturbed = false := by
  cases event <;> simp_all [isPlain, isMember, isBlock, isPerturbed]

end Event

section

variable {ε σ τ α β : Type}

/-- The state in which an operation ends, whether it succeeds or not. -/
def finalState : EStateM.Result ε σ α → σ
  | .ok _ after | .error _ after => after

/-- The states before and after an operation are related, also when it fails. -/
def Always (relation : σ → σ → Prop) (operation : EStateM ε σ α) : Prop :=
  ∀ before, relation before (finalState (operation before))

namespace Always

variable {relation : σ → σ → Prop}

theorem bind {operation : EStateM ε σ α} {next : α → EStateM ε σ β}
    (trans : ∀ {first second third}, relation first second → relation second third →
      relation first third)
    (one : Always relation operation) (others : ∀ value, Always relation (next value)) :
    Always relation (operation >>= next) := by
  intro before
  have step := one before
  simp only [Bind.bind, EStateM.bind]
  cases result : operation before with
  | ok value middle =>
    rw [result] at step
    have further := others value middle
    simp only
    cases final : next value middle with
    | ok _ after | error _ after =>
      rw [final] at further
      exact trans step further
  | error fault middle =>
    rw [result] at step
    exact step

theorem within {split : τ → σ × (σ → τ)} {operation : EStateM ε σ α} {whole : τ → τ → Prop}
    (part : Always relation operation)
    (joined : ∀ before after, relation (split before).1 after →
      whole before ((split before).2 after)) :
    Always whole (BlockSort.within split operation) := by
  intro before
  have step := part (split before).1
  simp only [BlockSort.within]
  cases result : operation (split before).1 with
  | ok _ after | error _ after =>
    rw [result] at step
    exact joined before after step

end Always

end

theorem Follows.of_ok {σ : Type} {writer : σ → BitWriter} {operation : EStateM Fault σ Unit}
    {before after : σ} {actions : List Action} {result failure : σ → Prop}
    (follows : Follows writer operation before actions result failure)
    (success : operation before = .ok () after) : result after := by
  rw [Follows] at follows
  cases performed : BitWriter.perform actions (writer before) with
  | ok _ written =>
    rw [performed] at follows
    obtain ⟨final, same, _, holds⟩ := follows
    rw [success] at same
    cases same
    exact holds
  | error fault written =>
    rw [performed] at follows
    obtain ⟨final, failed, _⟩ := follows
    cases success.symm.trans failed

namespace BitWriter

/-- Complete bytes stay counted. -/
def Grows (before after : BitWriter) : Prop := before.completed ≤ after.completed

theorem act_grows (action : Action) : Always Grows (act action) := by
  intro before
  by_cases narrow : action.Narrow
  · have asked := Ledger.asked_act narrow before
    have counted := (filled_ready before action).2
    have kept (fault : Option Fault) {after : BitWriter}
        (asked : Ledger.Asked (before.filled action) fault after) : before.Grows after := by
      cases asked with
      | kept | given | failed =>
        rw [Grows]
        simp only [counted]
        exact Nat.le_add_right _ _
    cases result : act action before with
    | ok _ after | error _ after =>
      rw [result] at asked
      exact kept _ asked
  · cases action with
    | put field =>
      have wide : Field.widest < field.width := Nat.not_le.mp narrow
      have nonzero : field.width ≠ 0 := by omega
      rw [act, put, if_neg nonzero, if_pos wide]
      exact Nat.le_refl _
    | finish => exact absurd trivial narrow
    | flush => exact absurd trivial narrow

theorem putAll_grows (fields : List Field) : Always Grows (putAll fields) := by
  induction fields with
  | nil => exact fun _ => Nat.le_refl _
  | cons field rest ih =>
    intro before
    have step := act_grows (.put field) before
    rw [act] at step
    rw [putAll]
    cases result : put field before with
    | error _ after =>
      rw [result] at step
      exact step
    | ok _ middle =>
      rw [result] at step
      have further := ih middle
      simp only
      cases final : putAll rest middle with
      | ok _ after | error _ after =>
        rw [final] at further
        exact Nat.le_trans step further

end BitWriter

namespace Channel

/-- A channel later on, with what was noted in between. -/
structure Grows (fresh : List Event) (before after : Channel) : Prop where
  journal : after.journal = fresh ++ before.journal
  bytes : before.writer.Grows after.writer

/-- A channel later on, when nothing was noted that counts. -/
def GrowsPlainly (before after : Channel) : Prop :=
  ∃ fresh, Grows fresh before after ∧ ∀ event ∈ fresh, event.isPlain

theorem GrowsPlainly.refl (channel : Channel) : channel.GrowsPlainly channel :=
  ⟨[], ⟨rfl, Nat.le_refl _⟩, by simp⟩

theorem GrowsPlainly.trans {first second third : Channel} (one : first.GrowsPlainly second)
    (two : second.GrowsPlainly third) : first.GrowsPlainly third := by
  obtain ⟨fresh, ⟨journal, bytes⟩, plain⟩ := one
  obtain ⟨later, ⟨others, more⟩, quiet⟩ := two
  refine ⟨later ++ fresh, ⟨?_, Nat.le_trans bytes more⟩, fun event member => ?_⟩
  · rw [others, journal, List.append_assoc]
  · exact (List.mem_append.mp member).elim (quiet event) (plain event)

theorem onWriter_grows {operation : EStateM Fault BitWriter Unit}
    (part : Always BitWriter.Grows operation) : Always GrowsPlainly (onWriter operation) :=
  part.within fun _ _ bytes => ⟨[], ⟨rfl, bytes⟩, by simp⟩

theorem note_plain (channel : Channel) {event : Event} (plain : event.isPlain) :
    channel.GrowsPlainly (channel.note event) :=
  ⟨[event], ⟨rfl, Nat.le_refl _⟩, by simpa using plain⟩

/-- Emissions whose notes do not count. -/
def Plain (emissions : List Emission) : Prop :=
  ∀ event, Emission.note event ∈ emissions → event.isPlain

theorem emit_plain {emissions : List Emission} (plain : Plain emissions) :
    Always GrowsPlainly (emit emissions) := by
  induction emissions with
  | nil => exact fun channel => .refl channel
  | cons emission rest ih =>
    have others := ih fun event member => plain event (List.mem_cons_of_mem _ member)
    intro before
    cases emission with
    | note event =>
      have noted := note_plain before (plain event (List.mem_cons_self ..))
      have further := others (before.note event)
      rw [emit]
      cases result : emit rest (before.note event) with
      | ok _ after | error _ after =>
        rw [result] at further
        exact noted.trans further
    | fields content =>
      have step := onWriter_grows (BitWriter.putAll_grows content) before
      rw [emit]
      cases wrote : onWriter (BitWriter.putAll content) before with
      | error _ after =>
        rw [wrote] at step
        exact step
      | ok _ middle =>
        rw [wrote] at step
        have further := others middle
        simp only
        cases result : emit rest middle with
        | ok _ after | error _ after =>
          rw [result] at further
          exact step.trans further

theorem emit_append (first second : List Emission) (channel : Channel) :
    emit (first ++ second) channel =
      match emit first channel with
      | .ok _ middle => emit second middle
      | .error fault after => .error fault after := by
  induction first generalizing channel with
  | nil => rfl
  | cons emission rest ih =>
    cases emission with
    | note event => exact ih (channel.note event)
    | fields content =>
      simp only [List.cons_append, emit]
      cases onWriter (BitWriter.putAll content) channel with
      | ok _ middle => exact ih middle
      | error fault after => rfl

end Channel

/-- The emissions of a block but for the last, which notes that it was written. -/
theorem SortedBlock.emissions_plain (sorted : SortedBlock) (number : Nat) :
    ∃ front, sorted.emissions number =
        front ++ [.note (sorted.writtenEvent sorted.coded number)] ∧ Channel.Plain front := by
  refine ⟨_, rfl, fun event member => ?_⟩
  simp only [List.mem_append, List.mem_map, Option.mem_toList, overrunEvent, Option.map_eq_some_iff,
    Emission.note.injEq, exists_eq_right, List.mem_singleton, reduceCtorEq, or_false,
    CodedStream.emissions, List.mem_mapIdx] at member
  rcases member with ⟨overrun, _, rfl⟩ | ⟨pass, _, rfl⟩ <;> rfl

namespace Press

/-- Nothing that counts is noted or counted. -/
structure GrowsPlainly (before after : Press) : Prop where
  channel : before.channel.GrowsPlainly after.channel
  written : after.series.written = before.series.written
  perturbed : after.series.perturbed = before.series.perturbed

theorem GrowsPlainly.trans {first second third : Press} (one : first.GrowsPlainly second)
    (two : second.GrowsPlainly third) : first.GrowsPlainly third :=
  ⟨one.channel.trans two.channel, two.written.trans one.written,
    two.perturbed.trans one.perturbed⟩

theorem onChannel_plainly {operation : EStateM Fault Channel Unit}
    (part : Always Channel.GrowsPlainly operation) : Always GrowsPlainly (onChannel operation) :=
  part.within fun _ _ channel => ⟨channel, rfl, rfl⟩

theorem openMember_plainly : Always GrowsPlainly openMember := by
  intro before
  have plain : Channel.Plain [.fields before.series.headerFields] := by simp [Channel.Plain]
  have step := onChannel_plainly (Channel.emit_plain plain)
    ⟨before.series.restart, before.channel⟩
  rw [openMember]
  cases result : onChannel (Channel.emit [.fields before.series.headerFields])
      ⟨before.series.restart, before.channel⟩ with
  | ok _ after | error _ after =>
    rw [result] at step
    exact ⟨step.channel, step.written, step.perturbed⟩

theorem writeTrailer_plainly : Always GrowsPlainly writeTrailer := by
  have noted (series : Series) : Channel.Plain series.trailerEmissions := by
    simp [Channel.Plain, Series.trailerEmissions, Event.isPlain, Event.isMember, Event.isBlock]
  exact Always.bind .trans (fun press => ⟨.refl press.channel, rfl, rfl⟩) fun press =>
    Always.bind .trans (onChannel_plainly (Channel.emit_plain (noted press.series))) fun _ =>
      onChannel_plainly (Channel.onWriter_grows (BitWriter.act_grows .finish))

/-- The blocks written in between are those that are noted. -/
def Grows (before after : Press) : Prop :=
  ∃ fresh, Channel.Grows fresh before.channel after.channel ∧
    after.series.written = before.series.written + fresh.countP Event.isBlock ∧
    after.series.perturbed = before.series.perturbed + fresh.countP Event.isPerturbed ∧
    fresh.countP Event.isMember = 0

theorem Grows.refl (press : Press) : press.Grows press :=
  ⟨[], ⟨rfl, Nat.le_refl _⟩, rfl, rfl, rfl⟩

theorem Grows.trans {first second third : Press} (one : first.Grows second)
    (two : second.Grows third) : first.Grows third := by
  obtain ⟨fresh, ⟨journal, bytes⟩, written, perturbed, members⟩ := one
  obtain ⟨later, ⟨others, more⟩, blocks, flagged, unchanged⟩ := two
  refine ⟨later ++ fresh, ⟨?_, Nat.le_trans bytes more⟩, ?_, ?_, ?_⟩
  · rw [others, journal, List.append_assoc]
  · rw [blocks, written, List.countP_append]
    omega
  · rw [flagged, perturbed, List.countP_append]
    omega
  · rw [List.countP_append, unchanged, members]

theorem GrowsPlainly.grows {before after : Press} (plainly : before.GrowsPlainly after) :
    before.Grows after := by
  obtain ⟨⟨fresh, grows, plain⟩, written, perturbed⟩ := plainly
  have quiet := fun event member => Event.uncounted_of_isPlain (plain event member)
  have none (counted : Event → Bool) (apart : ∀ event ∈ fresh, counted event = false) :
      fresh.countP counted = 0 :=
    List.countP_eq_zero.mpr fun event member => by simp [apart event member]
  refine ⟨fresh, grows, ?_, ?_, none _ fun event member => (quiet event member).1⟩
  · rw [written, none _ fun event member => (quiet event member).2.1, Nat.add_zero]
  · rw [perturbed, none _ fun event member => (quiet event member).2.2, Nat.add_zero]

theorem grows_of_plainly {operation : EStateM Fault Press Unit}
    (plainly : Always GrowsPlainly operation) : Always Grows operation := by
  intro before
  have step := plainly before
  cases result : operation before with
  | ok _ after | error _ after =>
    rw [result] at step
    exact step.grows

/-- A block is counted when it is noted, and only then. -/
theorem writeBlock_grows : Always Grows writeBlock := by
  intro before
  obtain ⟨series, channel⟩ := before
  rw [writeBlock]
  split_ifs
  · exact .refl _
  · simp only [Series.withSorted]
    obtain ⟨front, shape, plain⟩ := series.block.sort.emissions_plain (series.written + 1)
    have step := Channel.emit_plain plain channel
    rw [shape, Channel.emit_append]
    cases result : Channel.emit front channel with
    | error _ after =>
      rw [result] at step
      exact GrowsPlainly.grows ⟨step, rfl, rfl⟩
    | ok _ middle =>
      rw [result] at step
      refine @Grows.trans _ ⟨series, middle⟩ _ (GrowsPlainly.grows ⟨step, rfl, rfl⟩) ?_
      refine ⟨[_], ⟨rfl, Nat.le_refl _⟩, rfl, ?_, rfl⟩
      have flagged : (series.block.sort.writtenEvent series.block.sort.coded
          (series.written + 1)).isPerturbed = series.block.sort.block.perturbed := rfl
      simp only [List.countP_singleton, flagged, Series.advance]
      split_ifs <;> rfl

theorem add_grows (run : Run) : Always Grows (add run) := by
  intro before
  rw [add]
  split_ifs
  · have step := writeBlock_grows before
    cases result : writeBlock before with
    | ok _ after | error _ after =>
      rw [result] at step
      exact step
  · exact .refl _

end Press

namespace Member

/-- A press grows, and no byte that was taken is given back. -/
structure Grows (before after : Member) : Prop where
  press : before.press.Grows after.press
  bytes : before.bytesIn ≤ after.bytesIn

theorem Grows.refl (member : Member) : member.Grows member := ⟨.refl _, Nat.le_refl _⟩

theorem Grows.trans {first second third : Member} (one : first.Grows second)
    (two : second.Grows third) : first.Grows third :=
  ⟨one.press.trans two.press, Nat.le_trans one.bytes two.bytes⟩

theorem onPress_grows {operation : EStateM Fault Press Unit}
    (part : Always Press.Grows operation) : Always Grows (onPress operation) :=
  part.within fun _ _ press => ⟨press, Nat.le_refl _⟩

theorem push_grows (byte : UInt8) : Always Grows (push byte) := by
  intro before
  obtain ⟨press, runs, bytesIn⟩ := before
  rw [push]
  rcases runs.push byte with ⟨_ | run, next⟩
  · exact ⟨.refl _, Nat.le_succ _⟩
  · have step := Press.add_grows run press
    simp only
    cases result : Press.add run press with
    | ok _ after =>
      rw [result] at step
      exact ⟨step, Nat.le_succ _⟩
    | error _ after =>
      rw [result] at step
      exact ⟨step, Nat.le_refl _⟩

theorem pushAll_grows (bytes : List UInt8) : Always Grows (pushAll bytes) := by
  induction bytes with
  | nil => exact fun member => .refl member
  | cons byte rest ih =>
    intro before
    have step := push_grows byte before
    rw [pushAll]
    cases result : push byte before with
    | error _ after =>
      rw [result] at step
      exact step
    | ok _ middle =>
      rw [result] at step
      have further := ih middle
      simp only
      cases final : pushAll rest middle with
      | ok _ after | error _ after =>
        rw [final] at further
        exact step.trans further

theorem endRun_grows : Always Grows endRun := by
  refine Always.bind .trans (fun member => Grows.refl member) fun member =>
    Always.bind .trans (fun _ => ⟨.refl _, Nat.le_refl _⟩) fun _ => ?_
  cases member.runs.growing with
  | none => exact fun member => .refl member
  | some run => exact onPress_grows (Press.add_grows run)

theorem finish_grows : Always Grows finish :=
  Always.bind .trans endRun_grows fun _ =>
    Always.bind .trans (onPress_grows Press.writeBlock_grows) fun _ =>
      Always.bind .trans
        (onPress_grows (Press.grows_of_plainly Press.writeTrailer_plainly)) fun _ =>
          onPress_grows (Press.grows_of_plainly (Press.onChannel_plainly
            (Channel.onWriter_grows (BitWriter.act_grows .flush))))

end Member

namespace Encoder

/-- What is noted in between is what the counters show. -/
structure Grows (before after : Encoder) : Prop where
  events : ∃ fresh, Channel.Grows fresh before.channel after.channel ∧
    after.totals.members = before.totals.members + fresh.countP Event.isMember ∧
    after.blockCount = before.blockCount + fresh.countP Event.isBlock ∧
    after.perturbedCount = before.perturbedCount + fresh.countP Event.isPerturbed
  bytesIn : before.bytesIn ≤ after.bytesIn

theorem Grows.refl (encoder : Encoder) : encoder.Grows encoder :=
  ⟨⟨[], ⟨rfl, Nat.le_refl _⟩, rfl, rfl, rfl⟩, Nat.le_refl _⟩

theorem Grows.trans {first second third : Encoder} (one : first.Grows second)
    (two : second.Grows third) : first.Grows third := by
  obtain ⟨⟨fresh, ⟨journal, bytes⟩, members, blocks, perturbed⟩, bytesIn⟩ := one
  obtain ⟨⟨later, ⟨others, more⟩, begun, written, flagged⟩, further⟩ := two
  refine ⟨⟨later ++ fresh, ⟨?_, Nat.le_trans bytes more⟩, ?_, ?_, ?_⟩,
    Nat.le_trans bytesIn further⟩
  · rw [others, journal, List.append_assoc]
  · rw [begun, members, List.countP_append]
    omega
  · rw [written, blocks, List.countP_append]
    omega
  · rw [flagged, perturbed, List.countP_append]
    omega

theorem counts_of_left {encoder : Encoder}
    (left : ∀ series runs, encoder.phase ≠ .opened series runs) :
    encoder.blockCount = encoder.totals.blocks ∧
      encoder.perturbedCount = encoder.totals.perturbed := by
  rw [blockCount, perturbedCount]
  cases shape : encoder.phase with
  | opened series runs => exact absurd shape (left series runs)
  | fresh | closed | broken => exact ⟨rfl, rfl⟩

/-- The counts of a member pass on when it is left. -/
theorem leave_counts (encoder : Encoder) {phase : Phase}
    (left : ∀ series runs, phase ≠ .opened series runs) :
    (encoder.leave phase).blockCount = encoder.blockCount ∧
      (encoder.leave phase).perturbedCount = encoder.perturbedCount := by
  cases phase with
  | opened series runs => exact absurd rfl (left series runs)
  | fresh | closed | broken => exact ⟨rfl, rfl⟩

theorem leave_grows (encoder : Encoder) {phase : Phase}
    (left : ∀ series runs, phase ≠ .opened series runs) : encoder.Grows (encoder.leave phase) := by
  obtain ⟨blocks, perturbed⟩ := encoder.leave_counts left
  exact ⟨⟨[], ⟨rfl, Nat.le_refl _⟩, rfl, blocks, perturbed⟩, Nat.le_refl _⟩

theorem orBreak_grows {operation : EStateM Fault Encoder Unit}
    (part : Always Grows operation) : Always Grows (orBreak operation) := by
  intro before
  have step := part before
  rw [orBreak]
  cases result : operation before with
  | ok _ after =>
    rw [result] at step
    exact step
  | error _ after =>
    rw [result] at step
    exact step.trans (after.leave_grows (by simp))

theorem refuseIfBroken_grows : Always Grows refuseIfBroken := by
  intro before
  rw [refuseIfBroken]
  split_ifs <;> exact .refl _

/-- A member is counted when it is noted. A fault before that leaves the counters as they were. -/
theorem openMember_grows {before : Encoder}
    (left : ∀ series runs, before.phase ≠ .opened series runs) :
    before.Grows (finalState (openMember before)) := by
  obtain ⟨level, channel, phase, totals⟩ := before
  have counts := counts_of_left left
  have marked : Channel.Plain [.fields (Mark.member.map .byte)] := by simp [Channel.Plain]
  have opening : Always Press.GrowsPlainly
      (Press.onChannel (Channel.emit [.fields (Mark.member.map .byte)]) >>= fun _ =>
        Press.openMember) :=
    .bind .trans (Press.onChannel_plainly (Channel.emit_plain marked)) fun _ =>
      Press.openMember_plainly
  have step := opening ⟨.ofLevel level, channel⟩
  simp only [openMember]
  cases result : (Press.onChannel (Channel.emit [.fields (Mark.member.map .byte)]) >>= fun _ =>
      Press.openMember) ⟨.ofLevel level, channel⟩ with
  | ok _ after =>
    rw [result, finalState] at step
    rw [finalState]
    obtain ⟨fresh, ⟨journal, bytes⟩, written, perturbed, members⟩ := step.grows
    refine ⟨⟨.memberStarted _ level :: fresh, ⟨congrArg _ journal, bytes⟩, ?_, ?_, ?_⟩,
      Nat.le_refl _⟩
    · rw [List.countP_cons, members]
      rfl
    · rw [counts.1, List.countP_cons, blockCount]
      simp only [written, Series.ofLevel, Nat.zero_add]
      rfl
    · rw [counts.2, List.countP_cons, perturbedCount]
      simp only [perturbed, Series.ofLevel, Nat.zero_add]
      rfl
  | error fault after =>
    rw [result, finalState] at step
    rw [finalState]
    obtain ⟨fresh, channels, written, perturbed, members⟩ := step.grows
    refine ⟨⟨fresh, channels, ?_, ?_, ?_⟩, Nat.le_refl _⟩
    · rw [members]
      rfl
    · rw [step.written, Nat.left_eq_add] at written
      rw [written]
      exact counts.1.trans counts.1.symm
    · rw [step.perturbed, Nat.left_eq_add] at perturbed
      rw [perturbed]
      exact counts.2.trans counts.2.symm

theorem onMember_grows {operation : EStateM Fault Member Unit}
    (part : Always Member.Grows operation) : Always Grows (onMember operation) := by
  intro before
  obtain ⟨level, channel, phase, totals⟩ := before
  cases phase with
  | opened series runs =>
    have step := part ⟨⟨series, channel⟩, runs, totals.bytesIn⟩
    have joined (after : Member) (grows : Member.Grows ⟨⟨series, channel⟩, runs, totals.bytesIn⟩ after) :
        Grows ⟨level, channel, .opened series runs, totals⟩
          ⟨level, after.press.channel, .opened after.press.series after.runs,
            { totals with bytesIn := after.bytesIn }⟩ := by
      obtain ⟨⟨fresh, channels, written, perturbed, members⟩, bytes⟩ := grows
      refine ⟨⟨fresh, channels, ?_, ?_, ?_⟩, bytes⟩
      · rw [members]
        rfl
      · simp only [blockCount, written, Nat.add_assoc]
      · simp only [perturbedCount, perturbed, Nat.add_assoc]
    rw [onMember]
    simp only
    cases result : operation ⟨⟨series, channel⟩, runs, totals.bytesIn⟩ with
    | ok _ after | error _ after =>
      rw [result] at step
      exact joined after step
  | fresh | closed | broken => exact .refl _

theorem endMember_grows : Always Grows endMember := by
  refine Always.bind .trans (onMember_grows Member.finish_grows) fun _ before => ?_
  obtain ⟨⟨fresh, ⟨journal, bytes⟩, members, blocks, perturbed⟩, bytesIn⟩ :=
    @leave_grows before .closed (by simp)
  refine ⟨⟨.memberFinished _ _ _ :: fresh, ⟨congrArg _ journal, bytes⟩, ?_, ?_, ?_⟩, bytesIn⟩
  · rw [List.countP_cons]
    exact members
  · rw [List.countP_cons]
    exact blocks
  · rw [List.countP_cons]
    exact perturbed

theorem openIfNone_grows : Always Grows openIfNone := by
  intro before
  rw [openIfNone]
  cases phase : before.phase with
  | opened series runs => exact .refl _
  | fresh | closed | broken =>
    have left : ∀ series runs, before.phase ≠ .opened series runs := by simp [phase]
    exact openMember_grows left

theorem write_grows (bytes : List UInt8) : Always Grows (write bytes) := by
  refine Always.bind .trans refuseIfBroken_grows fun _ => ?_
  by_cases empty : bytes.isEmpty
  · simp only [empty, if_true]
    exact fun encoder => .refl encoder
  · simp only [empty, Bool.false_eq_true, if_false]
    exact orBreak_grows (Always.bind .trans openIfNone_grows fun _ =>
      onMember_grows (Member.pushAll_grows bytes))

theorem finish_grows : Always Grows finish := by
  intro before
  obtain ⟨level, channel, phase, totals⟩ := before
  cases phase with
  | broken | closed => exact .refl _
  | opened series runs => exact orBreak_grows endMember_grows _
  | fresh =>
    by_cases first : totals.members = 0
    · have both : Always Grows (orBreak (do openIfNone; endMember)) :=
        orBreak_grows (Always.bind .trans openIfNone_grows fun _ => endMember_grows)
      have step := both ⟨level, channel, .fresh, totals⟩
      have same : finish ⟨level, channel, .fresh, totals⟩ =
          orBreak (do openIfNone; endMember) ⟨level, channel, .fresh, totals⟩ := by
        simp [finish, bind, EStateM.bind, refuseIfBroken, isBroken, orBreak, get, getThe,
          MonadStateOf.get, EStateM.get, first, openIfNone]
      rw [same]
      exact step
    · have same : finish ⟨level, channel, .fresh, totals⟩ =
          .ok () ⟨level, channel, .closed, totals⟩ := by
        simp [finish, bind, EStateM.bind, refuseIfBroken, isBroken, orBreak, get, getThe,
          MonadStateOf.get, EStateM.get, first, modify, modifyGet, MonadStateOf.modifyGet,
          EStateM.modifyGet]
      rw [same]
      exact ⟨⟨[], ⟨rfl, Nat.le_refl _⟩, rfl, rfl, rfl⟩, Nat.le_refl _⟩

/-- When no member is open, the phase shows in no counter. -/
theorem rephase_grows {before : Encoder} (shut : before.outline.isOpen = false) :
    before.Grows { before with phase := .fresh } := by
  obtain ⟨level, channel, phase, totals⟩ := before
  cases phase with
  | opened series runs => simp [outline, Outline.isOpen] at shut
  | fresh | closed | broken =>
    exact ⟨⟨[], ⟨rfl, Nat.le_refl _⟩, rfl, rfl, rfl⟩, Nat.le_refl _⟩

theorem isOpen_finish (outline : Outline) (usable : outline.phase ≠ .broken) :
    outline.finish.isOpen = false := by
  obtain ⟨level, phase, totals⟩ := outline
  cases phase with
  | broken => exact absurd rfl usable
  | opened series runs | closed => rfl
  | fresh =>
    rw [Outline.finish]
    split_ifs <;> rfl

/-- Only a member that was finished is left for the next one. -/
theorem reset_grows : Always Grows reset := by
  intro before
  cases broken : before.isBroken with
  | true =>
    have stays := operation_of_broken broken .reset
    rw [Request.operation] at stays
    rw [stays]
    exact .refl _
  | false =>
    obtain ⟨level, channel, phase, totals⟩ := before
    cases phase with
    | broken => simp [isBroken] at broken
    | fresh | closed => exact ⟨⟨[], ⟨rfl, Nat.le_refl _⟩, rfl, rfl, rfl⟩, Nat.le_refl _⟩
    | opened series runs =>
      have step := finish_grows ⟨level, channel, .opened series runs, totals⟩
      have follows := follows_finish broken
      have same : reset ⟨level, channel, .opened series runs, totals⟩ =
          (finish >>= fun _ => modify ({ · with phase := .fresh }))
            ⟨level, channel, .opened series runs, totals⟩ := rfl
      rw [same]
      simp only [bind, EStateM.bind]
      cases result : finish ⟨level, channel, .opened series runs, totals⟩ with
      | error _ after =>
        rw [result] at step
        exact step
      | ok _ after =>
        rw [result] at step
        have outline := follows.of_ok result
        have closed : after.outline.isOpen = false := by
          rw [outline]
          exact isOpen_finish _ (by simp [Encoder.outline])
        exact step.trans (rephase_grows closed)

theorem channel_grows {before : Encoder} {channel : Channel}
    (plainly : before.channel.GrowsPlainly channel) : before.Grows { before with channel } := by
  obtain ⟨fresh, channels, written, perturbed, members⟩ :=
    @Press.GrowsPlainly.grows ⟨.ofLevel before.level, before.channel⟩
      ⟨.ofLevel before.level, channel⟩ ⟨plainly, rfl, rfl⟩
  rw [Nat.left_eq_add] at written perturbed
  refine ⟨⟨fresh, channels, ?_, ?_, ?_⟩, Nat.le_refl _⟩
  · rw [members]
    rfl
  · rw [written]
    rfl
  · rw [perturbed]
    rfl

theorem flush_grows : Always Grows flush := by
  have plainly : Always Grows (onWriter BitWriter.flush) :=
    (Channel.onWriter_grows (BitWriter.act_grows .flush)).within fun _ _ channel =>
      channel_grows channel
  exact Always.bind .trans refuseIfBroken_grows fun _ => orBreak_grows plainly

theorem operation_grows (request : Request) : Always Grows request.operation := by
  cases request with
  | write bytes => exact write_grows bytes
  | writeByte byte => exact write_grows [byte]
  | sinkWrite bytes => exact write_grows bytes
  | sinkFlush => exact flush_grows
  | finish => exact finish_grows
  | reset => exact reset_grows

/-- The step lemma: no call, whether it fails or not, counts anything but what it notes. -/
theorem serve_grows (request : Request) (encoder : Encoder) :
    encoder.Grows (serve request encoder).2 := by
  have step := operation_grows request encoder
  rw [serve_eq]
  cases result : request.operation encoder with
  | ok _ after | error _ after =>
    rw [result] at step
    exact step

theorem serveAll_grows (requests : List Request) (encoder : Encoder) :
    encoder.Grows (serveAll requests encoder).2 := by
  induction requests generalizing encoder with
  | nil => exact .refl encoder
  | cons request rest ih => exact (serve_grows request encoder).trans (ih _)

/-- The counters of an encoder are the events of its journal. -/
structure Tallies (encoder : Encoder) : Prop where
  members : encoder.totals.members = encoder.channel.journal.countP Event.isMember
  blocks : encoder.blockCount = encoder.channel.journal.countP Event.isBlock
  perturbed : encoder.perturbedCount = encoder.channel.journal.countP Event.isPerturbed

theorem Tallies.perturbed_le {encoder : Encoder} (tallies : encoder.Tallies) :
    encoder.perturbedCount ≤ encoder.blockCount := by
  rw [tallies.perturbed, tallies.blocks]
  exact List.countP_mono_left fun _ _ => Event.isBlock_of_isPerturbed

theorem tallies_serveAll (level : Level) (sink : Sink) (requests : List Request) :
    (serveAll requests (ofSink level sink)).2.Tallies := by
  obtain ⟨⟨fresh, ⟨journal, _⟩, members, blocks, perturbed⟩, _⟩ :=
    serveAll_grows requests (ofSink level sink)
  have whole : (serveAll requests (ofSink level sink)).2.channel.journal = fresh := by
    rw [journal]
    exact List.append_nil fresh
  rw [← whole] at members blocks perturbed
  exact ⟨members.trans (Nat.zero_add _), blocks.trans (Nat.zero_add _),
    perturbed.trans (Nat.zero_add _)⟩

end Encoder

end BlockSort

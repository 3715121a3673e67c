import BlockSort.Proofs.Progress
import BlockSort.Proofs.Tally

/-!
The counters of an encoder describe what it wrote. Read back from a sink that never fails, its
output has as many members and blocks as the encoder has counted, and their data is as long.
-/
namespace BlockSort

open Encoder (Request)

theorem History.current_reset (history : History) : history.reset.current = [] := by
  rw [reset]
  split
  · rename_i empty
    exact List.isEmpty_iff.mp empty
  · rfl

namespace Draft

/-- The series of a complete member. -/
def closed (level : Level) (bytes : List UInt8) : Series :=
  ((ofLevel level).push bytes).ended.closeBlock

end Draft

namespace Decoder

/-- Members that were read back for byte strings. -/
structure Restores (level : Level) (segments : List (List UInt8)) (found : List Member) : Prop where
  data : found.map Member.data = segments
  blocks : (found.map fun member => member.blocks.length) =
    segments.map fun segment => (Draft.closed level segment).written
  randomised : (found.map fun member => member.blocks.countP Block.randomised) =
    segments.map fun segment => (Draft.closed level segment).perturbed

theorem memberBits_ne_nil (level : Level) (bytes : List UInt8) :
    Draft.memberBits level bytes ≠ [] := by
  intro vacant
  have empty := congrArg List.length vacant
  rw [Draft.memberBits, Action.extend, Draft.memberFields_eq, fieldBits_append,
    bits_headerFields] at empty
  simp at empty

/-- Padding is passed over when whole bytes follow. -/
theorem padding_replicate {count : Nat} (few : count < 8) {rest : List Bool}
    (aligned : rest.length % 8 = 0) :
    padding (List.replicate count false ++ rest) = some ((), rest) := by
  have left : (List.replicate count false ++ rest).length % 8 = count := by
    rw [List.length_append, List.length_replicate]
    omega
  rw [padding, left]
  simp

theorem members_spec (level : Level) (segments : List (List UInt8)) :
    ∃ found, Restores level segments found ∧ ∀ rounds, segments.length ≤ rounds →
      members rounds (segments.flatMap (Draft.memberBits level)) = some (found, []) := by
  induction segments with
  | nil =>
    refine ⟨[], ⟨rfl, rfl, rfl⟩, fun rounds _ => ?_⟩
    cases rounds <;> rfl
  | cons segment rest ih =>
    obtain ⟨found, restores, reads⟩ := ih
    obtain ⟨first, _, data, counts, taken⟩ := reads_member level segment
    refine ⟨first :: found, ⟨?_, ?_, ?_⟩, fun rounds enough => ?_⟩
    · rw [List.map_cons, data, restores.data]
    · have written := counts.written
      simp only [List.map_cons, restores.blocks]
      rw [Draft.closed, written]
      simp [Series.ofLevel]
    · have perturbed := counts.perturbed
      simp only [List.map_cons, restores.randomised]
      rw [Draft.closed, perturbed]
      simp [Series.ofLevel]
    · obtain ⟨rounds, rfl⟩ := Nat.exists_eq_succ_of_ne_zero (Nat.ne_zero_of_lt enough)
      have aligned := History.aligned_members level rest
      have nonempty : (Draft.memberBits level segment ++
          rest.flatMap (Draft.memberBits level)).isEmpty = false := by
        simp [memberBits_ne_nil]
      have others := reads rounds (Nat.le_of_succ_le_succ enough)
      rw [List.flatMap_cons, members]
      simp only [nonempty, Bool.false_eq_true, if_false]
      rw [Draft.memberBits, Action.extend, List.append_assoc]
      simp only [bind, StateT.bind, taken _, Option.bind_some,
        padding_replicate (Nat.mod_lt _ (by decide)) aligned, others]
      rfl

theorem decodeAll_spec {level : Level} {segments : List (List UInt8)} {bytes : List UInt8}
    (bits : Bits.ofBytes bytes = segments.flatMap (Draft.memberBits level)) :
    ∃ found, decodeAll bytes = some found ∧ Restores level segments found := by
  obtain ⟨found, restores, reads⟩ := members_spec level segments
  have enough : segments.length ≤ (segments.flatMap (Draft.memberBits level)).length := by
    rw [List.length_flatMap]
    refine le_of_eq_of_le (List.length_map _).symm (List.length_le_sum_of_one_le _ ?_)
    rintro _ member
    obtain ⟨segment, _, rfl⟩ := List.mem_map.mp member
    exact List.length_pos_of_ne_nil (memberBits_ne_nil level segment)
  refine ⟨found, ?_, restores⟩
  rw [decodeAll, bits, reads _ enough]
  rfl

end Decoder

namespace Outline

/-- The counters of an outline count what its history has. -/
structure Counts (level : Level) (history : History) (outline : Outline) : Prop where
  members : outline.totals.members =
    history.members.length + if history.current.isEmpty then 0 else 1
  blocks : outline.totals.blocks =
    (history.members.map fun segment => (Draft.closed level segment).written).sum
  perturbed : outline.totals.perturbed =
    (history.members.map fun segment => (Draft.closed level segment).perturbed).sum
  bytesIn : outline.totals.bytesIn =
    (history.members.map List.length).sum + history.current.length

namespace Counts

variable {level : Level} {history : History} {outline : Outline}

theorem fresh (level : Level) : Counts level {} ⟨level, .fresh, {}⟩ := ⟨rfl, rfl, rfl, rfl⟩

/-- A member that is open counts, also one that was just begun for this. -/
theorem begun (counts : outline.Counts level history) (tracks : outline.Tracks level history) :
    outline.begun.totals.members = history.members.length + 1 := by
  have isOpen := tracks.isOpen
  have members := counts.members
  rw [Outline.isOpen] at isOpen
  rw [Outline.begun]
  cases shape : outline.phase with
  | opened series runs =>
    rw [shape] at isOpen
    rw [members]
    simp_all
  | fresh | closed | broken =>
    rw [shape] at isOpen
    simp_all

theorem write (counts : outline.Counts level history) (tracks : outline.Tracks level history)
    (bytes : List UInt8) : (outline.write bytes).Counts level (history.write bytes) := by
  rw [Outline.write, History.write]
  cases empty : bytes.isEmpty with
  | true =>
    rw [if_pos rfl, List.isEmpty_iff.mp empty, List.append_nil]
    exact counts
  | false =>
    have nonempty : bytes ≠ [] := by simpa using empty
    obtain ⟨blocks, perturbed⟩ := Encoder.begun_blocks outline
    rw [if_neg (by simp)]
    refine ⟨?_, blocks.trans counts.blocks, perturbed.trans counts.perturbed, ?_⟩
    · rw [if_neg (by simp [nonempty])]
      exact counts.begun tracks
    · rw [List.length_append, ← Nat.add_assoc, ← counts.bytesIn]

theorem ended (counts : outline.Counts level history) (tracks : outline.Tracks level history) :
    outline.ended.Counts level history.complete := by
  have drafted : outline.draft.ended.closeBlock = Draft.closed level history.current := by
    rw [tracks.draft]
    rfl
  rw [Outline.ended, History.complete, drafted]
  refine ⟨?_, ?_, ?_, ?_⟩
  · rw [List.length_append]
    exact counts.begun tracks
  · rw [List.map_append, List.sum_append, ← counts.blocks]
    rfl
  · rw [List.map_append, List.sum_append, ← counts.perturbed]
    rfl
  · rw [List.map_append, List.sum_append]
    exact (Encoder.begun_bytesIn outline).trans counts.bytesIn

theorem rephase (counts : outline.Counts level history) (phase : Phase) :
    Counts level history { outline with phase } :=
  ⟨counts.members, counts.blocks, counts.perturbed, counts.bytesIn⟩

theorem finish (counts : outline.Counts level history) (tracks : outline.Tracks level history) :
    outline.finish.Counts level history.finish := by
  rw [Outline.finish, tracks.mustEnd, History.finish]
  cases history.current.isEmpty && !history.members.isEmpty with
  | false => exact counts.ended tracks
  | true =>
    simp only [Bool.not_true, Bool.false_eq_true, if_true, if_false]
    cases outline.phase with
    | fresh => exact counts.rephase _
    | opened series runs | closed | broken => exact counts

theorem reset (counts : outline.Counts level history) (tracks : outline.Tracks level history) :
    outline.reset.Counts level history.reset := by
  rw [Outline.reset, tracks.isOpen, History.reset]
  cases history.current.isEmpty with
  | false => exact (counts.ended tracks).rephase _
  | true => exact counts.rephase _

theorem step (counts : outline.Counts level history) (tracks : outline.Tracks level history)
    (request : Request) : (request.next outline).Counts level (history.step request) := by
  cases request with
  | write bytes | sinkWrite bytes => exact counts.write tracks bytes
  | writeByte byte => exact counts.write tracks [byte]
  | sinkFlush => exact counts
  | finish => exact counts.finish tracks
  | reset => exact counts.reset tracks

end Counts

end Outline

namespace Encoder

/-- How an encoder stands after some calls at a sink that never fails. The record of its writer
holds the bits of its history. -/
structure Recorded (level : Level) (first : List UInt8) (history : History) (encoder : Encoder) :
    Prop where
  tracks : encoder.outline.Tracks level history
  counts : encoder.outline.Counts level history
  ledger : ∃ ledger : Ledger, ledger.writer = encoder.writer ∧ ledger.Flawless first ∧
    ledger.stream = history.bits level
  drained : history.current = [] → encoder.writer.ready = #[]

namespace Recorded

variable {level : Level} {first : List UInt8} {history : History} {encoder : Encoder}

theorem start (level : Level) {sink : Sink} (lenient : sink.Lenient) :
    Recorded level sink.data.toList {} (ofSink level sink) :=
  ⟨.fresh level, .fresh level,
    ⟨.ofSink sink, rfl, ⟨Ledger.ofSink_kept sink, lenient, by simp [Ledger.ofSink]⟩, rfl⟩,
    fun _ => rfl⟩

theorem usable (recorded : Recorded level first history encoder) : encoder.isBroken = false := by
  have phase := recorded.tracks.phase
  rw [isBroken]
  cases shape : encoder.phase with
  | broken => simp only [outline, shape] at phase
  | fresh | closed | opened series runs => rfl

/-- The step lemma: a call succeeds and is recorded. -/
theorem step (recorded : Recorded level first history encoder) (request : Request) :
    ∃ after, serve request encoder = (request.success, after) ∧
      Recorded level first (history.step request) after := by
  obtain ⟨ledger, same, flawless, stream⟩ := recorded.ledger
  have leads := recorded.tracks.leads_step request
  obtain ⟨final, performed, fine, bits⟩ := Ledger.perform_flawless leads.narrow flawless
  have wrote : BitWriter.perform (request.actions encoder.outline) encoder.writer =
      .ok () final.writer := by
    rw [← same, Ledger.perform_writer, performed]
  have follows := follows_operation recorded.usable request
  rw [Follows] at follows
  simp only [wrote] at follows
  obtain ⟨after, success, writer, outline⟩ := follows
  refine ⟨after, by rw [serve_eq, success], ?_⟩
  refine ⟨outline ▸ recorded.tracks.step request,
    outline ▸ recorded.counts.step recorded.tracks request, ⟨final, writer.symm, fine, ?_⟩,
    fun empty => ?_⟩
  · rw [bits, stream]
    exact leads.bits [] _ rfl [] rfl rfl
  · rcases leads.drained empty with ⟨nothing, still⟩ | ⟨front, last, shape, drains⟩
    · rw [nothing] at wrote
      simp only [BitWriter.perform, EStateM.Result.ok.injEq, true_and] at wrote
      rw [writer, ← wrote]
      exact recorded.drained still
    · rw [shape] at wrote
      rw [writer]
      exact BitWriter.ready_of_perform drains wrote

theorem serveAll (recorded : Recorded level first history encoder) (requests : List Request) :
    Recorded level first (History.after requests history) (Encoder.serveAll requests encoder).2 := by
  induction requests generalizing history encoder with
  | nil => exact recorded
  | cons request rest ih =>
    obtain ⟨middle, served, next⟩ := recorded.step request
    have further := ih next
    simp only [Encoder.serveAll, served]
    exact further

/-- Between members no framer holds counts of its own. -/
theorem settled (recorded : Recorded level first history encoder) (empty : history.current = []) :
    encoder.blockCount = encoder.totals.blocks ∧
      encoder.perturbedCount = encoder.totals.perturbed := by
  refine counts_of_left fun series runs opened => ?_
  have isOpen := recorded.tracks.isOpen
  simp [empty, Outline.isOpen, outline, opened] at isOpen

theorem moved_bits {ledger : Ledger} (flawless : ledger.Flawless first)
    (stream : ledger.stream = history.bits level) (empty : history.current = []) :
    Bits.ofBytes ledger.moved = history.members.flatMap (Draft.memberBits level) := by
  have bits : history.bits level = history.members.flatMap (Draft.memberBits level) := by
    rw [History.bits, empty, Draft.draftBits, List.isEmpty_nil, if_pos rfl, List.append_nil]
  have held := flawless.tidy.held_lt
  have size := congrArg List.length stream
  have members := History.aligned_members level history.members
  rw [Ledger.stream, bits, List.length_append, Bits.length_ofBytes,
    BitWriter.length_partialBits] at size
  have drained : ledger.writer.partialBits = [] :=
    List.eq_nil_of_length_eq_zero (by rw [BitWriter.length_partialBits]; omega)
  rw [← bits, ← stream, Ledger.stream, drained, List.append_nil]

/-- Between members, the counters are those of the members read back from the sink. -/
theorem counted (recorded : Recorded level first history encoder) (empty : history.current = []) :
    ∃ output found, encoder.sink.data.toList = first ++ output ∧
      Decoder.decodeAll output = some found ∧
      found.length = encoder.totals.members ∧
      (found.map fun member => member.blocks.length).sum = encoder.blockCount ∧
      (found.map fun member => member.blocks.countP Decoder.Block.randomised).sum =
        encoder.perturbedCount ∧
      (found.map fun member => member.data.length).sum = encoder.bytesIn ∧
      output.length = encoder.bytesOut := by
  obtain ⟨ledger, same, flawless, stream⟩ := recorded.ledger
  have counts := recorded.counts
  have whole := flawless.whole
  rw [same, recorded.drained empty, List.append_nil] at whole
  obtain ⟨found, decoded, restores⟩ :=
    Decoder.decodeAll_spec (moved_bits flawless stream empty)
  obtain ⟨blocks, perturbed⟩ := recorded.settled empty
  refine ⟨ledger.moved, found, whole, decoded, ?_, ?_, ?_, ?_, ?_⟩
  · have size := congrArg List.length restores.data
    have members := counts.members
    rw [empty] at members
    rw [List.length_map] at size
    exact size.trans members.symm
  · rw [restores.blocks, blocks]
    exact counts.blocks.symm
  · rw [restores.randomised, perturbed]
    exact counts.perturbed.symm
  · have lengths : (found.map fun member => member.data.length) =
        history.members.map List.length := by
      rw [← restores.data, List.map_map]
      rfl
    have bytesIn := counts.bytesIn
    rw [empty] at bytesIn
    rw [lengths]
    exact bytesIn.symm
  · rw [← flawless.counted, same]
    rfl

end Recorded

/-- No counter of an encoder decreases. -/
structure Rises (before after : Encoder) : Prop where
  members : before.totals.members ≤ after.totals.members
  blocks : before.blockCount ≤ after.blockCount
  perturbed : before.perturbedCount ≤ after.perturbedCount
  bytesIn : before.bytesIn ≤ after.bytesIn
  bytesOut : before.bytesOut ≤ after.bytesOut

theorem Grows.rises {before after : Encoder} (grows : before.Grows after) :
    before.Rises after := by
  obtain ⟨⟨fresh, ⟨_, bytes⟩, members, blocks, perturbed⟩, bytesIn⟩ := grows
  exact ⟨members ▸ Nat.le_add_right _ _, blocks ▸ Nat.le_add_right _ _,
    perturbed ▸ Nat.le_add_right _ _, bytesIn, bytes⟩

/-- At any sink, and whether calls fail or not, no counter ever decreases, the members and blocks
counted are those noted in the journal, and no more blocks are perturbed than there are. At a sink
that never fails, once a member is finished or left by a reset, what was added to the sink is read
back as just so many members and blocks, and it and its data are as long as counted. -/
theorem serveAll_counted (level : Level) (sink : Sink) (requests : List Request) :
    let encoder := (serveAll requests (ofSink level sink)).2
    encoder.Tallies ∧ encoder.perturbedCount ≤ encoder.blockCount ∧
    (∀ request, encoder.Rises (serve request encoder).2) ∧
    ∀ last, last = .finish ∨ last = .reset → sink.Lenient →
      let final := (serve last encoder).2
      ∃ output found, final.sink.data.toList = sink.data.toList ++ output ∧
        Decoder.decodeAll output = some found ∧
        found.length = final.totals.members ∧
        (found.map fun member => member.blocks.length).sum = final.blockCount ∧
        (found.map fun member => member.blocks.countP Decoder.Block.randomised).sum =
          final.perturbedCount ∧
        (found.map fun member => member.data.length).sum = final.bytesIn ∧
        output.length = final.bytesOut := by
  intro encoder
  have tallies : encoder.Tallies := tallies_serveAll level sink requests
  refine ⟨tallies, tallies.perturbed_le, fun request => (serve_grows request encoder).rises,
    fun last closing lenient => ?_⟩
  have recorded := (Recorded.start level lenient).serveAll requests
  obtain ⟨after, served, final⟩ := recorded.step last
  have empty : ((History.after requests {}).step last).current = [] := by
    rcases closing with rfl | rfl
    · exact History.current_finish _
    · exact History.current_reset _
  simp only [encoder, served]
  exact final.counted empty

/-- The counters of an encoder that is finished twice with bytes in between. -/
theorem serveAll_counted_twice :
    let sink : Sink := {}
    let encoder := (serveAll [.write [1, 2], .finish, .reset, .writeByte 3]
      (ofSink Level.greatest sink)).2
    (Request.finish = .finish ∨ Request.finish = .reset) ∧ sink.Lenient ∧
      ∃ output found, (serve .finish encoder).2.sink.data.toList = sink.data.toList ++ output ∧
        Decoder.decodeAll output = some found ∧
        found.length = (serve .finish encoder).2.totals.members := by
  intro sink encoder
  have lenient : sink.Lenient := ⟨by decide, by decide⟩
  obtain ⟨output, found, data, decoded, members, _⟩ :=
    (serveAll_counted Level.greatest sink _).2.2.2 .finish (.inl rfl) lenient
  exact ⟨.inl rfl, lenient, output, found, data, decoded, members⟩

end Encoder

end BlockSort

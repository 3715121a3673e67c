import BlockSort.Proofs.Extent
import BlockSort.Proofs.Turns

namespace BlockSort

open Compressor (drive_of_done drive_of_undone)

namespace StreamCompressor

theorem deliver_modest {consumed room : Nat} {compressor after : StreamCompressor}
    {delivery : Delivery} (answered : deliver consumed room compressor = .ok delivery after) :
    delivery.consumed = consumed ∧ delivery.produced.length ≤ room := by
  have few : (compressor.takeWaiting room).1.length ≤ room := by
    rw [takeWaiting_fst]
    exact List.length_take_le _ _
  rw [deliver] at answered
  simp only at answered
  split at answered
  · cases answered
    exact ⟨rfl, few⟩
  · split at answered <;> cases answered <;> exact ⟨rfl, few⟩

/-- No call takes more than its input or produces more than there is room for. -/
theorem call_modest : Compressor.Modest call := by
  intro input room demand compressor delivery after answered
  simp only [call, bind, EStateM.bind, get, getThe, MonadStateOf.get, EStateM.get] at answered
  split at answered
  · cases answered
  · split at answered
    · cases answered
      exact ⟨Nat.zero_le _, Nat.zero_le _⟩
    · simp only [EStateM.bind] at answered
      cases wrote : onEncoder (Encoder.write input) compressor with
      | error fault failed => simp only [wrote] at answered; cases answered
      | ok _ written =>
        cases obeyed : obey demand written with
        | error fault failed => simp only [wrote, obeyed] at answered; cases answered
        | ok _ ready =>
          simp only [wrote, obeyed] at answered
          obtain ⟨consumed, few⟩ := deliver_modest answered
          exact ⟨consumed.le, few⟩

variable {level : Level} {history : History} {sent output : List UInt8}
  {compressor : StreamCompressor}

/-- A call that demands the end is done, or it fills its buffer. -/
theorem Delivers.call_finish (delivers : Delivers level history sent compressor)
    (going : compressor.ended = false)
    (compressed : compressAll level history.finish.members = .ok output) :
    ∃ delivery after, call [] 32768 .finish compressor = .ok delivery after ∧
      Delivers level history.finish (sent ++ delivery.produced) after ∧
      (delivery.status = .done ∧ sent ++ delivery.produced = output ∨
        delivery.status ≠ .done ∧ after.ended = false ∧ delivery.produced.length = 32768 ∧
          sent.length + 32768 < output.length) := by
  obtain ⟨delivery, middle, after, answered, before, next, delivered, -, ending, ended⟩ :=
    delivers.run ⟨[], 32768, .finish⟩ (fun _ => rfl) going
  have recorded : Call.record history ⟨[], 32768, .finish⟩ = history.finish := by
    rw [Call.record, History.write, List.append_nil]
    rfl
  rw [recorded] at before next
  have whole := before.all (History.current_finish history)
  obtain rfl : output = sent ++ middle.undelivered := Except.ok.inj (compressed.symm.trans whole)
  refine ⟨delivery, after, answered, next, ?_⟩
  rw [delivered.produced]
  by_cases done : delivery.status = .done
  · have all := (delivered.done.mp done).1
    rw [delivered.left, List.drop_eq_nil_iff] at all
    exact .inl ⟨done, by rw [List.take_of_length_le all]⟩
  · have waits : after.undelivered ≠ [] := fun emptied =>
      done (delivered.done.mpr ⟨emptied, by rw [ending]; simp [Call.finishes]⟩)
    rw [delivered.left, ne_eq, List.drop_eq_nil_iff, not_le] at waits
    refine .inr ⟨done, by rw [ended]; simp [done], ?_, ?_⟩
    · exact List.length_take_of_le waits.le
    · rw [List.length_append]
      exact Nat.add_lt_add_left waits _

theorem Delivers.drive_finish (delivers : Delivers level history sent compressor)
    (going : compressor.ended = false)
    (compressed : compressAll level history.finish.members = .ok output) {calls : Nat}
    (enough : output.length ≤ sent.length + 32768 * (calls + 1)) :
    ∃ rest after, Compressor.drive call (calls + 1) [] compressor = .ok (some rest) after ∧
      sent ++ rest = output := by
  induction calls generalizing history sent compressor with
  | zero =>
    obtain ⟨delivery, after, answered, -, ⟨done, whole⟩ | ⟨-, -, -, more⟩⟩ :=
      delivers.call_finish going compressed
    · exact ⟨delivery.produced, after, drive_of_done answered done, whole⟩
    · omega
  | succ calls ih =>
    obtain ⟨delivery, after, answered, next, ⟨done, whole⟩ | ⟨undone, still, full, -⟩⟩ :=
      delivers.call_finish going compressed
    · exact ⟨delivery.produced, after, drive_of_done answered done, whole⟩
    · have settled : history.finish.finish = history.finish :=
        History.finish_settled ⟨History.current_finish _, History.members_finish _⟩
      have fewer : output.length ≤ (sent ++ delivery.produced).length + 32768 * (calls + 1) := by
        rw [List.length_append, full, Nat.add_assoc, Nat.add_comm 32768, ← Nat.mul_succ]
        exact enough
      obtain ⟨rest, last, others, whole⟩ := ih next still (by rwa [settled]) fewer
      refine ⟨delivery.produced ++ rest, last, ?_, by rw [← List.append_assoc, whole]⟩
      rw [drive_of_undone answered undone, List.drop_nil, others]
      rfl

/-- A first call takes all of the input, if there is any, and the others deliver the output. -/
theorem drive_reset (used : StreamCompressor) {data : List UInt8} {output : Array UInt8}
    (compressed : compress data used.encoder.level = .ok output) :
    ∃ after, Compressor.drive call (output.size / 32768 + 2) data used.reset =
      .ok (some output.toList) after := by
  have start : Delivers used.encoder.level {} [] used.reset := .start used.encoder.level
  have members : (History.write {} data).finish.members = [data] := by
    simp [History.finish, History.write, History.complete]
  have all : compressAll used.encoder.level (History.write {} data).finish.members =
      .ok output.toList := by
    rw [members, compressAll, compressed]
    simp [compressAll, bind, Except.bind, pure, Except.pure]
  have few (sent : List UInt8) :
      output.toList.length ≤ sent.length + 32768 * (output.size / 32768 + 1) := by
    rw [Array.length_toList]
    omega
  by_cases vacant : data = []
  · subst vacant
    obtain ⟨rest, after, ran, whole⟩ := start.drive_finish rfl all
      ((few []).trans (Nat.add_le_add_left (Nat.mul_le_mul_left _ (Nat.le_succ _)) _))
    exact ⟨after, whole ▸ ran⟩
  · obtain ⟨delivery, middle, after, answered, -, next, delivered, consumed, ending, ended⟩ :=
      start.run ⟨data, 32768, .none⟩ (fun ending => absurd ending Bool.false_ne_true) rfl
    have undone : delivery.status ≠ .done := fun done =>
      Bool.false_ne_true (ending.symm.trans (delivered.done.mp done).2)
    obtain ⟨rest, last, ran, whole⟩ :=
      next.drive_finish (by rw [ended]; simp [undone]) all (few _)
    have demanded : (if data.isEmpty then Demand.finish else .none) = .none := by simp [vacant]
    refine ⟨last, ?_⟩
    rw [drive_of_undone (demanded ▸ answered) undone, consumed, List.drop_length, ran, ← whole]
    rfl

/-- A compressor that was just reset is done after as many calls as the output has full buffers, and
two more. -/
theorem drive_compress (used : StreamCompressor) (data : List UInt8) :
    ∃ output after, compress data used.encoder.level = .ok output ∧
      ∀ calls, output.size / 32768 + 2 ≤ calls →
        Compressor.drive call calls data used.reset = .ok (some output.toList) after := by
  obtain ⟨output, compressed, -⟩ := Encoder.compress_bits data used.encoder.level
  obtain ⟨after, least⟩ := used.drive_reset compressed
  refine ⟨output, after, compressed, fun calls most => ?_⟩
  obtain ⟨more, rfl⟩ := Nat.exists_eq_add_of_le most
  rw [Compressor.drive_add (by rw [least]; trivial) more, least]

theorem callBound_enough (used : StreamCompressor) {data : List UInt8} {output : Array UInt8}
    (compressed : compress data used.encoder.level = .ok output) :
    output.size / 32768 + 2 ≤ used.reset.callBound data := by
  have empty : used.reset.waiting = 0 := rfl
  have fresh : used.reset.encoder.bytesIn = 0 := rfl
  have extent := size_compress_le compressed
  rw [callBound, empty, fresh, Nat.zero_add, Nat.zero_add]
  rw [blockBound] at extent ⊢
  omega

end StreamCompressor

theorem Script.play_modest : Compressor.Modest play := by
  intro input room demand script delivery after answered
  rw [play] at answered
  obtain ⟨replies, calls⟩ := script
  match replies with
  | [] =>
    cases answered
    exact ⟨Nat.zero_le _, Nat.zero_le _⟩
  | .fail :: _ => cases answered
  | .deliver consumed produced status :: _ =>
    cases answered
    exact ⟨Nat.min_le_right _ _, by simp⟩

namespace Compressor

/-- Driving any compressor that keeps to what it is given calls it with the rest of the input each
time, and demands the end once there is none. If it comes to an end, this is the first call that is
done or the first that fails; then the output is what all calls have produced, or the fault is
passed on, and more calls would make no difference. A stream compressor keeps to what it is given,
and when it was just reset it comes to an end with the compressed form of the input, whatever its
length. -/
theorem drive_exact :
    (∀ {σ : Type} (compressor : Compressor σ), compressor.Modest →
      ∀ (calls : Nat) (input : List UInt8) (state : σ),
        (∃ turns, compressor.recorded.drive calls input (state, []) =
            keep turns (compressor.drive calls input state) ∧
          Driven input turns ∧ Ends calls turns (compressor.drive calls input state)) ∧
        (Ended (compressor.drive calls input state) → ∀ more,
          compressor.drive (calls + more) input state = compressor.drive calls input state)) ∧
    Modest StreamCompressor.call ∧
    ∀ (used : StreamCompressor) (data : List UInt8), ∃ output after,
      compress data used.encoder.level = .ok output ∧
      StreamCompressor.compressWhole data used.reset = .ok (some output.toList) after ∧
      ∀ calls, output.size / 32768 + 2 ≤ calls →
        drive StreamCompressor.call calls data used.reset = .ok (some output.toList) after := by
  refine ⟨fun compressor modest calls input state =>
    ⟨drive_recorded modest calls input state [], drive_add⟩, StreamCompressor.call_modest,
    fun used data => ?_⟩
  obtain ⟨output, after, compressed, ran⟩ := StreamCompressor.drive_compress used data
  exact ⟨output, after, compressed, ran _ (used.callBound_enough compressed), ran⟩

/-- A script of three calls, the first of which leaves some of the input. -/
theorem drive_exact_script :
    let script : Script :=
      { replies := [.deliver 2 3 .needsOutput, .deliver 9 1 .needsInput, .deliver 0 2 .done] }
    Modest Script.play ∧
    (∃ after, drive Script.play 4 [7, 8, 9] script = .ok (some [1, 1, 1, 2, 3, 3]) after) ∧
    (∃ turns, drive (recorded Script.play) 4 [7, 8, 9] (script, []) =
        keep turns (drive Script.play 4 [7, 8, 9] script) ∧
      Driven [7, 8, 9] turns ∧ Ends 4 turns (drive Script.play 4 [7, 8, 9] script)) ∧
    ∃ output after, compress [7, 8, 9] Level.least = .ok output ∧
      StreamCompressor.compressWhole [7, 8, 9] (.ofLevel .least) =
        .ok (some output.toList) after := by
  intro script
  obtain ⟨output, after, compressed, whole, -⟩ :=
    drive_exact.2.2 (.ofLevel Level.least) [7, 8, 9]
  exact ⟨Script.play_modest, ⟨_, rfl⟩, (drive_exact.1 _ Script.play_modest 4 [7, 8, 9] script).1,
    output, after, compressed, whole⟩

end Compressor

end BlockSort

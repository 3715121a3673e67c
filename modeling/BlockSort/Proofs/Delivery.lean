import BlockSort.StreamCompressor
import BlockSort.Proofs.Segments

/-!
What a compressor delivers when it is driven call by call. The bytes produced and those that wait
are together what its encoder has written, in every state that calls can lead to; once the end was
demanded, that is the whole output, and calls only deliver the rest of it.
-/
namespace BlockSort

open Encoder (Reached)

/-- What a demand does to the members. -/
def History.obey (history : History) : Demand → History
  | .none | .sync => history
  | .full => history.reset
  | .finish => history.finish

namespace StreamCompressor

/-- The bytes that wait for delivery. -/
def undelivered (compressor : StreamCompressor) : List UInt8 :=
  compressor.encoder.sink.data.toList.drop compressor.delivered

theorem length_undelivered (compressor : StreamCompressor) :
    compressor.undelivered.length = compressor.waiting := by
  simp [undelivered, waiting]

theorem takeWaiting_fst (compressor : StreamCompressor) (room : Nat) :
    (compressor.takeWaiting room).1 = compressor.undelivered.take room := by
  simp [takeWaiting, undelivered]

/-- The arguments of a call. -/
structure Call where
  input : List UInt8
  room : Nat
  demand : Demand

namespace Call

def run (next : Call) : EStateM Fault StreamCompressor Delivery :=
  call next.input next.room next.demand

/-- Whether a call demands the end of the output. -/
def finishes (next : Call) : Bool := next.demand = .finish

/-- What a call adds to the history. -/
def record (history : History) (next : Call) : History :=
  (history.write next.input).obey next.demand

/-- The history of calls. Once the end of the output was demanded, nothing is added. -/
def recordAll (history : History) : List Call → History
  | [] => history
  | next :: rest =>
    if next.finishes then next.record history else recordAll (next.record history) rest

/-- The answer to a call. -/
def answer (next : Call) (compressor : StreamCompressor) :
    Except Fault Delivery × StreamCompressor :=
  match next.run compressor with
  | .ok delivery after => (.ok delivery, after)
  | .error fault after => (.error fault, after)

/-- Answers calls in order, the failed ones included. -/
def answerAll : List Call → StreamCompressor → List (Except Fault Delivery) × StreamCompressor
  | [], compressor => ([], compressor)
  | next :: rest, compressor =>
    match next.answer compressor with
    | (answer, compressor) =>
      match answerAll rest compressor with
      | (answers, compressor) => (answer :: answers, compressor)

end Call

/-- The bytes that an answer delivers. -/
def producedBy : Except Fault Delivery → List UInt8
  | .ok delivery => delivery.produced
  | .error _ => []

/-- Whether an answer tells that all is done. -/
def isDone : Except Fault Delivery → Bool
  | .ok delivery => delivery.status = .done
  | .error _ => false

/-- What a call delivers of the bytes that wait, and what it tells about the others. -/
structure Delivered (room : Nat) (before after : StreamCompressor) (delivery : Delivery) :
    Prop where
  produced : delivery.produced = before.undelivered.take room
  left : after.undelivered = before.undelivered.drop room
  more : delivery.status = .needsOutput ↔ after.undelivered ≠ []
  done : delivery.status = .done ↔ after.undelivered = [] ∧ after.ending = true

/-- The compressor has delivered `sent` of what it was given to compress. -/
structure Delivers (level : Level) (history : History) (sent : List UInt8)
    (compressor : StreamCompressor) : Prop where
  within : compressor.delivered ≤ compressor.encoder.sink.data.size
  reached : ∃ taken, Reached level [] taken history compressor.encoder ∧
    sent = taken ++ compressor.encoder.sink.data.toList.take compressor.delivered
  settled : compressor.ending = true → history.current = [] ∧ history.members ≠ []
  ended : compressor.ended = true → compressor.ending = true ∧ compressor.undelivered = []

theorem reached_dropped {level : Level} {earlier taken : List UInt8} {history : History}
    {encoder : Encoder} (reached : Reached level earlier taken history encoder) :
    Reached level earlier (taken ++ encoder.sink.data.toList) history
      { encoder with channel.writer.sink.data := #[] } := by
  obtain ⟨tracks, ⟨writes, flushes⟩, ⟨held, clear⟩, stream, drained⟩ := reached
  refine ⟨tracks, ⟨writes, flushes⟩, ⟨held, clear⟩, ?_, drained⟩
  rw [← stream]
  simp only [BitWriter.stream, Bits.ofBytes_append, List.append_assoc]
  rfl

theorem onEncoder_eq {operation : EStateM Fault Encoder Unit} {compressor : StreamCompressor}
    {encoder : Encoder} (success : operation compressor.encoder = .ok () encoder) :
    onEncoder operation compressor = .ok () { compressor with encoder } := by
  simp only [onEncoder, within, success]

theorem obey_reached {level : Level} {earlier taken : List UInt8} {history : History}
    (compressor : StreamCompressor)
    (reached : Reached level earlier taken history compressor.encoder) (demand : Demand) :
    ∃ encoder,
      obey demand compressor = .ok () { compressor with
        encoder, ending := compressor.ending || decide (demand = .finish) } ∧
      Reached level earlier taken (history.obey demand) encoder ∧
      compressor.encoder.sink.data.toList <+: encoder.sink.data.toList := by
  cases demand with
  | none =>
    refine ⟨compressor.encoder, ?_, reached, List.prefix_refl _⟩
    simp [obey, pure, EStateM.pure]
  | sync =>
    obtain ⟨encoder, success, next, grown⟩ := reached.operation .sinkFlush
    have done : onEncoder Encoder.flush compressor = _ := onEncoder_eq success
    exact ⟨encoder, by simpa [obey] using done, next, grown⟩
  | full =>
    obtain ⟨encoder, success, next, grown⟩ := reached.operation .reset
    have done : onEncoder Encoder.reset compressor = _ := onEncoder_eq success
    exact ⟨encoder, by simpa [obey] using done, next, grown⟩
  | finish =>
    obtain ⟨encoder, success, next, grown⟩ := reached.operation .finish
    refine ⟨encoder, ?_, next, grown⟩
    have done : onEncoder Encoder.finish compressor = _ := onEncoder_eq success
    simp [obey, bind, EStateM.bind, done, modify, modifyGet, MonadStateOf.modifyGet,
      EStateM.modifyGet]

theorem Call.record_settled {history : History} {next : Call}
    (settled : history.current = [] ∧ history.members ≠ []) (silent : next.input = []) :
    next.record history = history := by
  obtain ⟨members, current⟩ := history
  obtain ⟨empty, begun⟩ : current = [] ∧ members ≠ [] := settled
  subst empty
  rw [record, silent]
  cases next.demand <;> simp [History.write, History.obey, History.reset, History.finish, begun]

namespace Delivers

variable {level : Level} {history : History} {sent : List UInt8} {compressor : StreamCompressor}

theorem start (level : Level) : Delivers level {} [] (ofLevel level) := by
  refine ⟨Nat.zero_le _, ⟨[], .start_empty level, rfl⟩, ?_, ?_⟩ <;> simp [ofLevel]

/-- What was delivered and what waits is all that was written. -/
theorem whole (delivers : Delivers level history sent compressor) :
    ∃ taken, Reached level [] taken history compressor.encoder ∧
      sent ++ compressor.undelivered = taken ++ compressor.encoder.sink.data.toList := by
  obtain ⟨taken, reached, rfl⟩ := delivers.reached
  exact ⟨taken, reached, by rw [undelivered, List.append_assoc, List.take_append_drop]⟩

/-- It is the beginning of the output that there would be if the end was demanded. -/
theorem part (delivers : Delivers level history sent compressor) :
    ∃ output, compressAll level history.finish.members = .ok output ∧
      sent ++ compressor.undelivered <+: output := by
  obtain ⟨taken, reached, bytes⟩ := delivers.whole
  obtain ⟨output, compressed, part⟩ := reached.part
  exact ⟨output, compressed, bytes ▸ part⟩

theorem all (delivers : Delivers level history sent compressor) (empty : history.current = []) :
    compressAll level history.members = .ok (sent ++ compressor.undelivered) := by
  obtain ⟨taken, reached, bytes⟩ := delivers.whole
  obtain ⟨output, compressed, same⟩ := reached.output empty
  rw [compressed, bytes, same, List.nil_append]

theorem encoded (delivers : Delivers level history sent compressor) (next : Call)
    (timely : compressor.ending = true → next.input = []) (going : compressor.ended = false) :
    ∃ middle after, onEncoder (Encoder.write next.input) compressor = .ok () middle ∧
      obey next.demand middle = .ok () after ∧
      Delivers level (next.record history) sent after ∧
      after.ending = (compressor.ending || next.finishes) ∧ after.ended = false := by
  obtain ⟨within, ⟨taken, reached, rfl⟩, settled, _⟩ := delivers
  obtain ⟨written, success, wrote, longer⟩ := reached.operation (.write next.input)
  obtain ⟨encoder, obeyed, final, grown⟩ :=
    obey_reached { compressor with encoder := written } wrote next.demand
  obtain ⟨more, data⟩ := longer.trans grown
  refine ⟨_, _, onEncoder_eq success, obeyed, ⟨?_, ⟨taken, final, ?_⟩, ?_, ?_⟩, rfl, going⟩
  · have size := congrArg List.length data
    simp only [List.length_append, Array.length_toList] at size
    simp only
    omega
  · have kept : compressor.delivered ≤ compressor.encoder.sink.data.toList.length := by
      simpa using within
    simp only [← data, List.take_append_of_le_length kept]
  · intro ending
    simp only [Bool.or_eq_true, decide_eq_true_eq] at ending
    rcases ending with before | finishing
    · rw [Call.record_settled (settled before) (timely before)]
      exact settled before
    · rw [Call.record, finishing]
      exact ⟨History.current_finish _, History.members_finish _⟩
  · intro ended
    exact absurd ended (by simp [going])

theorem taken (delivers : Delivers level history sent compressor) (room : Nat) :
    Delivers level history (sent ++ compressor.undelivered.take room)
        (compressor.takeWaiting room).2 ∧
      (compressor.takeWaiting room).2.undelivered = compressor.undelivered.drop room := by
  obtain ⟨within, ⟨taken, reached, rfl⟩, settled, ended⟩ := delivers
  have count : (compressor.encoder.sink.data.extract compressor.delivered
      (compressor.delivered + room)).size = min room compressor.undelivered.length := by
    rw [Array.size_extract, length_undelivered, waiting]
    omega
  have length := compressor.length_undelivered
  rw [waiting] at length
  rw [takeWaiting]
  simp only [count]
  split
  · rename_i all
    have rest : compressor.undelivered.drop room = [] := List.drop_of_length_le (by omega)
    have first : compressor.undelivered.take room = compressor.undelivered :=
      List.take_of_length_le (by omega)
    refine ⟨⟨Nat.zero_le _, ⟨_, reached_dropped reached, ?_⟩, settled, fun done => ?_⟩, ?_⟩
    · rw [first, undelivered, List.append_assoc, List.take_append_drop]
      simp
    · exact ⟨(ended done).1, rfl⟩
    · rw [rest]
      rfl
  · rename_i fewer
    have moved : compressor.encoder.sink.data.toList.drop
        (compressor.delivered + min room compressor.undelivered.length) =
        compressor.undelivered.drop room := by
      rw [← List.drop_drop, ← undelivered, ← List.drop_eq_drop_min]
    refine ⟨⟨?_, ⟨taken, reached, ?_⟩, settled, fun done => ?_⟩, moved⟩
    · simp only
      omega
    · rw [List.take_add, ← undelivered, List.append_assoc, ← List.take_eq_take_min]
    · exact ⟨(ended done).1, moved.trans (by rw [(ended done).2, List.drop_nil])⟩

/-- Waiting bytes are delivered in order, and the status tells whether there are more. -/
theorem deliver (delivers : Delivers level history sent compressor)
    (going : compressor.ended = false) (consumed room : Nat) :
    ∃ delivery after,
      StreamCompressor.deliver consumed room compressor = .ok delivery after ∧
      Delivers level history (sent ++ delivery.produced) after ∧
      Delivered room compressor after delivery ∧ delivery.consumed = consumed ∧
      after.ending = compressor.ending ∧ after.ended = decide (delivery.status = .done) := by
  obtain ⟨next, left⟩ := delivers.taken room
  have produced := compressor.takeWaiting_fst room
  have kept : (compressor.takeWaiting room).2.ending = compressor.ending ∧
      (compressor.takeWaiting room).2.ended = compressor.ended := by
    rw [takeWaiting]
    simp only
    split <;> exact ⟨rfl, rfl⟩
  rw [StreamCompressor.deliver]
  cases result : compressor.takeWaiting room with
  | mk bytes after =>
    simp only [result] at next left produced kept
    subst produced
    have length := after.length_undelivered
    by_cases more : 0 < after.waiting
    · have waits : after.undelivered ≠ [] := List.ne_nil_of_length_pos (by rwa [length])
      refine ⟨_, after, if_pos more, next, ⟨rfl, left, by simp [waits], by simp [waits]⟩, rfl,
        kept.1, ?_⟩
      simp [kept.2, going]
    · have emptied : after.undelivered = [] := List.eq_nil_of_length_eq_zero (by omega)
      simp only [if_neg more]
      cases final : after.ending with
      | false =>
        refine ⟨_, after, rfl, next, ⟨rfl, left, by simp [emptied], by simp [final]⟩, rfl, kept.1, ?_⟩
        simp [kept.2, going]
      | true =>
        refine ⟨⟨consumed, compressor.undelivered.take room, .done⟩, { after with ended := true },
          by simp [final], ⟨next.within, next.reached, next.settled, fun _ => ⟨final, emptied⟩⟩,
          ⟨rfl, left, ?_, ?_⟩, rfl, kept.1, rfl⟩
        · exact iff_of_false (by simp) fun waits => waits emptied
        · exact iff_of_true rfl ⟨emptied, final⟩

/-- A call that comes in time: all of its input is taken, and what waits then is delivered. -/
theorem run (delivers : Delivers level history sent compressor) (next : Call)
    (timely : compressor.ending = true → next.input = []) (going : compressor.ended = false) :
    ∃ delivery middle after, next.run compressor = .ok delivery after ∧
      Delivers level (next.record history) sent middle ∧
      Delivers level (next.record history) (sent ++ delivery.produced) after ∧
      Delivered next.room middle after delivery ∧ delivery.consumed = next.input.length ∧
      after.ending = (compressor.ending || next.finishes) ∧
      after.ended = decide (delivery.status = .done) := by
  obtain ⟨written, middle, wrote, obeyed, recorded, ending, still⟩ :=
    delivers.encoded next timely going
  obtain ⟨delivery, after, done, final, delivered, consumed, kept, ended⟩ :=
    recorded.deliver still next.input.length next.room
  refine ⟨delivery, middle, after, ?_, recorded, final, delivered, consumed, kept.trans ending,
    ended⟩
  have accepted : (compressor.ending && !next.input.isEmpty) = false := by
    cases finishing : compressor.ending with
    | false => rfl
    | true => simp [timely finishing]
  simp only [Call.run, call, bind, EStateM.bind, get, getThe, MonadStateOf.get, EStateM.get,
    accepted, going, Bool.false_eq_true, if_false, wrote, obeyed, done]

theorem run_late {next : Call} (ending : compressor.ending = true) (nonempty : next.input ≠ []) :
    next.run compressor = .error .lateInput compressor := by
  simp [Call.run, call, bind, EStateM.bind, get, getThe, MonadStateOf.get, EStateM.get, ending,
    nonempty, throw, throwThe, MonadExceptOf.throw, EStateM.throw]

theorem run_ended {next : Call} (ended : compressor.ended = true) (silent : next.input = []) :
    next.run compressor = .ok ⟨0, [], .done⟩ compressor := by
  simp [Call.run, call, bind, EStateM.bind, get, getThe, MonadStateOf.get, EStateM.get, ended,
    silent, pure, EStateM.pure]

/-- Any call leaves a compressor that has delivered what it should. -/
theorem answer (delivers : Delivers level history sent compressor) (next : Call) :
    ∃ answer after, next.answer compressor = (answer, after) ∧
      Delivers level (if compressor.ending then history else next.record history)
        (sent ++ producedBy answer) after ∧
      after.ending = (compressor.ending || next.finishes) ∧
      after.ended = (compressor.ended || isDone answer) := by
  by_cases late : compressor.ending = true ∧ next.input ≠ []
  · have refused := run_late late.1 late.2
    refine ⟨.error .lateInput, compressor, by rw [Call.answer, refused], ?_, ?_, ?_⟩
    · simpa [late.1, producedBy] using delivers
    · simp [late.1]
    · simp [isDone]
  · have timely : compressor.ending = true → next.input = [] := fun ending =>
      by_contra fun nonempty => late ⟨ending, nonempty⟩
    cases going : compressor.ended with
    | true =>
      have ending := (delivers.ended going).1
      have silent := run_ended going (timely ending)
      refine ⟨.ok ⟨0, [], .done⟩, compressor, by rw [Call.answer, silent], ?_, ?_, ?_⟩
      · simpa [ending, producedBy] using delivers
      · simp [ending]
      · simp [going]
    | false =>
      obtain ⟨delivery, _, after, done, _, recorded, _, _, ending, ended⟩ :=
        delivers.run next timely going
      refine ⟨.ok delivery, after, by rw [Call.answer, done], ?_, ending, ?_⟩
      · cases finishing : compressor.ending with
        | false => exact recorded
        | true =>
          rw [Call.record_settled (delivers.settled finishing) (timely finishing)] at recorded
          exact recorded
      · simpa [isDone] using ended

theorem answerAll (delivers : Delivers level history sent compressor) (calls : List Call) :
    ∃ answers after, Call.answerAll calls compressor = (answers, after) ∧
      Delivers level (if compressor.ending then history else Call.recordAll history calls)
        (sent ++ answers.flatMap producedBy) after ∧
      after.ending = (compressor.ending || calls.any Call.finishes) ∧
      after.ended = (compressor.ended || answers.any isDone) := by
  induction calls generalizing history sent compressor with
  | nil => exact ⟨[], compressor, rfl, by simpa [Call.recordAll] using delivers, by simp, by simp⟩
  | cons next rest ih =>
    obtain ⟨answer, middle, answered, step, ending, ended⟩ := delivers.answer next
    obtain ⟨answers, after, others, final, finishing, finished⟩ := ih step
    refine ⟨answer :: answers, after, ?_, ?_, ?_, ?_⟩
    · simp only [Call.answerAll, answered, others]
    · rw [ending, List.append_assoc] at final
      rw [List.flatMap_cons, Call.recordAll]
      -- the end may have been demanded before, by this call, or by neither
      cases before : compressor.ending <;> cases now : next.finishes <;>
        simpa [before, now] using final
    · rw [finishing, ending, List.any_cons, Bool.or_assoc]
    · rw [finished, ended, List.any_cons, Bool.or_assoc]

/-- Once the end was demanded, what was sent and what waits is the whole output. -/
theorem complete {output : List UInt8} (delivers : Delivers level history sent compressor)
    (ending : compressor.ending = true)
    (compressed : compressAll level history.finish.members = .ok output) :
    sent ++ compressor.undelivered = output := by
  have settled := delivers.settled ending
  rw [History.finish_settled settled, delivers.all settled.1] at compressed
  exact Except.ok.inj compressed

/-- Once the end was demanded, a call in time writes nothing, so that the same bytes wait. -/
theorem undelivered_settled {middle : StreamCompressor} {next : Call}
    (delivers : Delivers level history sent compressor) (ending : compressor.ending = true)
    (timely : next.input = []) (recorded : Delivers level (next.record history) sent middle) :
    middle.undelivered = compressor.undelivered := by
  have settled := delivers.settled ending
  rw [Call.record_settled settled timely] at recorded
  have before := delivers.all settled.1
  rw [recorded.all settled.1] at before
  exact List.append_cancel_left (Except.ok.inj before)

theorem run_timely (delivers : Delivers level history sent compressor) (next : Call)
    (timely : compressor.ending = true → next.input = []) (going : compressor.ended = false) :
    ∃ delivery after, next.run compressor = .ok delivery after ∧
      delivery.consumed = next.input.length ∧ delivery.produced.length ≤ next.room ∧
      (delivery.status = .needsOutput ↔ after.undelivered ≠ []) ∧
      (delivery.status = .done ↔
        after.undelivered = [] ∧ (compressor.ending || next.finishes) = true) ∧
      (compressor.ending = true →
        delivery.produced = compressor.undelivered.take next.room ∧
        after.undelivered = compressor.undelivered.drop next.room) := by
  obtain ⟨delivery, middle, after, ran, recorded, _, delivered, consumed, final, _⟩ :=
    delivers.run next timely going
  refine ⟨delivery, after, ran, consumed, ?_, delivered.more, ?_, fun ending => ?_⟩
  · rw [delivered.produced]
    exact List.length_take_le _ _
  · rw [delivered.done, final]
  · rw [← delivers.undelivered_settled ending (timely ending) recorded]
    exact ⟨delivered.produced, delivered.left⟩

end Delivers

/-- Calls in any order, on a compressor that was just reset, deliver the compressed forms of the
members that they make, up to the first call that demands the end. What was produced and what waits
is a beginning of this, and all of it once the end was demanded; no bytes wait when a call has told
that all is done. Every call that comes in time takes its whole input and tells whether bytes are
left; one that comes late is refused if it has input, and else only delivers what is left. -/
theorem answerAll_exact (used : StreamCompressor) (calls : List Call) :
    ∃ answers compressor output,
      Call.answerAll calls used.reset = (answers, compressor) ∧
      compressAll used.encoder.level (Call.recordAll {} calls).finish.members = .ok output ∧
      answers.flatMap producedBy ++ compressor.undelivered <+: output ∧
      (calls.any Call.finishes = true →
        answers.flatMap producedBy ++ compressor.undelivered = output) ∧
      (answers.any isDone = true → answers.flatMap producedBy = output) ∧
      ∀ next : Call,
        (calls.any Call.finishes = true → next.input ≠ [] →
          next.run compressor = .error .lateInput compressor) ∧
        (answers.any isDone = true → next.input = [] →
          next.run compressor = .ok ⟨0, [], .done⟩ compressor) ∧
        (answers.any isDone = false → (calls.any Call.finishes = true → next.input = []) →
          ∃ delivery after, next.run compressor = .ok delivery after ∧
            delivery.consumed = next.input.length ∧
            delivery.produced.length ≤ next.room ∧
            (delivery.status = .needsOutput ↔ after.undelivered ≠ []) ∧
            (delivery.status = .done ↔
              after.undelivered = [] ∧ (calls ++ [next]).any Call.finishes = true) ∧
            (calls.any Call.finishes = true →
              delivery.produced = compressor.undelivered.take next.room ∧
              after.undelivered = compressor.undelivered.drop next.room)) := by
  have start : Delivers used.encoder.level {} [] used.reset := .start used.encoder.level
  have fresh : used.reset.ending = false ∧ used.reset.ended = false := ⟨rfl, rfl⟩
  obtain ⟨answers, compressor, answered, delivers, ending, ended⟩ := start.answerAll calls
  simp only [fresh.1, fresh.2, Bool.false_or, Bool.false_eq_true, if_false,
    List.nil_append] at delivers ending ended
  obtain ⟨output, compressed, part⟩ := delivers.part
  refine ⟨answers, compressor, output, answered, compressed, part, ?_⟩
  simp only [List.any_append, List.any_cons, List.any_nil, Bool.or_false]
  rw [← ending, ← ended]
  refine ⟨fun finished => delivers.complete finished compressed, fun done => ?_,
    fun next => ⟨Delivers.run_late, Delivers.run_ended,
      fun going timely => delivers.run_timely next timely going⟩⟩
  obtain ⟨finished, nothing⟩ := delivers.ended done
  have complete := delivers.complete finished compressed
  rwa [nothing, List.append_nil] at complete

/-- A new compressor is one that was just reset. -/
example (level : Level) : (ofLevel level).reset = ofLevel level := rfl

end StreamCompressor

end BlockSort

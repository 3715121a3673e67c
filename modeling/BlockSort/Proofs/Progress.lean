import BlockSort.Proofs.History

namespace BlockSort

open Encoder (Request)

/-- Actions that take the output from one history to another. -/
structure History.Leads (level : Level) (history next : History) (actions : List Action) :
    Prop where
  narrow : ∀ action ∈ actions, action.Narrow
  bits : ∀ whole stream : List Bool, whole.length % 8 = 0 →
    ∀ earlier : List Bool, earlier.length % 8 = 0 →
      whole ++ stream = earlier ++ history.bits level →
      whole ++ Action.extendAll actions stream = earlier ++ next.bits level
  /-- Nothing is held back between members. -/
  drained : next.current = [] → (actions = [] ∧ history.current = []) ∨
    ∃ front last, actions = front ++ [last] ∧ last.Drains

namespace History.Leads

variable {level : Level} {history middle next : History} {first second : List Action}

theorem idle (history : History) : Leads level history history [] :=
  ⟨by simp, fun _ _ _ _ _ same => same, fun empty => .inl ⟨rfl, empty⟩⟩

theorem flush (history : History) : Leads level history history [.flush] :=
  ⟨by simp [Action.Narrow], fun _ _ _ _ _ same => same,
    fun _ => .inr ⟨[], .flush, rfl, trivial⟩⟩

theorem trans (one : Leads level history middle first) (two : Leads level middle next second) :
    Leads level history next (first ++ second) := by
  refine ⟨fun action member => ?_, fun whole stream aligned earlier other same => ?_,
    fun empty => ?_⟩
  · exact (List.mem_append.mp member).elim (one.narrow action) (two.narrow action)
  · rw [Action.extendAll_append]
    exact two.bits _ _ aligned _ other (one.bits _ _ aligned _ other same)
  · rcases two.drained empty with ⟨nothing, still⟩ | ⟨front, last, shape, drains⟩
    · rw [nothing, List.append_nil]
      exact (one.drained still).imp_left fun ⟨idle, before⟩ => ⟨by rw [idle], before⟩
    · exact .inr ⟨first ++ front, last, by rw [shape, List.append_assoc], drains⟩

/-- Between members, padding adds nothing. -/
theorem finish {history : History} (empty : history.current = []) :
    Leads level history history [.finish] := by
  refine ⟨by simp [Action.Narrow], fun whole stream aligned earlier other same => ?_,
    fun _ => .inr ⟨[], .finish, rfl, trivial⟩⟩
  have size := congrArg List.length same
  have members := History.aligned_members level history.members
  rw [History.bits, empty, Draft.draftBits] at size
  simp only [List.length_append, List.isEmpty_nil, if_true, List.length_nil] at size
  rw [← same]
  congr 1
  exact Action.extend_finish_of_aligned (by omega)

end History.Leads

namespace Outline.Tracks

variable {level : Level} {history : History} {outline : Outline}

theorem beginFields_narrow (tracks : outline.Tracks level history) :
    Narrow outline.beginFields := by
  rw [tracks.beginFields]
  split
  · exact Draft.headerFields_narrow level
  · exact .nil

theorem pushFields (tracks : outline.Tracks level history) (bytes : List UInt8) :
    (Draft.ofLevel level).pushFields (history.current ++ bytes) =
      (Draft.ofLevel level).pushFields history.current ++ outline.draft.pushFields bytes := by
  rw [Draft.pushFields_append, tracks.draft]

theorem leads_write (tracks : outline.Tracks level history) (bytes : List UInt8) :
    History.Leads level history (history.write bytes) (outline.writeActions bytes) := by
  rw [Outline.writeActions, History.write]
  cases empty : bytes.isEmpty with
  | true =>
    rw [List.isEmpty_iff.mp empty, List.append_nil]
    exact .idle history
  | false =>
    have nonempty : bytes ≠ [] := by simpa using empty
    have narrow := Draft.memberFields_narrow level (history.current ++ bytes)
    rw [Draft.memberFields, tracks.pushFields] at narrow
    have pushed : Narrow (outline.draft.pushFields bytes) := fun field member =>
      narrow field (by simp [member])
    refine ⟨(tracks.beginFields_narrow.append pushed).actions,
      fun whole stream _ earlier _ same => ?_, by simp [nonempty]⟩
    have written : Draft.draftBits level (history.current ++ bytes) =
        Draft.draftBits level history.current ++
          fieldBits (outline.beginFields ++ outline.draft.pushFields bytes) := by
      rw [Draft.draftBits, if_neg (by simp [nonempty]), tracks.pushFields, ← List.append_assoc,
        fieldBits_append, ← tracks.begins, fieldBits_append, List.append_assoc]
    simp only [Bool.false_eq_true, if_false, Action.extendAll_puts]
    rw [← List.append_assoc, same, History.bits, History.bits, written]
    simp only [List.append_assoc]

/-- Ending the open member pads its bits to whole bytes. -/
theorem leads_end (tracks : outline.Tracks level history) :
    History.Leads level history history.complete outline.endActions := by
  have narrow := Draft.memberFields_narrow level history.current
  have fields : Narrow outline.draft.endFields := fun field member => by
    rw [tracks.draft] at member
    exact narrow field (List.mem_append_right _ member)
  have actions : outline.endActions =
      (outline.beginFields ++ outline.draft.endFields).map .put ++ [.finish] ++ [.flush] := by
    simp [Outline.endActions, Member.endActions]
  rw [actions]
  refine ⟨fun action member => ?_, fun whole stream aligned earlier other same => ?_,
    fun _ => .inr ⟨_, .flush, rfl, trivial⟩⟩
  · simp only [List.mem_append, List.mem_singleton] at member
    rcases member with (put | rfl) | rfl
    · exact (tracks.beginFields_narrow.append fields).actions action put
    · trivial
    · trivial
  · have members := History.aligned_members level history.members
    have whole_member : Draft.draftBits level history.current ++
        fieldBits (outline.beginFields ++ outline.draft.endFields) =
        fieldBits (Draft.memberFields level history.current) := by
      rw [fieldBits_append, ← List.append_assoc, tracks.begins, tracks.draft, ← fieldBits_append]
      rfl
    rw [Action.extendAll_append, Action.extendAll_append, Action.extendAll_puts]
    change whole ++ Action.extend _ .finish = _
    rw [← Action.extend_finish_append aligned, ← List.append_assoc, same, History.bits,
      List.append_assoc, List.append_assoc, whole_member, ← List.append_assoc,
      Action.extend_finish_append (by rw [List.length_append]; omega), History.bits,
      History.complete, List.flatMap_append, List.flatMap_singleton, Draft.draftBits]
    simp [Draft.memberBits]

theorem leads_finish (tracks : outline.Tracks level history) :
    History.Leads level history history.finish outline.finishActions := by
  rw [Outline.finishActions, tracks.mustEnd, History.finish]
  cases history.current.isEmpty && !history.members.isEmpty with
  | false => exact tracks.leads_end
  | true => exact .idle history

theorem leads_reset (tracks : outline.Tracks level history) :
    History.Leads level history history.reset outline.resetActions := by
  rw [Outline.resetActions, tracks.isOpen, History.reset]
  cases history.current.isEmpty with
  | false => exact tracks.leads_end
  | true => exact .idle history

theorem leads_step (tracks : outline.Tracks level history) (request : Request) :
    History.Leads level history (history.step request) (request.actions outline) := by
  cases request with
  | write bytes => exact tracks.leads_write bytes
  | writeByte byte => exact tracks.leads_write [byte]
  | sinkWrite bytes => exact tracks.leads_write bytes
  | sinkFlush => exact .flush history
  | finish => exact tracks.leads_finish
  | reset => exact tracks.leads_reset

end Outline.Tracks

namespace Encoder

/-- How an encoder on an accepting sink stands after some calls. The sink may have held bytes
before, and some of its bytes may have been taken away since. -/
structure Reached (level : Level) (earlier taken : List UInt8) (history : History)
    (encoder : Encoder) : Prop where
  tracks : encoder.outline.Tracks level history
  accepting : encoder.writer.sink.Accepting
  tidy : encoder.writer.Tidy
  stream : Bits.ofBytes taken ++ encoder.writer.stream =
    Bits.ofBytes earlier ++ history.bits level
  drained : history.current = [] → encoder.writer.ready = #[]

namespace Reached

variable {level : Level} {earlier taken : List UInt8} {history next : History}
  {encoder : Encoder}

theorem usable (reached : Reached level earlier taken history encoder) :
    encoder.isBroken = false := by
  have phase := reached.tracks.phase
  rw [isBroken]
  cases shape : encoder.phase with
  | broken =>
    simp only [outline, shape] at phase
  | _ => rfl

theorem start (level : Level) {sink : Sink} (accepting : sink.Accepting) :
    Reached level sink.data.toList [] {} (ofSink level sink) := by
  refine ⟨.fresh level, accepting, ⟨Nat.zero_lt_succ 7, rfl⟩, ?_, fun _ => rfl⟩
  simp [ofSink, writer, BitWriter.stream, BitWriter.partialBits, Bits.ofNat, Bits.ofBytes,
    History.bits, Draft.draftBits]

theorem start_empty (level : Level) : Reached level [] [] {} (ofSink level {}) := by
  have empty : ({} : Sink).Accepting := ⟨rfl, rfl⟩
  exact start level empty

/-- An operation whose plan leads to another history reaches it. -/
theorem follow {operation : EStateM Fault Encoder Unit} {actions : List Action}
    {outline : Outline} {failure : Encoder → Prop}
    (reached : Reached level earlier taken history encoder)
    (follows : Follows writer operation encoder actions (fun after => after.outline = outline)
      failure)
    (tracks : outline.Tracks level next) (leads : History.Leads level history next actions) :
    ∃ after, operation encoder = .ok () after ∧ after.outline = outline ∧
      BitWriter.perform actions encoder.writer = .ok () after.writer ∧
      Reached level earlier taken next after ∧
      encoder.sink.data.toList <+: after.sink.data.toList := by
  obtain ⟨_, done, wrote⟩ :=
    BitWriter.perform_accepting reached.accepting reached.tidy leads.narrow
  rw [Follows] at follows
  simp only [done] at follows
  obtain ⟨after, success, rfl, kept⟩ := follows
  refine ⟨after, success, kept, done, ⟨kept ▸ tracks, wrote.accepting, wrote.tidy, ?_, ?_⟩,
    wrote.grown⟩
  · rw [wrote.stream]
    exact leads.bits _ _ (by simp) _ (by simp) reached.stream
  · intro empty
    rcases leads.drained empty with ⟨rfl, still⟩ | ⟨front, last, rfl, drains⟩
    · simp only [BitWriter.perform, EStateM.Result.ok.injEq, true_and] at done
      rw [← done]
      exact reached.drained still
    · exact BitWriter.ready_of_perform drains done

/-- What a call asks for takes the history one step further. -/
theorem operation (reached : Reached level earlier taken history encoder) (request : Request) :
    ∃ after, request.operation encoder = .ok () after ∧
      Reached level earlier taken (history.step request) after ∧
      encoder.sink.data.toList <+: after.sink.data.toList := by
  obtain ⟨after, success, _, _, next, grown⟩ :=
    reached.follow (follows_operation reached.usable request) (reached.tracks.step request)
      (reached.tracks.leads_step request)
  exact ⟨after, success, next, grown⟩

theorem serve (reached : Reached level earlier taken history encoder) (request : Request) :
    ∃ after, Encoder.serve request encoder = (request.success, after) ∧
      Reached level earlier taken (history.step request) after ∧
      encoder.sink.data.toList <+: after.sink.data.toList := by
  obtain ⟨after, success, next, grown⟩ := reached.operation request
  exact ⟨after, by rw [serve_eq, success], next, grown⟩

theorem serveAll (reached : Reached level earlier taken history encoder)
    (requests : List Request) :
    ∃ after, Encoder.serveAll requests encoder = (requests.map Request.success, after) ∧
      Reached level earlier taken (History.after requests history) after ∧
      encoder.sink.data.toList <+: after.sink.data.toList := by
  induction requests generalizing history encoder with
  | nil => exact ⟨encoder, rfl, reached, List.prefix_refl _⟩
  | cons request rest ih =>
    obtain ⟨middle, served, next, grown⟩ := reached.serve request
    obtain ⟨after, others, final, further⟩ := ih next
    exact ⟨after, by simp only [Encoder.serveAll, served, others, List.map_cons], final,
      grown.trans further⟩

theorem close (reached : Reached level earlier taken history encoder) :
    ∃ after, Encoder.close encoder = .ok () after ∧
      Reached level earlier taken history.finish after ∧
      encoder.sink.data.toList <+: after.sink.data.toList := by
  obtain ⟨after, success, _, _, next, grown⟩ :=
    reached.follow (follows_close reached.usable) reached.tracks.finish
      (reached.tracks.leads_finish.trans (.finish history.current_finish))
  exact ⟨after, success, next, grown⟩

theorem whole (reached : Reached level earlier taken history encoder)
    (empty : history.current = []) :
    Bits.ofBytes (taken ++ encoder.sink.data.toList) =
      Bits.ofBytes earlier ++ history.members.flatMap (Draft.memberBits level) := by
  have stream := reached.stream
  have size := congrArg List.length stream
  have members := History.aligned_members level history.members
  have tidy := reached.tidy.held_lt
  have bits : history.bits level = history.members.flatMap (Draft.memberBits level) := by
    rw [History.bits, empty, Draft.draftBits, List.isEmpty_nil, if_pos rfl, List.append_nil]
  rw [bits, List.length_append, List.length_append, Bits.length_ofBytes, Bits.length_ofBytes,
    BitWriter.length_stream] at size
  have drained : encoder.writer.partialBits = [] :=
    List.eq_nil_of_length_eq_zero (by rw [BitWriter.length_partialBits]; omega)
  rw [bits, BitWriter.stream, reached.drained empty, drained, List.append_nil, List.append_nil,
    ← Bits.ofBytes_append] at stream
  exact stream

end Reached

theorem compress_eq {bytes : List UInt8} {level : Level} {middle after : Encoder}
    (wrote : write bytes (ofSink level {}) = .ok () middle) (closed : close middle = .ok () after) :
    compress bytes level = .ok after.sink.data := by
  have whole : (do write bytes; close : EStateM Fault Encoder Unit) (ofSink level {}) =
      .ok () after := by
    simp only [bind, EStateM.bind, wrote, closed]
  rw [compress, compressWithJournal]
  simp only [whole]

/-- Compression succeeds, and gives the bits of one member. -/
theorem compress_bits (bytes : List UInt8) (level : Level) :
    ∃ output, compress bytes level = .ok output ∧
      Bits.ofBytes output.toList = Draft.memberBits level bytes := by
  have fresh := Reached.start_empty level
  obtain ⟨middle, wrote, _, _, written, _⟩ := fresh.follow (follows_write fresh.usable bytes)
    (fresh.tracks.write bytes) (fresh.tracks.leads_write bytes)
  obtain ⟨after, closed, final, _⟩ := written.close
  have one : (History.write {} bytes).finish.members = [bytes] := by
    simp [History.finish, History.write, History.complete]
  have whole := final.whole (History.current_finish _)
  rw [one] at whole
  exact ⟨_, compress_eq wrote closed, by simpa [Bits.ofBytes] using whole⟩

end Encoder

end BlockSort

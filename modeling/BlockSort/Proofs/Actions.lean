import BlockSort.Proofs.Packing

namespace BlockSort

inductive Action where
  | put (field : Field)
  | finish
  | flush

namespace Action

/-- A field of an action fits into one write. -/
def Narrow : Action → Prop
  | .put field => field.width ≤ Field.widest
  | _ => True

/-- Such an action leaves no byte ready. -/
def Drains : Action → Prop
  | .put _ => False
  | _ => True

/-- The stream after an action. Only an action that finishes may find it short of a whole byte. -/
def extend (bits : List Bool) : Action → List Bool
  | .put field => bits ++ field.bits
  | .finish => bits ++ List.replicate ((8 - bits.length % 8) % 8) false
  | .flush => bits

/-- The stream after all actions of a list. -/
def extendAll (actions : List Action) (bits : List Bool) : List Bool := actions.foldl extend bits

@[simp]
theorem extendAll_append (first second : List Action) (bits : List Bool) :
    extendAll (first ++ second) bits = extendAll second (extendAll first bits) :=
  List.foldl_append

@[simp]
theorem extendAll_puts (fields : List Field) (bits : List Bool) :
    extendAll (fields.map .put) bits = bits ++ fieldBits fields := by
  induction fields generalizing bits with
  | nil => simp [extendAll]
  | cons field rest ih =>
    rw [List.map_cons, extendAll, List.foldl_cons]
    exact (ih _).trans (by simp [extend])

end Action

namespace BitWriter

def act : Action → EStateM Fault BitWriter Unit
  | .put field => put field
  | .finish => finish
  | .flush => flush

/-- Carries out actions in order and stops at the first that fails. -/
def perform : List Action → EStateM Fault BitWriter Unit
  | [], writer => .ok () writer
  | action :: rest, writer =>
    match act action writer with
    | .ok _ writer => perform rest writer
    | .error fault writer => .error fault writer

theorem perform_append (first second : List Action) (writer : BitWriter) :
    perform (first ++ second) writer =
      match perform first writer with
      | .ok _ writer => perform second writer
      | .error fault writer => .error fault writer := by
  induction first generalizing writer with
  | nil => rfl
  | cons action rest ih =>
    simp only [List.cons_append, perform]
    cases act action writer with
    | ok _ writer => exact ih writer
    | error fault writer => rfl

theorem perform_puts (fields : List Field) (writer : BitWriter) :
    perform (fields.map .put) writer = putAll fields writer := by
  induction fields generalizing writer with
  | nil => rfl
  | cons field rest ih =>
    simp only [List.map_cons, perform, putAll, act]
    cases put field writer with
    | ok _ writer => exact ih writer
    | error fault writer => rfl

theorem release_eq (writer : BitWriter) :
    release writer =
      match Sink.writeAll writer.ready writer.sink with
      | .ok _ sink => .ok () { writer with sink, ready := #[] }
      | .error error sink => .error (.sink error) { writer with sink } := by
  by_cases empty : writer.ready.isEmpty
  · have vacant : writer.ready = #[] := Array.isEmpty_iff.mp empty
    have same : { writer with ready := #[] } = writer := by rw [← vacant]
    simp [release, bind, EStateM.bind, get, getThe, MonadStateOf.get, EStateM.get, pure,
      EStateM.pure, Sink.writeAll, empty, same]
  · cases taken : Sink.writeAll writer.ready writer.sink <;>
      simp [release, bind, EStateM.bind, get, getThe, MonadStateOf.get, EStateM.get, empty, onSink,
        within, EStateM.adaptExcept, modify, modifyGet, MonadStateOf.modifyGet, EStateM.modifyGet,
        taken]

theorem finish_eq (writer : BitWriter) : finish writer = release (pad writer) := rfl

theorem flush_eq (writer : BitWriter) :
    flush writer =
      match release writer with
      | .ok _ released =>
        match Sink.flush released.sink with
        | .ok _ sink => .ok () { released with sink }
        | .error error sink => .error (.sink error) { released with sink }
      | .error fault released => .error fault released := by
  simp only [flush, bind, EStateM.bind, onSink, within, EStateM.adaptExcept]
  cases release writer with
  | ok _ released => cases answer : Sink.flush released.sink <;> simp [answer]
  | error fault released => rfl

theorem ready_of_release {writer after : BitWriter} (done : release writer = .ok () after) :
    after.ready = #[] := by
  rw [release_eq] at done
  cases taken : Sink.writeAll writer.ready writer.sink with
  | ok _ sink =>
    simp only [taken, EStateM.Result.ok.injEq, true_and] at done
    rw [← done]
  | error error sink => simp [taken] at done

theorem ready_of_act {action : Action} (drains : action.Drains) {writer after : BitWriter}
    (done : act action writer = .ok () after) : after.ready = #[] := by
  cases action with
  | put field => exact False.elim drains
  | finish => exact ready_of_release done
  | flush =>
    rw [act, flush_eq] at done
    cases released : release writer with
    | ok _ middle =>
      have empty := ready_of_release released
      cases answer : Sink.flush middle.sink with
      | ok _ sink =>
        simp only [released, answer, EStateM.Result.ok.injEq, true_and] at done
        rw [← done]
        exact empty
      | error error sink => simp [released, answer] at done
    | error fault middle => simp [released] at done

/-- After a list of actions of which the last drains the writer, no byte is ready. -/
theorem ready_of_perform {front : List Action} {last : Action} (drains : last.Drains)
    {writer after : BitWriter} (done : perform (front ++ [last]) writer = .ok () after) :
    after.ready = #[] := by
  rw [perform_append] at done
  cases performed : perform front writer with
  | ok _ middle =>
    simp only [performed, perform] at done
    cases acted : act last middle with
    | ok _ final =>
      simp only [acted, EStateM.Result.ok.injEq, true_and] at done
      exact done ▸ ready_of_act drains acted
    | error fault final => simp [acted] at done
  | error fault middle => simp [performed] at done

theorem pad_sink (writer : BitWriter) : (pad writer).sink = writer.sink := by
  rw [pad]
  split
  · rfl
  · exact moveBytes_sink _ _

theorem pad_tidy {writer : BitWriter} (tidy : writer.Tidy) : (pad writer).Tidy := by
  have held := tidy.held_lt
  rw [pad]
  split
  · exact tidy
  · constructor
    · rw [moveBytes_held]
      simp
    · apply moveBytes_clear 1 _ (by simp) (by simp)
      apply mod_eq_zero_of_testBit
      intro place below
      simp only at below
      exact tidy.testBit_eq_false (by omega)

@[simp]
theorem length_partialBits (writer : BitWriter) : writer.partialBits.length = writer.held :=
  Bits.length_ofNat writer.held _

theorem length_stream (writer : BitWriter) :
    writer.stream.length = 8 * (writer.sink.data.size + writer.ready.size) + writer.held := by
  simp [stream]

/-- The bits of the byte that padding completes. -/
theorem padded_bits {writer : BitWriter} (tidy : writer.Tidy) :
    Bits.ofNat 8 (writer.register.toNat >>> 24) =
      writer.partialBits ++ List.replicate (8 - writer.held) false := by
  have held := tidy.held_lt
  obtain ⟨missing, total⟩ := Nat.exists_eq_add_of_le (Nat.le_of_lt held)
  have zeros : 8 - writer.held = missing := by omega
  have amount : 24 + missing = 32 - writer.held := by omega
  rw [zeros, ← Bits.ofNat_zero, total, Bits.ofNat_add, ← Nat.shiftRight_add, amount]
  congr 1
  apply Bits.ofNat_congr
  intro place below
  rw [Nat.testBit_shiftRight, tidy.testBit_eq_false (by omega), Nat.zero_testBit]

theorem pad_stream {writer : BitWriter} (tidy : writer.Tidy) :
    (pad writer).stream = Action.extend writer.stream .finish := by
  have held := tidy.held_lt
  have rest : writer.stream.length % 8 = writer.held := by
    rw [length_stream]
    omega
  rw [Action.extend, rest]
  by_cases whole : writer.held = 0
  · simp [pad, whole]
  · have bits := moveBytes_bits 1 { writer with held := 8 } (by simp) (by simp)
    have full : ({ writer with held := 8 } : BitWriter).partialBits =
        writer.partialBits ++ List.replicate (8 - writer.held) false := padded_bits tidy
    rw [full] at bits
    rw [pad, if_neg whole, stream, stream, moveBytes_sink, Bits.ofBytes_append, List.append_assoc,
      bits, Nat.mod_eq_of_lt (by omega : 8 - writer.held < 8)]
    simp only [Bits.ofBytes_append, List.append_assoc]

/-- How a writer on an accepting sink has changed when the actions were carried out. -/
structure Wrote (actions : List Action) (before after : BitWriter) : Prop where
  accepting : after.sink.Accepting
  tidy : after.Tidy
  stream : after.stream = Action.extendAll actions before.stream
  grown : before.sink.data.toList <+: after.sink.data.toList

theorem Wrote.trans {first second : List Action} {before middle after : BitWriter}
    (one : Wrote first before middle) (two : Wrote second middle after) :
    Wrote (first ++ second) before after :=
  ⟨two.accepting, two.tidy, by rw [two.stream, one.stream, Action.extendAll_append],
    one.grown.trans two.grown⟩

theorem writeAll_accepting {sink : Sink} (accepting : sink.Accepting) (bytes : Array UInt8) :
    ∃ after, Sink.writeAll bytes sink = .ok () after ∧ after.Accepting ∧
      after.data = sink.data ++ bytes := by
  by_cases empty : bytes.isEmpty
  · have vacant := Array.isEmpty_iff.mp empty
    exact ⟨sink, by simp [Sink.writeAll, empty], accepting, by simp [vacant]⟩
  · refine ⟨sink.answered bytes [], ?_, ⟨rfl, accepting.flushes⟩, rfl⟩
    rw [Sink.writeAll, if_neg empty, accepting.writes, Sink.deliver]

theorem flushSink_accepting {sink : Sink} (accepting : sink.Accepting) :
    ∃ after, Sink.flush sink = .ok () after ∧ after.Accepting ∧ after.data = sink.data := by
  refine ⟨{ sink with flushCalls := sink.flushCalls + 1 }, ?_,
    ⟨accepting.writes, accepting.flushes⟩, rfl⟩
  rw [Sink.flush, accepting.flushes]
  rfl

theorem release_accepting {writer : BitWriter} (accepting : writer.sink.Accepting)
    (tidy : writer.Tidy) :
    ∃ after, release writer = .ok () after ∧ Wrote [.flush] writer after ∧ after.ready = #[] ∧
      after.held = writer.held := by
  obtain ⟨sink, taken, accepts, data⟩ := writeAll_accepting accepting writer.ready
  refine ⟨{ writer with sink, ready := #[] }, by rw [release_eq, taken], ?_, rfl, rfl⟩
  refine ⟨accepts, ⟨tidy.held_lt, tidy.clear⟩, ?_, ?_⟩
  · simp [stream, data, partialBits, Action.extendAll, Action.extend]
  · simp [data]

theorem act_accepting {writer : BitWriter} (accepting : writer.sink.Accepting)
    (tidy : writer.Tidy) {action : Action} (narrow : action.Narrow) :
    ∃ after, act action writer = .ok () after ∧ Wrote [action] writer after := by
  cases action with
  | put field =>
    rw [act, put_eq narrow]
    split
    · rename_i empty
      refine ⟨_, rfl, accepting, tidy, ?_, List.prefix_refl _⟩
      simp [Action.extendAll, Action.extend, Field.bits, empty, Bits.ofNat]
    · have same : (writer.packed field).sink = writer.sink := packed_sink writer field
      split
      · obtain ⟨after, released, wrote, _, _⟩ :=
          release_accepting (by rw [same]; exact accepting) (packed_tidy tidy narrow)
        refine ⟨after, released, wrote.accepting, wrote.tidy, ?_, ?_⟩
        · rw [wrote.stream]
          exact packed_stream tidy narrow
        · rw [← same]
          exact wrote.grown
      · refine ⟨_, rfl, by rw [same]; exact accepting, packed_tidy tidy narrow, ?_, ?_⟩
        · exact packed_stream tidy narrow
        · rw [same]
  | finish =>
    rw [act, finish_eq]
    obtain ⟨after, released, wrote, _, _⟩ :=
      release_accepting (by rw [pad_sink]; exact accepting) (pad_tidy tidy)
    refine ⟨after, released, wrote.accepting, wrote.tidy, ?_, ?_⟩
    · rw [wrote.stream]
      exact pad_stream tidy
    · rw [← pad_sink writer]
      exact wrote.grown
  | flush =>
    obtain ⟨after, released, wrote, _, _⟩ := release_accepting accepting tidy
    obtain ⟨sink, flushed, accepts, data⟩ := flushSink_accepting wrote.accepting
    refine ⟨{ after with sink }, by simp only [act, flush_eq, released, flushed], accepts,
      ⟨wrote.tidy.held_lt, wrote.tidy.clear⟩, ?_, ?_⟩
    · rw [← wrote.stream, stream, stream, data]
      rfl
    · rw [data]
      exact wrote.grown

/-- On an accepting sink all actions succeed, and the stream grows by what they write. -/
theorem perform_accepting {actions : List Action} {writer : BitWriter}
    (accepting : writer.sink.Accepting) (tidy : writer.Tidy)
    (narrow : ∀ action ∈ actions, action.Narrow) :
    ∃ after, perform actions writer = .ok () after ∧ Wrote actions writer after := by
  induction actions generalizing writer with
  | nil => exact ⟨writer, rfl, accepting, tidy, rfl, List.prefix_refl _⟩
  | cons action rest ih =>
    obtain ⟨middle, success, one⟩ := act_accepting accepting tidy (narrow action (by simp))
    obtain ⟨after, successes, others⟩ := ih one.accepting one.tidy
      (fun other member => narrow other (by simp [member]))
    refine ⟨after, ?_, one.trans others⟩
    simp only [perform, success, successes]

end BitWriter

end BlockSort

import BlockSort.Proofs.Exact
import BlockSort.Proofs.Refusal

/-!
The law of the bit stream, at every sink. What was written to a bit writer is a stream of bits of
its own, which no failure of the sink takes back: the bytes that were ever completed, and the bits
in the register. The sink has as much of it as it was willing to take.
-/
namespace BlockSort

namespace BitWriter

/-- A call of a bit writer. -/
inductive Request where
  /-- Writes the low bits of a word. -/
  | bits (value : UInt32) (count : Nat)
  | bit (flag : Bool)
  | byte (value : UInt8)
  | word (value : UInt32)
  | bytes (values : List UInt8)
  | flush
  | finish

namespace Request

def operation : Request → EStateM Fault BitWriter Unit
  | .bits value count => put ⟨value, count⟩
  | .bit flag => put (.bit flag)
  | .byte value => put (.byte value)
  | .word value => putAll (Field.word value)
  | .bytes values => putAll (values.map .byte)
  | .flush => BitWriter.flush
  | .finish => BitWriter.finish

/-- The single steps of a call. -/
def actions : Request → List Action
  | .bits value count => [.put ⟨value, count⟩]
  | .bit flag => [.put (.bit flag)]
  | .byte value => [.put (.byte value)]
  | .word value => (Field.word value).map .put
  | .bytes values => (values.map .byte).map .put
  | .flush => [.flush]
  | .finish => [.finish]

/-- The stream after a call. More bits than one write can carry are not written at all. -/
def extend (stream : List Bool) : Request → List Bool
  | .bits value count =>
    if Field.widest < count then stream else stream ++ Bits.ofNat count value.toNat
  | .bit flag => stream ++ [flag]
  | .byte value => stream ++ Bits.ofNat 8 value.toNat
  | .word value => stream ++ Bits.ofNat 32 value.toNat
  | .bytes values => stream ++ Bits.ofBytes values
  | .flush => stream
  | .finish => stream ++ List.replicate ((8 - stream.length % 8) % 8) false

/-- The fault of a call that no sink is to blame for. -/
def fault? : Request → Option Fault
  | .bits _ count =>
    if Field.widest < count then some (.fieldTooWide count Field.widest) else none
  | _ => none

theorem operation_eq (request : Request) (writer : BitWriter) :
    request.operation writer = perform request.actions writer := by
  have one (action : Action) : act action writer = perform [action] writer := by
    simp only [perform]
    cases act action writer <;> rfl
  cases request with
  | bits value count => exact one (.put ⟨value, count⟩)
  | bit flag => exact one (.put (.bit flag))
  | byte value => exact one (.put (.byte value))
  | word value => exact (perform_puts _ writer).symm
  | bytes values => exact (perform_puts _ writer).symm
  | flush => exact one .flush
  | finish => exact one .finish

end Request

/-- The writer when a step has done its part, and the sink is still to be asked. -/
def filled (writer : BitWriter) : Action → BitWriter
  | .put field => if field.width = 0 then writer else writer.packed field
  | .finish => pad writer
  | .flush => writer

/-- The bytes that a step completes. -/
def ripened (writer : BitWriter) (action : Action) : List UInt8 :=
  (writer.filled action).ready.toList.drop writer.ready.size

theorem moveBytes_completed (count : Nat) (writer : BitWriter) :
    (moveBytes count writer).completed = writer.completed + count := by
  induction count generalizing writer with
  | zero => rfl
  | succ count ih =>
    rw [moveBytes, ih]
    simp only
    omega

theorem moveBytes_ready (count : Nat) (writer : BitWriter) :
    ∃ bytes : List UInt8, bytes.length = count ∧
      (moveBytes count writer).ready.toList = writer.ready.toList ++ bytes := by
  induction count generalizing writer with
  | zero => exact ⟨[], rfl, (List.append_nil _).symm⟩
  | succ count ih =>
    obtain ⟨bytes, length, ready⟩ := ih { writer with
      register := writer.register <<< 8
      held := writer.held - 8
      ready := writer.ready.push (writer.register >>> 24).toUInt8
      completed := writer.completed + 1 }
    refine ⟨(writer.register >>> 24).toUInt8 :: bytes, by rw [List.length_cons, length], ?_⟩
    rw [moveBytes, ready, Array.toList_push, List.append_assoc, List.singleton_append]

theorem filled_sink (writer : BitWriter) (action : Action) :
    (writer.filled action).sink = writer.sink := by
  cases action with
  | put field =>
    rw [filled]
    split
    · rfl
    · exact packed_sink writer field
  | finish => exact pad_sink writer
  | flush => rfl

theorem filled_ready (writer : BitWriter) (action : Action) :
    (writer.filled action).ready.toList = writer.ready.toList ++ writer.ripened action ∧
      (writer.filled action).completed = writer.completed + (writer.ripened action).length := by
  have moved (count : Nat) (start : BitWriter) (ready : start.ready = writer.ready)
      (completed : start.completed = writer.completed)
      (same : writer.filled action = moveBytes count start) :
      (writer.filled action).ready.toList = writer.ready.toList ++ writer.ripened action ∧
        (writer.filled action).completed = writer.completed + (writer.ripened action).length := by
    obtain ⟨bytes, length, appended⟩ := moveBytes_ready count start
    have ripe : writer.ripened action = bytes := by
      rw [ripened, same, appended, ready]
      exact List.drop_left' (by simp)
    rw [ripe, same, appended, ready, moveBytes_completed, completed, length]
    exact ⟨rfl, rfl⟩
  cases action with
  | put field =>
    by_cases empty : field.width = 0
    · exact moved 0 writer rfl rfl (if_pos empty)
    · exact moved _ (writer.load field) rfl rfl (if_neg empty)
  | finish =>
    by_cases whole : writer.held = 0
    · exact moved 0 writer rfl rfl (if_pos whole)
    · exact moved 1 { writer with held := 8 } rfl rfl (if_neg whole)
  | flush => exact moved 0 writer rfl rfl rfl

theorem filled_tidy {writer : BitWriter} (tidy : writer.Tidy) {action : Action}
    (narrow : action.Narrow) : (writer.filled action).Tidy := by
  cases action with
  | put field =>
    rw [filled]
    split
    · exact tidy
    · exact packed_tidy tidy narrow
  | finish => exact pad_tidy tidy
  | flush => exact tidy

/-- Whatever whole bytes come before, the bits of a step follow those of the register. -/
theorem filled_bits {writer : BitWriter} (tidy : writer.Tidy) {action : Action}
    (narrow : action.Narrow) (earlier : List UInt8) :
    Bits.ofBytes (earlier ++ writer.ripened action) ++ (writer.filled action).partialBits =
      action.extend (Bits.ofBytes earlier ++ writer.partialBits) := by
  have held := tidy.held_lt
  have ready := (filled_ready writer action).1
  have rest : (Bits.ofBytes earlier ++ writer.partialBits).length % 8 = writer.held := by
    rw [List.length_append, Bits.length_ofBytes, length_partialBits]
    omega
  suffices Bits.ofBytes (writer.ripened action) ++ (writer.filled action).partialBits =
      writer.partialBits ++ (action.extend (Bits.ofBytes earlier ++ writer.partialBits)).drop
        (Bits.ofBytes earlier ++ writer.partialBits).length by
    have longer : Bits.ofBytes earlier ++ writer.partialBits <+:
        action.extend (Bits.ofBytes earlier ++ writer.partialBits) := by
      cases action <;> simp [Action.extend]
    rw [Bits.ofBytes_append, List.append_assoc, this, ← List.append_assoc]
    exact List.prefix_iff_eq_append.mp longer
  cases action with
  | put field =>
    rw [Action.extend, List.drop_left]
    by_cases empty : field.width = 0
    · have unripe : writer.ripened (.put field) = [] := by simp [ripened, filled, empty]
      rw [unripe, filled, if_pos empty, Field.bits, empty]
      simp [Bits.ofBytes, Bits.ofNat]
    · have bits := packed_bits tidy narrow
      rw [filled, if_neg empty] at ready ⊢
      rw [ready, Bits.ofBytes_append, List.append_assoc, List.append_assoc] at bits
      exact List.append_cancel_left bits
  | finish =>
    rw [Action.extend, List.drop_left, rest]
    by_cases whole : writer.held = 0
    · have unripe : writer.ripened .finish = [] := by simp [ripened, filled, pad, whole]
      simp [unripe, filled, pad, whole, Bits.ofBytes]
    · have bits := moveBytes_bits 1 { writer with held := 8 } (by simp) (by simp)
      have full : ({ writer with held := 8 } : BitWriter).partialBits =
          writer.partialBits ++ List.replicate (8 - writer.held) false := padded_bits tidy
      rw [filled, pad, if_neg whole] at ready ⊢
      rw [ready, Bits.ofBytes_append, List.append_assoc, full] at bits
      rw [Nat.mod_eq_of_lt (by omega : 8 - writer.held < 8)]
      exact List.append_cancel_left bits
  | flush =>
    have unripe : writer.ripened .flush = [] := by simp [ripened, filled]
    simp [unripe, filled, Action.extend, Bits.ofBytes]

end BitWriter

namespace Sink

theorem deliver_grows (bytes : Array UInt8) (replies : List WriteReply) (sink : Sink) :
    match deliver bytes replies sink with
    | .ok _ after | .error _ after => sink.data.toList <+: after.data.toList := by
  induction replies generalizing bytes sink with
  | nil => simp [deliver, answered]
  | cons reply rest ih =>
    have further (taken more : Array UInt8) :
        match deliver more rest (sink.answered taken rest) with
        | .ok _ after | .error _ after => sink.data.toList <+: after.data.toList := by
      have grown := ih more (sink.answered taken rest)
      have first : sink.data.toList <+: (sink.answered taken rest).data.toList := by
        simp [answered]
      split at grown <;> exact first.trans grown
    cases reply with
    | refuse error =>
      rw [deliver]
      split_ifs
      · exact further #[] bytes
      · simp [answered]
    | take limit =>
      rw [deliver]
      split_ifs
      · simp [answered]
      · simp [answered]
      · exact further _ _

theorem flush_data (sink : Sink) :
    match flush sink with
    | .ok _ after | .error _ after => after.data = sink.data := by
  rw [flush]
  cases sink.flushReplies with
  | nil => rfl
  | cons reply rest => cases reply <;> rfl

end Sink

namespace BitWriter

/-- A release either gives the sink every ready byte and forgets them, or keeps all of them, and
then the sink has taken the first of them at most. -/
theorem release_ends (writer : BitWriter) :
    (∃ sink, release writer = .ok () { writer with sink, ready := #[] } ∧
      sink.data.toList = writer.sink.data.toList ++ writer.ready.toList) ∨
    ∃ error sink taken, release writer = .error (.sink error) { writer with sink } ∧
      sink.data.toList = writer.sink.data.toList ++ taken ∧ taken <+: writer.ready.toList := by
  have fares := Sink.writeAll_fares writer.ready writer.sink
  rw [release_eq]
  cases result : Sink.writeAll writer.ready writer.sink with
  | ok _ sink =>
    rw [result] at fares
    obtain ⟨_, data⟩ := fares
    exact .inl ⟨sink, rfl, data⟩
  | error error sink =>
    rw [result] at fares
    cases fares with
    | refused _ part =>
      have grown : writer.sink.data.toList <+: sink.data.toList := by
        rw [Sink.writeAll] at result
        split at result
        · cases result
        · have grown := Sink.deliver_grows writer.ready writer.sink.writeReplies writer.sink
          rwa [result] at grown
      obtain ⟨taken, whole⟩ := grown
      rw [← whole, List.prefix_append_right_inj] at part
      exact .inr ⟨error, sink, taken, rfl, whole.symm, part⟩

end BitWriter

/-- A bit writer and, on record, all bytes that it ever completed. -/
structure Ledger where
  writer : BitWriter
  moved : List UInt8 := []

namespace Ledger

open BitWriter (Request)

/-- A new bit writer for a sink. -/
def ofSink (sink : Sink) : Ledger := { writer := { sink } }

/-- All bits that were ever written. -/
def stream (ledger : Ledger) : List Bool :=
  Bits.ofBytes ledger.moved ++ ledger.writer.partialBits

/-- One step, with its fault if it has one. A field that is too wide completes no byte. -/
def act (action : Action) (ledger : Ledger) : Option Fault × Ledger :=
  match BitWriter.act action ledger.writer with
  | .ok _ writer => (none, ⟨writer, ledger.moved ++ ledger.writer.ripened action⟩)
  | .error (.sink error) writer =>
    (some (.sink error), ⟨writer, ledger.moved ++ ledger.writer.ripened action⟩)
  | .error fault writer => (some fault, ⟨writer, ledger.moved⟩)

/-- Steps in order up to the first that fails. -/
def perform : List Action → Ledger → Option Fault × Ledger
  | [], ledger => (none, ledger)
  | action :: rest, ledger =>
    match act action ledger with
    | (none, ledger) => perform rest ledger
    | (some fault, ledger) => (some fault, ledger)

/-- Calls in order, the failed ones included. -/
def serveAll : List Request → Ledger → List (Option Fault) × Ledger
  | [], ledger => ([], ledger)
  | request :: rest, ledger =>
    match perform request.actions ledger with
    | (fault, ledger) =>
      match serveAll rest ledger with
      | (faults, ledger) => (fault :: faults, ledger)

/-- What holds of a ledger at any time. -/
structure Kept (ledger : Ledger) : Prop where
  tidy : ledger.writer.Tidy
  counted : ledger.writer.completed = ledger.moved.length

/-- A step that is not too wide, whatever the sink answered. -/
structure Extended (action : Action) (before : Ledger) (fault : Option Fault) (after : Ledger) :
    Prop where
  kept : after.Kept
  moved : after.moved = before.moved ++ before.writer.ripened action
  stream : after.stream = action.extend before.stream
  blamed : fault = none ∨ ∃ error, fault = some (.sink error)
  /-- The sink has all ready bytes, or they are all still ready and it took the first of them. -/
  handed : ∃ given taken, before.writer.ready.toList ++ before.writer.ripened action =
      given ++ after.writer.ready.toList ∧
    (given = [] ∨ after.writer.ready = #[]) ∧
    after.writer.sink.data.toList = before.writer.sink.data.toList ++ given ++ taken ∧
    taken <+: after.writer.ready.toList ∧ (fault = none → taken = [])

/-- What comes of a step. -/
inductive Acted (action : Action) (before : Ledger) : Option Fault × Ledger → Prop
  | tooWide {field : Field} (put : action = .put field) (wide : Field.widest < field.width) :
      Acted action before (some (.fieldTooWide field.width Field.widest), before)
  | extended {fault : Option Fault} {after : Ledger} (narrow : action.Narrow)
      (extended : Extended action before fault after) : Acted action before (fault, after)

/-- A writer after it asked its sink, or not, to take what is ready. -/
inductive Asked (filled : BitWriter) : Option Fault → BitWriter → Prop
  | kept : Asked filled none filled
  | given {sink : Sink} {fault : Option Fault}
      (blamed : fault = none ∨ ∃ error, fault = some (.sink error))
      (data : sink.data.toList = filled.sink.data.toList ++ filled.ready.toList) :
      Asked filled fault { filled with sink, ready := #[] }
  | failed {sink : Sink} {error : SinkError} {taken : List UInt8}
      (data : sink.data.toList = filled.sink.data.toList ++ taken)
      (part : taken <+: filled.ready.toList) :
      Asked filled (some (.sink error)) { filled with sink }

theorem asked_release (filled : BitWriter) :
    match BitWriter.release filled with
    | .ok _ after => Asked filled none after
    | .error fault after => Asked filled (some fault) after := by
  rcases BitWriter.release_ends filled with
    ⟨sink, released, data⟩ | ⟨error, sink, taken, released, data, part⟩
  · rw [released]
    exact .given (.inl rfl) data
  · rw [released]
    exact .failed data part

theorem asked_act {action : Action} (narrow : action.Narrow) (writer : BitWriter) :
    match BitWriter.act action writer with
    | .ok _ after => Asked (writer.filled action) none after
    | .error fault after => Asked (writer.filled action) (some fault) after := by
  cases action with
  | put field =>
    rw [BitWriter.act, BitWriter.put_eq narrow, BitWriter.filled]
    split_ifs
    · exact .kept
    · exact asked_release _
    · exact .kept
  | finish => exact asked_release _
  | flush =>
    rw [BitWriter.act, BitWriter.flush_eq, BitWriter.filled]
    rcases BitWriter.release_ends writer with
      ⟨sink, released, data⟩ | ⟨error, sink, taken, released, data, part⟩
    · have same (last : Sink) (flushed : last.data = sink.data) :
          last.data.toList = writer.sink.data.toList ++ writer.ready.toList := by
        rw [flushed, data]
      simp only [released]
      have kept := Sink.flush_data sink
      cases flushed : Sink.flush sink with
      | ok _ last =>
        rw [flushed] at kept
        exact .given (.inl rfl) (same last kept)
      | error error last =>
        rw [flushed] at kept
        exact .given (.inr ⟨error, rfl⟩) (same last kept)
    · rw [released]
      exact .failed data part

/-- What the sink was asked for is all that the steps differ in. -/
theorem Asked.extended {action : Action} (narrow : action.Narrow) {ledger : Ledger}
    (kept : ledger.Kept) {fault : Option Fault} {after : BitWriter}
    (asked : Asked (ledger.writer.filled action) fault after) :
    Extended action ledger fault ⟨after, ledger.moved ++ ledger.writer.ripened action⟩ := by
  obtain ⟨ready, completed⟩ := BitWriter.filled_ready ledger.writer action
  have sink := BitWriter.filled_sink ledger.writer action
  have tidy := BitWriter.filled_tidy kept.tidy narrow
  have bits := BitWriter.filled_bits kept.tidy narrow ledger.moved
  have counted : (ledger.writer.filled action).completed =
      (ledger.moved ++ ledger.writer.ripened action).length := by
    rw [completed, kept.counted, List.length_append]
  cases asked with
  | kept =>
    exact ⟨⟨tidy, counted⟩, rfl, bits, .inl rfl,
      [], [], by simp [ready], .inl rfl, by simp [sink], List.nil_prefix, fun _ => rfl⟩
  | given blamed data =>
    refine ⟨⟨⟨tidy.held_lt, tidy.clear⟩, counted⟩, rfl, bits, blamed,
      (ledger.writer.filled action).ready.toList, [], by simp [ready], .inr rfl, ?_,
      List.nil_prefix, fun _ => rfl⟩
    simp [data, sink]
  | failed data part =>
    refine ⟨⟨⟨tidy.held_lt, tidy.clear⟩, counted⟩, rfl, bits, .inr ⟨_, rfl⟩,
      [], _, by simp [ready], .inl rfl, ?_, part, fun blamed => nomatch blamed⟩
    simp [data, sink]

/-- The step lemma: whatever the sink answers, a step that fits extends the stream. -/
theorem act_acted (action : Action) {ledger : Ledger} (kept : ledger.Kept) :
    Acted action ledger (act action ledger) := by
  by_cases narrow : action.Narrow
  · have asked := asked_act narrow ledger.writer
    rw [act]
    cases result : BitWriter.act action ledger.writer with
    | ok _ after =>
      rw [result] at asked
      exact .extended narrow (asked.extended narrow kept)
    | error fault after =>
      rw [result] at asked
      have extended := asked.extended narrow kept
      obtain absent | ⟨error, same⟩ := extended.blamed
      · cases absent
      · cases same
        exact .extended narrow extended
  · cases action with
    | put field =>
      have wide : Field.widest < field.width := Nat.not_le.mp narrow
      have nonzero : field.width ≠ 0 := by omega
      have refused : BitWriter.act (.put field) ledger.writer =
          .error (.fieldTooWide field.width Field.widest) ledger.writer := by
        rw [BitWriter.act, BitWriter.put, if_neg nonzero, if_pos wide]
      simp only [act, refused]
      exact .tooWide rfl wide
    | finish => exact absurd trivial narrow
    | flush => exact absurd trivial narrow

theorem Acted.kept {action : Action} {before : Ledger} {outcome : Option Fault × Ledger}
    (acted : Acted action before outcome) (kept : before.Kept) : outcome.2.Kept := by
  cases acted with
  | tooWide put wide => exact kept
  | extended narrow extended => exact extended.kept

theorem Acted.stream {action : Action} {before : Ledger} {outcome : Option Fault × Ledger}
    (acted : Acted action before outcome) (narrow : action.Narrow) :
    outcome.2.stream = action.extend before.stream := by
  cases acted with
  | tooWide put wide =>
    rw [put] at narrow
    exact absurd narrow (Nat.not_le.mpr wide)
  | extended _ extended => exact extended.stream

theorem perform_kept (actions : List Action) {ledger : Ledger} (kept : ledger.Kept) :
    (perform actions ledger).2.Kept := by
  induction actions generalizing ledger with
  | nil => exact kept
  | cons action rest ih =>
    have step := (act_acted action kept).kept kept
    rw [perform]
    cases result : act action ledger with
    | mk fault after =>
      rw [result] at step
      cases fault with
      | none => exact ih step
      | some fault => exact step

/-- The run lemma: calls keep what holds of a ledger, failed calls included. -/
theorem serveAll_kept (requests : List Request) {ledger : Ledger} (kept : ledger.Kept) :
    (serveAll requests ledger).2.Kept := by
  induction requests generalizing ledger with
  | nil => exact kept
  | cons request rest ih => exact ih (perform_kept request.actions kept)

theorem ofSink_kept (sink : Sink) : (ofSink sink).Kept := ⟨⟨Nat.zero_lt_succ 7, rfl⟩, rfl⟩

theorem act_writer (action : Action) (ledger : Ledger) :
    BitWriter.act action ledger.writer =
      match act action ledger with
      | (none, after) => .ok () after.writer
      | (some fault, after) => .error fault after.writer := by
  rw [act]
  cases BitWriter.act action ledger.writer with
  | ok _ after => rfl
  | error fault after => cases fault <;> rfl

theorem perform_writer (actions : List Action) (ledger : Ledger) :
    BitWriter.perform actions ledger.writer =
      match perform actions ledger with
      | (none, after) => .ok () after.writer
      | (some fault, after) => .error fault after.writer := by
  induction actions generalizing ledger with
  | nil => rfl
  | cons action rest ih =>
    rw [BitWriter.perform, act_writer, perform]
    cases act action ledger with
    | mk fault after =>
      cases fault with
      | none => exact ih after
      | some fault => rfl

/-- A finished stream is whole bytes, so that finishing again pads no more. -/
theorem extend_finish_finish (bits : List Bool) :
    Action.finish.extend (Action.finish.extend bits) = Action.finish.extend bits := by
  have whole : (Action.finish.extend bits).length % 8 = 0 := by
    rw [Action.extend, List.length_append, List.length_replicate]
    omega
  rw [Action.extend, whole]
  exact List.append_nil _

/-- Of a call that the sink ends, the steps up to the one that failed are in the stream. -/
theorem perform_stream {actions : List Action} (narrow : ∀ action ∈ actions, action.Narrow)
    {ledger : Ledger} (kept : ledger.Kept) :
    ∃ finished left, actions = finished ++ left ∧
      (perform actions ledger).2.stream = Action.extendAll finished ledger.stream ∧
      ((perform actions ledger).1 = none → left = []) := by
  induction actions generalizing ledger with
  | nil => exact ⟨[], [], rfl, rfl, fun _ => rfl⟩
  | cons action rest ih =>
    have acted := act_acted action kept
    rw [perform]
    cases result : act action ledger with
    | mk fault after =>
      rw [result] at acted
      cases acted with
      | tooWide put wide =>
        have fits := narrow action (by simp)
        rw [put] at fits
        exact absurd fits (Nat.not_le.mpr wide)
      | extended fits extended =>
        have stream (finished : List Action) :
            Action.extendAll finished after.stream =
              Action.extendAll (action :: finished) ledger.stream := by
          rw [extended.stream]
          rfl
        cases fault with
        | none =>
          obtain ⟨finished, left, split, same, all⟩ :=
            ih (fun other member => narrow other (by simp [member])) extended.kept
          exact ⟨action :: finished, left, by rw [split]; rfl, same.trans (stream finished), all⟩
        | some fault => exact ⟨[action], rest, rfl, stream [], fun none => nomatch none⟩

end Ledger

/-- A sink whose replies all let a request go on. -/
structure Sink.Lenient (sink : Sink) : Prop where
  writes : ∀ reply ∈ sink.writeReplies, reply.failure? = none
  flushes : ∀ reply ∈ sink.flushReplies, reply = none

namespace Sink

theorem Lenient.accepted {before after : Sink} (lenient : before.Lenient)
    (accepted : before.Accepted after) : after.Lenient := by
  obtain ⟨⟨given, writes, _⟩, ⟨passed, flushes, _⟩⟩ := accepted
  exact ⟨fun reply member => lenient.writes reply (by simp [writes, member]),
    fun reply member => lenient.flushes reply (by simp [flushes, member])⟩

theorem Lenient.not_refused {before after : Sink} (lenient : before.Lenient) (error : SinkError) :
    ¬ before.Refused after error := by
  intro refused
  cases refused with
  | write accepted next failure kept =>
    have fine := (lenient.accepted accepted).writes
    rw [next] at fine
    exact nomatch (fine _ (List.mem_cons_self ..)).symm.trans failure
  | flush accepted next kept =>
    have fine := (lenient.accepted accepted).flushes
    rw [next] at fine
    exact nomatch fine _ (List.mem_cons_self ..)

end Sink

namespace Ledger

open BitWriter (Request)

/-- A ledger at a lenient sink that held the given bytes at first. -/
structure Flawless (first : List UInt8) (ledger : Ledger) : Prop extends Kept ledger where
  lenient : ledger.writer.sink.Lenient
  whole : ledger.writer.sink.data.toList ++ ledger.writer.ready.toList = first ++ ledger.moved

theorem act_flawless {action : Action} (narrow : action.Narrow) {first : List UInt8}
    {ledger : Ledger} (flawless : ledger.Flawless first) :
    ∃ after, act action ledger = (none, after) ∧ after.Flawless first ∧
      after.stream = action.extend ledger.stream := by
  have alike : ledger.writer.Alike { ledger.writer with sink := ledger.writer.sink.willing } :=
    ⟨rfl, rfl, rfl, rfl, rfl⟩
  obtain ⟨ideal, performed, _⟩ := @BitWriter.act_accepting
    { ledger.writer with sink := ledger.writer.sink.willing }
    (Sink.willing_accepting ledger.writer.sink) ⟨flawless.tidy.held_lt, flawless.tidy.clear⟩
    action narrow
  have fares := BitWriter.act_fares (Sink.willing_accepting _) alike narrow performed
  have acted := act_acted action flawless.toKept
  rw [act_writer] at fares
  cases result : act action ledger with
  | mk fault after =>
    rw [result] at fares acted
    cases fault with
    | some fault =>
      cases fares with
      | refused replies data => exact absurd replies (flawless.lenient.not_refused _)
    | none =>
      cases acted with
      | extended _ extended =>
        cases fares with
        | accepted replies _ =>
          obtain ⟨given, taken, split, _, data, _, all⟩ := extended.handed
          refine ⟨after, rfl, ⟨extended.kept, flawless.lenient.accepted replies, ?_⟩,
            extended.stream⟩
          rw [data, all rfl, List.append_nil, List.append_assoc, ← split, ← List.append_assoc,
            flawless.whole, extended.moved, List.append_assoc]

theorem perform_flawless {actions : List Action} (narrow : ∀ action ∈ actions, action.Narrow)
    {first : List UInt8} {ledger : Ledger} (flawless : ledger.Flawless first) :
    ∃ after, perform actions ledger = (none, after) ∧ after.Flawless first ∧
      after.stream = Action.extendAll actions ledger.stream := by
  induction actions generalizing ledger with
  | nil => exact ⟨ledger, rfl, flawless, rfl⟩
  | cons action rest ih =>
    obtain ⟨middle, acted, fine, one⟩ := act_flawless (narrow action (by simp)) flawless
    obtain ⟨after, performed, good, others⟩ :=
      ih (fun other member => narrow other (by simp [member])) fine
    exact ⟨after, by simp only [perform, acted, performed], good, others.trans (by rw [one]; rfl)⟩

end Ledger

namespace BitWriter.Request

/-- A call that has no fault of its own is steps that fit, and they write what it writes. -/
theorem actions_spec {request : Request} (fine : request.fault? = none) (stream : List Bool) :
    (∀ action ∈ request.actions, action.Narrow) ∧
      Action.extendAll request.actions stream = request.extend stream := by
  have single (action : Action) (narrow : action.Narrow)
      (same : action.extend stream = request.extend stream) (only : request.actions = [action]) :
      (∀ action ∈ request.actions, action.Narrow) ∧
        Action.extendAll request.actions stream = request.extend stream := by
    rw [only]
    exact ⟨by simpa using narrow, same⟩
  cases request with
  | bits value count =>
    have narrow : ¬ Field.widest < count := fun wide => by simp [fault?, wide] at fine
    exact single (.put ⟨value, count⟩) (Nat.not_lt.mp narrow) (by rw [extend, if_neg narrow]; rfl) rfl
  | bit flag =>
    exact single _ (by simp [Action.Narrow, Field.bit, Field.widest])
      (by rw [extend, Action.extend, Field.bits_bit]) rfl
  | byte value => exact single _ (by simp [Action.Narrow, Field.byte, Field.widest]) rfl rfl
  | word value =>
    exact ⟨(Narrow.word value).actions, by rw [actions, Action.extendAll_puts, Field.bits_word]; rfl⟩
  | bytes values =>
    refine ⟨(Narrow.bytes values).actions, ?_⟩
    rw [actions, Action.extendAll_puts, extend, fieldBits, Bits.ofBytes, List.flatMap_map]
    rfl
  | flush => exact single .flush trivial rfl rfl
  | finish => exact single .finish trivial rfl rfl

/-- More bits than one write can carry are refused, and nothing else happens. -/
theorem perform_tooWide {request : Request} {fault : Fault} (tooWide : request.fault? = some fault)
    (ledger : Ledger) :
    Ledger.perform request.actions ledger = (some fault, ledger) ∧
      ∀ stream, request.extend stream = stream := by
  cases request with
  | bits value count =>
    by_cases wide : Field.widest < count
    · have nonzero : count ≠ 0 := by omega
      simp only [fault?, if_pos wide, Option.some.injEq] at tooWide
      subst tooWide
      refine ⟨?_, fun stream => if_pos wide⟩
      simp only [actions, Ledger.perform, Ledger.act, BitWriter.act, put, if_neg nonzero, if_pos wide]
    · simp [fault?, wide] at tooWide
  | bit flag | byte value | word value | bytes values | flush | finish => simp [fault?] at tooWide

end BitWriter.Request

namespace Ledger

open BitWriter (Request)

theorem serveAll_flawless (requests : List Request) {first : List UInt8} {ledger : Ledger}
    (flawless : ledger.Flawless first) :
    ∃ after, serveAll requests ledger = (requests.map Request.fault?, after) ∧
      after.Flawless first ∧ after.stream = requests.foldl Request.extend ledger.stream := by
  induction requests generalizing ledger with
  | nil => exact ⟨ledger, rfl, flawless, rfl⟩
  | cons request rest ih =>
    suffices ∃ middle, perform request.actions ledger = (request.fault?, middle) ∧
        middle.Flawless first ∧ middle.stream = request.extend ledger.stream by
      obtain ⟨middle, performed, fine, one⟩ := this
      obtain ⟨after, served, good, others⟩ := ih fine
      exact ⟨after, by simp only [serveAll, performed, served, List.map_cons], good,
        others.trans (by rw [one]; rfl)⟩
    cases fault : request.fault? with
    | none =>
      obtain ⟨narrow, same⟩ := Request.actions_spec fault ledger.stream
      exact same ▸ perform_flawless narrow flawless
    | some fault =>
      obtain ⟨refused, same⟩ := Request.perform_tooWide ‹_› ledger
      exact ⟨ledger, refused, flawless, (same _).symm⟩

/-- A call of a writer, as the ledger records it. -/
structure Served (request : Request) (before : Ledger) (fault : Option Fault) (after : Ledger) :
    Prop where
  operation : request.operation before.writer =
    match fault with
    | none => .ok () after.writer
    | some fault => .error fault after.writer
  /-- The sink is to blame for any fault, and the steps up to the one that failed were done. -/
  stream : request.fault? = none → ∃ finished left, request.actions = finished ++ left ∧
    after.stream = Action.extendAll finished before.stream ∧
    (fault = none → after.stream = request.extend before.stream)
  tooWide : request.fault? ≠ none → fault = request.fault? ∧ after = before

theorem perform_served (request : Request) {ledger : Ledger} (kept : ledger.Kept) :
    Served request ledger (perform request.actions ledger).1
      (perform request.actions ledger).2 := by
  refine ⟨?_, fun fine => ?_, fun wide => ?_⟩
  · rw [Request.operation_eq, perform_writer]
    rcases perform request.actions ledger with ⟨_ | fault, after⟩ <;> rfl
  · obtain ⟨narrow, same⟩ := Request.actions_spec fine ledger.stream
    obtain ⟨finished, left, split, stream, all⟩ := perform_stream narrow kept
    refine ⟨finished, left, split, stream, fun unblamed => ?_⟩
    rw [stream, ← same, split, all unblamed, List.append_nil]
  · obtain ⟨fault, tooWide⟩ := Option.ne_none_iff_exists'.mp wide
    have refused := (Request.perform_tooWide tooWide ledger).1
    exact ⟨by rw [refused, tooWide], by rw [refused]⟩

/-- At any sink and after any calls, less than a byte is held and nothing lies below it in the
register, and the completed bytes are counted. The next step, if its field is not too wide, extends
the stream by its bits even when the sink fails; the sink then has all ready bytes, or they are all
kept and it took a beginning of them. Padding is never repeated. When no reply of the sink is a
failure, every call of an allowed width succeeds, the stream is what the calls write, and the sink's
bytes and the ready ones are its whole bytes. -/
theorem serveAll_law (sink : Sink) (requests : List Request) :
    let served := serveAll requests (ofSink sink)
    served.2.Kept ∧
    (∀ action, Acted action served.2 (act action served.2)) ∧
    (∀ request, Served request served.2 (perform request.actions served.2).1
      (perform request.actions served.2).2) ∧
    (act .finish (act .finish served.2).2).2.stream = (act .finish served.2).2.stream ∧
    (sink.Lenient →
      served.1 = requests.map Request.fault? ∧
      served.2.stream = requests.foldl Request.extend [] ∧
      served.2.writer.sink.data.toList ++ served.2.writer.ready.toList =
        sink.data.toList ++ served.2.moved) := by
  intro served
  have kept : served.2.Kept := serveAll_kept requests (ofSink_kept sink)
  have finished {ledger : Ledger} (kept : ledger.Kept) :
      (act .finish ledger).2.stream = Action.finish.extend ledger.stream :=
    (act_acted .finish kept).stream trivial
  refine ⟨kept, fun action => act_acted action kept, fun request => perform_served request kept,
    ?_, fun lenient => ?_⟩
  · rw [finished ((act_acted .finish kept).kept kept), finished kept, extend_finish_finish]
  · have flawless : (ofSink sink).Flawless sink.data.toList :=
      ⟨ofSink_kept sink, lenient, by simp [ofSink]⟩
    obtain ⟨after, all, fine, stream⟩ := serveAll_flawless requests flawless
    have same : served = (requests.map Request.fault?, after) := all
    rw [same]
    exact ⟨rfl, stream, fine.whole⟩

/-- The law at a sink that takes single bytes and is interrupted in between. -/
theorem serveAll_shortWrites :
    let sink : Sink := { writeReplies := [.take 1, .refuse ⟨.interrupted, ""⟩, .take 1] }
    sink.Lenient ∧
      (serveAll [.bits 5 3, .byte 255, .finish] (ofSink sink)).2.stream =
        [true, false, true, true, true, true, true, true, true, true, true,
          false, false, false, false, false] := by
  intro sink
  have lenient : sink.Lenient := ⟨by decide, by decide⟩
  exact ⟨lenient, ((serveAll_law sink _).2.2.2.2 lenient).2.1.trans (by decide)⟩

end Ledger

end BlockSort

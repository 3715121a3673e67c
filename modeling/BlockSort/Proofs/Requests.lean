import BlockSort.Proofs.Outline

namespace BlockSort

namespace Encoder

/-- A call of an encoder, other than the one that closes it. -/
inductive Request where
  | write (bytes : List UInt8)
  | writeByte (byte : UInt8)
  /-- A write to the encoder as a sink. -/
  | sinkWrite (bytes : List UInt8)
  /-- A flush of the encoder as a sink. -/
  | sinkFlush
  | finish
  | reset

/-- The answer to a call. -/
inductive Answer where
  | done
  | took (count : Nat)
  | failed (fault : Fault)
  /-- The answer to a call as a sink that fails. -/
  | refused (error : SinkError)
  deriving DecidableEq

namespace Answer

def ofResult : EStateM.Result Fault Encoder Unit → Answer × Encoder
  | .ok _ after => (.done, after)
  | .error fault after => (.failed fault, after)

end Answer

/-- Answers a call. -/
def serve : Request → Encoder → Answer × Encoder
  | .write bytes, encoder => Answer.ofResult (write bytes encoder)
  | .writeByte byte, encoder => Answer.ofResult (write [byte] encoder)
  | .sinkWrite bytes, encoder =>
    match sinkWrite bytes encoder with
    | .ok count after => (.took count, after)
    | .error error after => (.refused error, after)
  | .sinkFlush, encoder =>
    match sinkFlush encoder with
    | .ok _ after => (.done, after)
    | .error error after => (.refused error, after)
  | .finish, encoder => Answer.ofResult (finish encoder)
  | .reset, encoder => Answer.ofResult (reset encoder)

/-- Answers calls in order, the failed ones included. -/
def serveAll : List Request → Encoder → List Answer × Encoder
  | [], encoder => ([], encoder)
  | request :: rest, encoder =>
    match serve request encoder with
    | (answer, encoder) =>
      match serveAll rest encoder with
      | (answers, encoder) => (answer :: answers, encoder)

namespace Request

/-- What a call asks of the encoder. -/
def operation : Request → EStateM Fault Encoder Unit
  | .write bytes | .sinkWrite bytes => Encoder.write bytes
  | .writeByte byte => Encoder.write [byte]
  | .sinkFlush => Encoder.flush
  | .finish => Encoder.finish
  | .reset => Encoder.reset

/-- The answer if that succeeds. -/
def success : Request → Answer
  | .sinkWrite bytes => .took bytes.length
  | _ => .done

/-- The answer if that fails. -/
def failure : Request → Fault → Answer
  | .sinkWrite _, fault | .sinkFlush, fault => .refused fault.toSinkError
  | _, fault => .failed fault

def actions (outline : Outline) : Request → List Action
  | .write bytes | .sinkWrite bytes => outline.writeActions bytes
  | .writeByte byte => outline.writeActions [byte]
  | .sinkFlush => [.flush]
  | .finish => outline.finishActions
  | .reset => outline.resetActions

def next (outline : Outline) : Request → Outline
  | .write bytes | .sinkWrite bytes => outline.write bytes
  | .writeByte byte => outline.write [byte]
  | .sinkFlush => outline
  | .finish => outline.finish
  | .reset => outline.reset

end Request

theorem serve_eq (request : Request) (encoder : Encoder) :
    serve request encoder =
      match request.operation encoder with
      | .ok _ after => (request.success, after)
      | .error fault after => (request.failure fault, after) := by
  rw [serve.eq_def]
  cases request with
  | write bytes | sinkWrite bytes =>
    simp only [Request.operation, sinkWrite, EStateM.adaptExcept, bind, EStateM.bind]
    cases write bytes encoder <;> rfl
  | writeByte byte =>
    simp only [Request.operation]
    cases write [byte] encoder <;> rfl
  | sinkFlush =>
    simp only [Request.operation, sinkFlush, EStateM.adaptExcept]
    cases flush encoder <;> rfl
  | finish =>
    simp only [Request.operation]
    cases finish encoder <;> rfl
  | reset =>
    simp only [Request.operation]
    cases reset encoder <;> rfl

theorem follows_operation {encoder : Encoder} (usable : encoder.isBroken = false)
    (request : Request) :
    Follows writer request.operation encoder (request.actions encoder.outline)
      (fun after => after.outline = request.next encoder.outline)
      (fun after => after.isBroken = true) := by
  cases request with
  | write bytes => exact follows_write usable bytes
  | writeByte byte => exact follows_write usable [byte]
  | sinkWrite bytes => exact follows_write usable bytes
  | sinkFlush => exact follows_flush usable
  | finish => exact follows_finish usable
  | reset => exact follows_reset usable

/-- An encoder that a fault has stopped answers every call in the same way and does nothing. -/
theorem operation_of_broken {encoder : Encoder} (broken : encoder.isBroken = true)
    (request : Request) : request.operation encoder = .error .broken encoder := by
  cases request <;>
    simp [Request.operation, write, flush, finish, reset, bind, EStateM.bind,
      refuse_of_broken broken]

theorem close_of_broken {encoder : Encoder} (broken : encoder.isBroken = true) :
    close encoder = .error .broken encoder := by
  simp [close, finish, bind, EStateM.bind, refuse_of_broken broken]

theorem serveAll_append (first second : List Request) (encoder : Encoder) :
    serveAll (first ++ second) encoder =
      ((serveAll first encoder).1 ++ (serveAll second (serveAll first encoder).2).1,
        (serveAll second (serveAll first encoder).2).2) := by
  induction first generalizing encoder with
  | nil => rfl
  | cons request rest ih => simp only [List.cons_append, serveAll, ih]

end Encoder

end BlockSort

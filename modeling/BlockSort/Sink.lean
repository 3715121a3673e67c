import BlockSort.Fault

/-!
A byte sink as a value: the bytes it has taken, and the replies it will give to the next write and
flush requests. A sink without replies takes everything.
-/
namespace BlockSort

/-- The answer to one write request: at most `limit` bytes are taken, or none and an error. -/
inductive WriteReply where
  | take (limit : Nat)
  | refuse (error : SinkError)
  deriving DecidableEq

structure Sink where
  data : Array UInt8 := #[]
  writeReplies : List WriteReply := []
  /-- An entry `none` lets the flush succeed. -/
  flushReplies : List (Option SinkError) := []
  writeCalls : Nat := 0
  flushCalls : Nat := 0

namespace Sink

/-- The sink after one write request, of which it took the given bytes. -/
def answered (sink : Sink) (taken : Array UInt8) (replies : List WriteReply) : Sink :=
  { sink with
    data := sink.data ++ taken
    writeReplies := replies
    writeCalls := sink.writeCalls + 1 }

/-- Requests writes of `bytes` until all of them are taken: a short write leaves the rest for the
next request, an interrupted one is repeated, and one that takes nothing is an error. -/
def deliver (bytes : Array UInt8) : List WriteReply → EStateM SinkError Sink Unit
  | [], sink => .ok () (sink.answered bytes [])
  | .refuse error :: replies, sink =>
    if error.kind = .interrupted then deliver bytes replies (sink.answered #[] replies)
    else .error error (sink.answered #[] replies)
  | .take limit :: replies, sink =>
    if limit = 0 then .error .noProgress (sink.answered #[] replies)
    else if bytes.size ≤ limit then .ok () (sink.answered bytes replies)
    else deliver (bytes.extract limit bytes.size) replies
      (sink.answered (bytes.extract 0 limit) replies)

/-- Hands over all of `bytes`; nothing is requested for an empty array. -/
def writeAll (bytes : Array UInt8) : EStateM SinkError Sink Unit := fun sink =>
  if bytes.isEmpty then .ok () sink else deliver bytes sink.writeReplies sink

def flush : EStateM SinkError Sink Unit := fun sink =>
  let flushed := { sink with
    flushReplies := sink.flushReplies.tail
    flushCalls := sink.flushCalls + 1 }
  match sink.flushReplies with
  | some error :: _ => .error error flushed
  | _ => .ok () flushed

/-- Adds bytes behind the writer's back, without a request. -/
def append (sink : Sink) (bytes : List UInt8) : Sink :=
  { sink with data := sink.data ++ bytes }

end Sink

end BlockSort

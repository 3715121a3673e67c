import BlockSort.Compressor
import BlockSort.Encoder

/-!
An encoder driven call by call. What it writes waits in memory until there is room to deliver it.
-/
namespace BlockSort

structure StreamCompressor where
  /-- The encoder; its sink holds the bytes that wait for delivery, after delivered ones. -/
  encoder : Encoder
  /-- How many bytes of the sink were delivered. When all were, they are dropped. -/
  delivered : Nat := 0
  /-- Whether the end of the output was demanded. -/
  ending : Bool := false
  /-- Whether all output was delivered after that. -/
  ended : Bool := false

namespace StreamCompressor

def ofLevel (level : Level) : StreamCompressor := { encoder := .ofSink level {} }

instance : Inhabited StreamCompressor := ⟨.ofLevel default⟩

/-- Starts over, with the same level. -/
def reset (compressor : StreamCompressor) : StreamCompressor := .ofLevel compressor.encoder.level

/-- How many bytes wait for delivery. -/
def waiting (compressor : StreamCompressor) : Nat :=
  compressor.encoder.sink.data.size - compressor.delivered

/-- Runs an operation of the encoder. -/
def onEncoder (operation : EStateM Fault Encoder Unit) : EStateM Fault StreamCompressor Unit :=
  within (fun ⟨encoder, delivered, ending, ended⟩ => (encoder, (⟨·, delivered, ending, ended⟩)))
    operation

/-- Does what a call demands beyond taking its input. -/
def obey : Demand → EStateM Fault StreamCompressor Unit
  | .none => pure ()
  | .sync => onEncoder Encoder.flush
  | .full => onEncoder Encoder.reset
  | .finish => do
    onEncoder Encoder.finish
    modify ({ · with ending := true })

/-- Takes as many waiting bytes as there is room for. -/
def takeWaiting (compressor : StreamCompressor) (room : Nat) : List UInt8 × StreamCompressor :=
  let data := compressor.encoder.sink.data
  let bytes := data.extract compressor.delivered (compressor.delivered + room)
  let delivered := compressor.delivered + bytes.size
  (bytes.toList,
    if delivered = data.size then
      { compressor with encoder.channel.writer.sink.data := #[], delivered := 0 }
    else { compressor with delivered })

/-- Delivers waiting bytes. Only when none are left, more input is needed or all is done. -/
def deliver (consumed room : Nat) : EStateM Fault StreamCompressor Delivery := fun compressor =>
  match compressor.takeWaiting room with
  | (produced, compressor) =>
    if 0 < compressor.waiting then .ok ⟨consumed, produced, .needsOutput⟩ compressor
    else if compressor.ending then
      .ok ⟨consumed, produced, .done⟩ { compressor with ended := true }
    else .ok ⟨consumed, produced, .needsInput⟩ compressor

/-- One call. After the end was demanded, no more input is accepted. -/
def call : Compressor StreamCompressor := fun input room demand => do
  let compressor ← get
  if compressor.ending && !input.isEmpty then throw .lateInput
  else if compressor.ended then return ⟨0, [], .done⟩
  else
    onEncoder (Encoder.write input)
    obey demand
    deliver input.length room

/-- More bytes than any block can take in the output. -/
def blockBound : Nat := 16777216

/-- More calls than it takes to deliver all output for some further input: a block stands for one
byte at least, and a call delivers one byte at least. -/
def callBound (compressor : StreamCompressor) (input : List UInt8) : Nat :=
  compressor.waiting + blockBound * (compressor.encoder.bytesIn + input.length + 1)

/-- Compresses all of the input and delivers all output. -/
def compressWhole (input : List UInt8) : EStateM Fault StreamCompressor (Option (List UInt8)) :=
  fun compressor => Compressor.drive call (compressor.callBound input) input compressor

end StreamCompressor

end BlockSort

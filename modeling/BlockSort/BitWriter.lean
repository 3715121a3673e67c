import BlockSort.Sink

/-!
Packing of fields into bytes. Bits gather at the top of a register; complete bytes are kept ready
and go to the sink in large pieces. An operation that fails keeps the writer's state, the ready
bytes included, so that what was written is never forgotten.
-/
namespace BlockSort

structure Field where
  value : UInt32
  width : Nat
  deriving DecidableEq

namespace Field

/-- The widest field that one write can carry. -/
def widest : Nat := 24

def bit (flag : Bool) : Field := ⟨if flag then 1 else 0, 1⟩

def byte (byte : UInt8) : Field := ⟨byte.toUInt32, 8⟩

/-- A word as four bytes, highest first. -/
def word (word : UInt32) : List Field :=
  ([24, 16, 8, 0] : List UInt32).map fun amount => byte (word >>> amount).toUInt8

/-- A field that holds the given bits in order. -/
def ofBits (bits : List Bool) : Field :=
  ⟨bits.foldl (fun value flag => (value <<< 1) ||| (if flag then 1 else 0)) 0, bits.length⟩

/-- The word that remains of the value when all but the field's own bits are cleared. -/
def masked (field : Field) : UInt32 :=
  field.value &&& ((1 <<< UInt32.ofNat field.width) - 1)

end Field

structure BitWriter where
  sink : Sink := {}
  /-- The bits that do not fill a byte yet, at the high end. -/
  register : UInt32 := 0
  /-- How many bits the register holds. -/
  held : Nat := 0
  /-- Complete bytes that the sink has not taken yet. -/
  ready : Array UInt8 := #[]
  /-- How many bytes were ever completed. -/
  completed : Nat := 0

namespace BitWriter

/-- Runs an operation of the sink. -/
def onSink (operation : EStateM SinkError Sink Unit) : EStateM Fault BitWriter Unit :=
  within (fun ⟨sink, register, held, ready, completed⟩ =>
    (sink, (⟨·, register, held, ready, completed⟩))) (operation.adaptExcept .sink)

/-- Gives the sink all ready bytes. They are forgotten only when it has taken every one. -/
def release : EStateM Fault BitWriter Unit := do
  let ready := (← get).ready
  unless ready.isEmpty do
    onSink (Sink.writeAll ready)
    modify ({ · with ready := #[] })

/-- Ready bytes are released once there are this many. -/
def releaseSize : Nat := 4096

/-- Moves `count` bytes from the top of the register to the ready ones. -/
def moveBytes : (count : Nat) → BitWriter → BitWriter
  | 0, writer => writer
  | count + 1, writer =>
    moveBytes count { writer with
      register := writer.register <<< 8
      held := writer.held - 8
      ready := writer.ready.push (writer.register >>> 24).toUInt8
      completed := writer.completed + 1 }

/-- Places a field's bits below those that the register holds. -/
def load (writer : BitWriter) (field : Field) : BitWriter :=
  { writer with
    register := writer.register |||
      (field.masked <<< UInt32.ofNat (32 - writer.held - field.width))
    held := writer.held + field.width }

/-- Writes one field. A field without bits does nothing at all. -/
def put (field : Field) : EStateM Fault BitWriter Unit := fun writer =>
  if field.width = 0 then .ok () writer
  else if Field.widest < field.width then
    .error (.fieldTooWide field.width Field.widest) writer
  else
    let loaded := writer.load field
    let moved := moveBytes (loaded.held / 8) loaded
    if releaseSize ≤ moved.ready.size then release moved else .ok () moved

/-- Writes fields in order and stops at the first that fails. -/
def putAll : List Field → EStateM Fault BitWriter Unit
  | [], writer => .ok () writer
  | field :: rest, writer =>
    match put field writer with
    | .ok _ writer => putAll rest writer
    | .error fault writer => .error fault writer

/-- Completes a partial byte with zero bits. -/
def pad (writer : BitWriter) : BitWriter :=
  if writer.held = 0 then writer else moveBytes 1 { writer with held := 8 }

/-- Completes a partial byte and gives the sink everything. -/
def finish : EStateM Fault BitWriter Unit := do
  modify pad
  release

/-- Gives the sink the ready bytes and flushes it; a partial byte stays in the register. -/
def flush : EStateM Fault BitWriter Unit := do
  release
  onSink Sink.flush

end BitWriter

end BlockSort

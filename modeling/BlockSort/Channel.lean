import BlockSort.BitWriter
import BlockSort.Level

/-!
A bit writer with a journal. What is to be written is first laid out as a list of emissions, which
a channel then carries out in order, up to the first that fails.
-/
namespace BlockSort

inductive Event where
  /-- A member's header was written. -/
  | memberStarted (member : Nat) (level : Level)
  /-- A sort was given up, and the block is perturbed. -/
  | sortOverrun (work limit size : Nat)
  /-- Groups of symbols selected tables for the bits given. -/
  | tablePass (pass groups bits : Nat)
  /-- A block was written. -/
  | blockWritten (block size : Nat) (crc : UInt32) (origin : Nat) (perturbed : Bool)
      (symbols tables selectors : Nat)
  /-- A member's trailer was written, but for its padding. -/
  | trailerWritten (combined : UInt32)
  /-- A member is complete in the sink. -/
  | memberFinished (member bytesIn bytesOut : Nat)

/-- A word as eight hexadecimal digits. -/
def hexWord (word : UInt32) : String :=
  String.ofList ((List.range 8).map fun place =>
    Nat.digitChar ((word >>> UInt32.ofNat (28 - 4 * place)) &&& 0xF).toNat)

namespace Event

private def flagText (flag : Bool) : String := if flag then "true" else "false"

def render : Event → String
  | .memberStarted member level =>
    "DEBUG member " ++ member.repr ++ " started, level " ++ level.value.repr
  | .sortOverrun work limit size =>
    "DEBUG sort budget exceeded (" ++ work.repr ++ " > " ++ limit.repr ++
      "), randomising block of " ++ size.repr ++ " bytes"
  | .tablePass pass groups bits =>
    "TRACE table pass " ++ pass.repr ++ ": " ++ groups.repr ++ " groups, cost " ++ bits.repr ++
      " bits"
  | .blockWritten block size crc origin perturbed symbols tables selectors =>
    "DEBUG block " ++ block.repr ++ ": " ++ size.repr ++ " bytes, crc " ++ hexWord crc ++
      ", orig_ptr " ++ origin.repr ++ ", randomised " ++ flagText perturbed ++ ", " ++
      symbols.repr ++ " symbols, " ++ tables.repr ++ " tables, " ++ selectors.repr ++ " selectors"
  | .trailerWritten combined => "TRACE stream trailer, combined crc " ++ hexWord combined
  | .memberFinished member bytesIn bytesOut =>
    "DEBUG member " ++ member.repr ++ " finished: " ++ bytesIn.repr ++ " bytes in, " ++
      bytesOut.repr ++ " bytes out"

end Event

inductive Emission where
  | fields (content : List Field)
  | note (event : Event)

structure Channel where
  writer : BitWriter := {}
  /-- The events so far, the latest first. -/
  journal : List Event := []

namespace Channel

/-- Runs an operation of the writer. -/
def onWriter (operation : EStateM Fault BitWriter Unit) : EStateM Fault Channel Unit :=
  within (fun ⟨writer, journal⟩ => (writer, (⟨·, journal⟩))) operation

def note (channel : Channel) (event : Event) : Channel :=
  { channel with journal := event :: channel.journal }

/-- Carries out emissions in order and stops at the first that fails. -/
def emit : List Emission → EStateM Fault Channel Unit
  | [], channel => .ok () channel
  | .note event :: rest, channel => emit rest (channel.note event)
  | .fields content :: rest, channel =>
    match onWriter (BitWriter.putAll content) channel with
    | .ok _ channel => emit rest channel
    | .error fault channel => .error fault channel

end Channel

end BlockSort

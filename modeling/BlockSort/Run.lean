/-!
Runs of equal bytes. A run of up to three bytes stands for itself; a longer one, up to 255, is
four copies of its byte and one more byte with the number of copies left out.
-/
namespace BlockSort

structure Run where
  byte : UInt8
  length : UInt8
  deriving DecidableEq

namespace Run

/-- The longest run that one record can hold. -/
def longest : UInt8 := 255

/-- A run of one byte. -/
def single (byte : UInt8) : Run := ⟨byte, 1⟩

/-- The form in which a run enters a block. -/
def encode (run : Run) : List UInt8 :=
  if run.length < 4 then List.replicate run.length.toNat run.byte
  else List.replicate 4 run.byte ++ [run.length - 4]

/-- The bytes a run stands for. -/
def expand (run : Run) : List UInt8 := List.replicate run.length.toNat run.byte

end Run

/-- Where a division into runs stands: the run at the end of the bytes seen so far, as long as it
can still grow. -/
structure RunBuilder where
  growing : Option Run := none
  deriving DecidableEq

namespace RunBuilder

/-- Takes one byte and gives the run that it completes: the growing one if the byte differs from
its, or if the byte makes it as long as a run can be. -/
def push (builder : RunBuilder) (byte : UInt8) : Option Run × RunBuilder :=
  match builder.growing with
  | none => (none, ⟨some (.single byte)⟩)
  | some run =>
    if run.byte = byte then
      if run.length + 1 = Run.longest then (some ⟨byte, Run.longest⟩, ⟨none⟩)
      else (none, ⟨some ⟨byte, run.length + 1⟩⟩)
    else (some run, ⟨some (.single byte)⟩)

/-- Takes bytes in order and gives the runs they complete. -/
def pushAll (builder : RunBuilder) (bytes : List UInt8) : List Run × RunBuilder :=
  match bytes.foldl (fun (runs, builder) byte =>
      match push builder byte with
      | (some run, builder) => (run :: runs, builder)
      | (none, builder) => (runs, builder)) ([], builder) with
  | (runs, builder) => (runs.reverse, builder)

end RunBuilder

/-- All runs of a byte string. -/
def Run.divide (bytes : List UInt8) : List Run :=
  match RunBuilder.pushAll {} bytes with
  | (runs, builder) => runs ++ builder.growing.toList

end BlockSort

import BlockSort.Storage.Cells

namespace BlockSort.Coding

/-- How many tables are worth their space for a number of symbols. -/
def tableCount (symbols : Nat) : Nat :=
  if symbols < 200 then 2
  else if symbols < 600 then 3
  else if symbols < 1200 then 4
  else if symbols < 2400 then 5
  else 6

/-- Consecutive symbols of an alphabet. -/
structure Slice where
  start : Nat
  count : Nat
  deriving DecidableEq

namespace Slice

def contains (slice : Slice) (symbol : Nat) : Bool :=
  slice.start ≤ symbol && symbol < slice.start + slice.count

/-- How many symbols some frequencies stand for. -/
def total (frequencies : List Nat) : Nat := frequencies.foldl (· + ·) 0

/-- How many of the frequencies are needed to reach a share. -/
def needed : (share : Nat) → List Nat → Nat
  | _, [] => 0
  | share, frequency :: rest => if share = 0 then 0 else needed (share - frequency) rest + 1

/-- Whether the slice for the given part gives its last symbol back: every other slice does, but
not the first and not the last one. -/
def givesBack (tables part : Nat) : Bool :=
  part ≠ tables && part ≠ 1 && (tables - part) % 2 = 1

/-- Cuts the rest of an alphabet into slices, each with its share of the remaining symbols. A slice
that gives its last symbol back keeps at least one. -/
def cut (tables : Nat) : (parts start remaining : Nat) → (frequencies : List Nat) → List Slice
  | 0, _, _, _ => []
  | parts + 1, start, remaining, frequencies =>
    let reached := needed (remaining / (parts + 1)) frequencies
    let count := if 1 < reached && givesBack tables (parts + 1) then reached - 1 else reached
    ⟨start, count⟩ :: cut tables parts (start + count)
      (remaining - total (frequencies.take count)) (frequencies.drop count)

/-- What a slice takes, and how many symbols it stands for; there is no result if the frequency of
a symbol that is given back exceeds the share. -/
def takeChecked (tables part remaining : Nat) (frequencies : List Nat) : Option (Nat × Nat) := do
  let reached := needed (remaining / part) frequencies
  let share := total (frequencies.take reached)
  if 1 < reached && givesBack tables part then
    return (reached - 1, ← Cells.minus share (← frequencies[reached - 1]?))
  else return (reached, share)

/-- Cuts an alphabet into slices, and has no result if any difference would be negative. -/
def cutChecked (tables : Nat) :
    (parts start remaining : Nat) → (frequencies : List Nat) → Option (List Slice)
  | 0, _, _, _ => some []
  | parts + 1, start, remaining, frequencies => do
    let (count, share) ← takeChecked tables (parts + 1) remaining frequencies
    let remaining ← Cells.minus remaining share
    let later ← cutChecked tables parts (start + count) remaining (frequencies.drop count)
    return ⟨start, count⟩ :: later

/-- The slices of an alphabet for a number of tables, in ascending order. -/
def ofFrequencies (tables : Nat) (frequencies : List Nat) : List Slice :=
  cut tables tables 0 (total frequencies) frequencies

end Slice

/-- The supposed length of codes for the symbols of a table's own slice. -/
def nearLength : Nat := 0

/-- The supposed length of codes for all other symbols. -/
def farLength : Nat := 15

/-- The first guess for a table with the given slice. -/
def firstTable (n : Nat) (slice : Slice) : Vector Nat n :=
  Vector.ofFn fun symbol => if slice.contains symbol then nearLength else farLength

/-- The first guesses for all tables. The last table has the first slice. -/
def firstTables {n : Nat} (tables : Nat) (frequencies : Vector Nat n) : List (Vector Nat n) :=
  ((Slice.ofFrequencies tables frequencies.toList).map (firstTable n)).reverse

end BlockSort.Coding

/-!
Comparison of rotations from a given depth on. After a few bytes the comparison also looks at the
ranks of positions, known for those whose leading byte is already sorted, which ends long stretches
of equal bytes early. The work is counted in rounds of four bytes and may be limited.
-/
namespace BlockSort

abbrev Text (n : Nat) := Vector UInt8 n

/-- A text of this length has a first byte. -/
class Occupied (n : Nat) : Prop where
  positive : 0 < n

namespace Text

variable {n : Nat}

/-- The byte at any distance from the start of the text, which begins again after its end. -/
@[inline]
def byteAt [Occupied n] (text : Text n) (i : Nat) : UInt8 :=
  have bound := Nat.mod_lt i (Occupied.positive : 0 < n)
  if inside : i < n then text[i] else text[i % n]

/-- The position before a given one; before the first stands the last. -/
def before : Fin n → Fin n
  | ⟨0, bound⟩ => ⟨n - 1, Nat.sub_lt bound Nat.one_pos⟩
  | ⟨i + 1, bound⟩ => ⟨i, Nat.lt_of_succ_lt bound⟩

/-- The last byte of the rotation that starts at a position. -/
def lastByte (text : Text n) (position : Fin n) : UInt8 := text.get (before position)

end Text

/-- What a comparison of rotations reads. -/
structure Comparer (n : Nat) where
  text : Text n
  /-- For each position a rank among those with the same byte, or 0 while it is unknown. -/
  ranks : Vector Nat n
  /-- The work after which sorting is given up, if there is such a limit. -/
  budget : Option Nat

namespace Comparer

variable {n : Nat}

/-- Whether more work was done than the budget allows. -/
@[inline]
def overspent (comparer : Comparer n) (work : Nat) : Bool :=
  match comparer.budget with
  | none => false
  | some limit => limit < work

/-- The rank of a position, which may lie past the end of the text but by less than its length;
positions farther on have no rank. -/
@[inline]
def rankAt (ranks : Vector Nat n) (i : Nat) : Nat :=
  if inside : i < n then ranks[i]
  else if inside : i - n < n then ranks[i - n]
  else 0

variable [Occupied n]

/-- Compares `count` bytes from two positions on. -/
def compareBytes (text : Text n) : (count i j : Nat) → Ordering
  | 0, _, _ => .eq
  | count + 1, i, j =>
    match compare (text.byteAt i) (text.byteAt j) with
    | .eq => compareBytes text count (i + 1) (j + 1)
    | decided => decided

/-- Compares `count` bytes from two positions on, and after each pair of equal bytes the ranks. -/
def compareRanked (text : Text n) (ranks : Vector Nat n) : (count i j : Nat) → Ordering
  | 0, _, _ => .eq
  | count + 1, i, j =>
    match compare (text.byteAt i) (text.byteAt j) with
    | .eq =>
      match compare (rankAt ranks i) (rankAt ranks j) with
      | .eq => compareRanked text ranks count (i + 1) (j + 1)
      | decided => decided
    | decided => decided

/-- Leads a position past the end back into the text. -/
@[inline]
def wrap (n i : Nat) : Nat := if n ≤ i then i - n else i

/-- Compares in rounds of four bytes with ranks. Each round that finds no difference is counted. -/
def compareRounds (text : Text n) (ranks : Vector Nat n) :
    (rounds i j work : Nat) → Ordering × Nat
  | 0, _, _, work => (.eq, work)
  | rounds + 1, i, j, work =>
    match compareRanked text ranks 4 i j with
    | .eq => compareRounds text ranks rounds (wrap n (i + 4)) (wrap n (j + 4)) (work + 1)
    | decided => (decided, work)

/-- Compares two rotations from `depth` on: six bytes, and then as many rounds as cover all but
one of the bytes. -/
def compareFrom (comparer : Comparer n) (depth : Nat) (p q : Fin n) (work : Nat) :
    Ordering × Nat :=
  match compareBytes comparer.text 6 (p + depth) (q + depth) with
  | .eq =>
    compareRounds comparer.text comparer.ranks ((n + 2) / 4) (p + depth + 6) (q + depth + 6) work
  | decided => (decided, work)

/-- Whether the rotation at `p` sorts after the one at `q`, with the work done so far. -/
def exceeds (comparer : Comparer n) (depth : Nat) (p q : Fin n) (work : Nat) : Bool × Nat :=
  match comparer.compareFrom depth p q work with
  | (.gt, work) => (true, work)
  | (_, work) => (false, work)

end Comparer

end BlockSort

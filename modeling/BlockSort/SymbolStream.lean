import BlockSort.ByteSet

/-!
The symbols of a block. The ranks of its last column are written with zeros in runs: a run's length
is spelled in two digit symbols, every other rank is moved up by one, and an end symbol follows.
-/
namespace BlockSort

namespace Recency

variable {α : Type} [BEq α]

/-- Moves an item to the front of a list that keeps recent items first. -/
def touch (recent : List α) (item : α) : List α := item :: recent.erase item

/-- The place of each item at its turn. -/
def ranks (recent : List α) (items : List α) : List Nat :=
  (items.foldl (fun (recent, ranks) item =>
    (touch recent item, recent.idxOf item :: ranks)) (recent, [])).2.reverse

end Recency

/-- Symbols below `alphabet`. -/
structure SymbolStream where
  alphabet : Nat
  symbols : List (Fin alphabet)

namespace SymbolStream

/-- A run of zeros in bijective base two, lowest digit first: symbol 0 stands for the digit one and
symbol 1 for the digit two. -/
def zeroDigits (count : Nat) : List Nat :=
  if count = 0 then []
  else (if count % 2 = 1 then 0 else 1) :: zeroDigits ((count - 1) / 2)
termination_by count
decreasing_by omega

/-- Ranks with their zeros in runs. -/
def ofRanks (ranks : List Nat) : List Nat :=
  match ranks.foldl (fun (zeros, symbols) rank =>
      if rank = 0 then (zeros + 1, symbols)
      else (0, (rank + 1) :: ((zeroDigits zeros).reverse ++ symbols))) (0, []) with
  | (zeros, symbols) => symbols.reverseAux (zeroDigits zeros)

/-- The symbols of a last column in which the given byte values occur. The end symbol is the
greatest of the alphabet. -/
def ofColumn (present : ByteSet) (column : List UInt8) : SymbolStream :=
  let recent := present.toList
  ⟨recent.length + 2,
    (ofRanks (Recency.ranks recent column) ++ [recent.length + 1]).map
      (Fin.ofNat (recent.length + 2))⟩

/-- How often each symbol occurs. -/
def histogram {alphabet : Nat} (symbols : List (Fin alphabet)) : Vector Nat alphabet :=
  symbols.foldl (fun counts (symbol : Fin alphabet) =>
    counts.set symbol (counts.get symbol + 1) symbol.isLt) (Vector.replicate alphabet 0)

end SymbolStream

end BlockSort

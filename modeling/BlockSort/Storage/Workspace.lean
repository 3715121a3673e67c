import BlockSort.Storage.CodingSpace

namespace BlockSort

structure Workspace where
  sorting : SortSpace
  coding : CodingSpace

namespace Workspace

/-- The number of entries in a table of pairs, and one more. -/
def pairCount : Nat := 65537

/-- Storage for blocks of at most the given size. -/
def ofSize (size : Nat) : Workspace :=
  { sorting :=
      { order := Array.replicate size 0
        starts := Array.replicate pairCount 0
        ranks := Array.replicate (size + Block.margin + 1) 0
        pending := [] }
    coding := .empty }

/-- Hands the array of the ranks over to the symbols, without what it holds. -/
def beginCoding : Workspace → Workspace
  | ⟨⟨order, starts, _, pending⟩, ⟨symbols, counts, lengths, codes, selectors, ranks⟩⟩ =>
    ⟨⟨order, starts, symbols, pending⟩, ⟨#[], counts, lengths, codes, selectors, ranks⟩⟩

/-- Cuts or extends an array to a size. -/
def resize (cells : Array Nat) (size : Nat) : Array Nat :=
  cells.extract 0 size ++ Array.replicate (size - cells.size) 0

/-- Hands the array of the symbols back, with what it holds. Only its size is restored. -/
def endCoding : Workspace → Workspace
  | ⟨⟨order, starts, unused, pending⟩, ⟨symbols, counts, lengths, codes, selectors, ranks⟩⟩ =>
    ⟨⟨order, starts, resize symbols (order.size + Block.margin + 1), pending⟩,
      ⟨unused, counts, lengths, codes, selectors, ranks⟩⟩

end Workspace

end BlockSort

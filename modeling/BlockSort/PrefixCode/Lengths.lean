import BlockSort.PrefixCode.Heap

/-!
Code lengths with a limit. The lengths are the depths of a tree of least weight; while one exceeds
the limit, all frequencies are halved and a new tree is built. The codes are canonical: those of one
length are consecutive numbers in the order of the symbols, and those of the next length go on from
there with one bit more.
-/
namespace BlockSort.PrefixCode

inductive Tree (α : Type) where
  | leaf (symbol : α)
  | node (left right : Tree α)

namespace Tree

variable {α : Type} {n : Nat}

/-- A node over two weighted trees. -/
def join (a b : Weighted (Tree α)) : Weighted (Tree α) :=
  ⟨Weight.join a.weight b.weight, .node a.item b.item⟩

/-- Joins the two lightest trees of a heap until one is left. -/
def merge : {n : Nat} → Heap (Tree α) (n + 1) → Weighted (Tree α)
  | 0, heap => heap[0]
  | n + 1, heap =>
    match heap.takeLeast with
    | (first, heap) =>
      match Heap.takeLeast heap with
      | (second, heap) => merge (n := n) (Heap.add heap (join first second))

/-- Writes the depth of every leaf below a tree at the given depth. -/
def recordDepths (depths : Vector Nat n) (depth : Nat) : Tree (Fin n) → Vector Nat n
  | .leaf symbol => depths.set symbol depth symbol.isLt
  | .node left right =>
    recordDepths (recordDepths depths (depth + 1) left) (depth + 1) right

end Tree

variable {n : Nat}

/-- The depths of the symbols in the tree that their weights lead to. -/
def depths (weights : Vector Weight n) : Vector Nat n :=
  match n, weights with
  | 0, _ => #v[]
  | n + 1, weights =>
    let leaves := Vector.ofFn fun symbol : Fin (n + 1) =>
      (⟨weights[symbol], .leaf symbol⟩ : Weighted (Tree (Fin (n + 1))))
    Tree.recordDepths (Vector.replicate (n + 1) 0) 0 (Tree.merge (Heap.ofVector leaves)).item

/-- Builds trees, at most `rounds` of them after the first, until no depth exceeds the limit. -/
def fitDepths (limit : Nat) : (rounds : Nat) → Vector Weight n → Vector Nat n
  | 0, weights => depths weights
  | rounds + 1, weights =>
    let found := depths weights
    if found.any (limit < ·) then fitDepths limit rounds (weights.map Weight.halve) else found

/-- Frequencies have 24 bits, so that after as many halvings all of them are one or two. -/
def halvings : Nat := 32

/-- The code lengths for the given frequencies, none longer than `limit`. -/
def lengths (frequencies : Vector UInt32 n) (limit : Nat) : Vector Nat n :=
  fitDepths limit halvings (frequencies.map Weight.ofFrequency)

/-- The code after the given number of codes, extended by one bit. -/
def extend (code : UInt32) (count : Nat) : UInt32 := (code + UInt32.ofNat count) <<< 1

/-- The first code of each length from 0 on, up to the longest of the given lengths. Length 0
takes no part in the numbering and begins at zero as well. -/
def firstCodes (lengths : List Nat) : Array UInt32 :=
  ((List.range (lengths.foldl max 0)).drop 1).foldl (fun codes length =>
    codes.push (extend (codes.getD length 0) (lengths.count length))) #[0, 0]

/-- Gives each symbol the next code of its length. -/
def handOut (next : Array UInt32) : List Nat → List UInt32
  | [] => []
  | length :: rest => next.getD length 0 :: handOut (next.modify length (· + 1)) rest

/-- The codes of symbols with the given lengths. -/
def codes (lengths : List Nat) : List UInt32 := handOut (firstCodes lengths) lengths

end BlockSort.PrefixCode

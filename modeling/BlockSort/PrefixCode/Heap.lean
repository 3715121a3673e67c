namespace BlockSort.PrefixCode

/-- The frequency in the upper 24 bits and the height of the subtree in the low byte, so that among
equal frequencies the lower subtree is the lighter. -/
abbrev Weight := UInt32

namespace Weight

/-- The weight of a leaf. A symbol that does not occur counts as one that occurs once. -/
def ofFrequency (frequency : UInt32) : Weight := (max frequency 1) <<< 8

/-- The weight of a node over two others: the frequencies add up, and it is one higher than the
higher of them. -/
def join (a b : Weight) : Weight :=
  ((a &&& 0xFFFFFF00) + (b &&& 0xFFFFFF00)) ||| (1 + max (a &&& 0xFF) (b &&& 0xFF))

/-- The weight of a leaf with about half the frequency, but at least one. -/
def halve (weight : Weight) : Weight :=
  let frequency : UInt32 := weight >>> 8
  (1 + frequency / 2) <<< 8

end Weight

structure Weighted (α : Type) where
  weight : Weight
  item : α

abbrev Heap (α : Type) (n : Nat) := Vector (Weighted α) n

namespace Heap

variable {α : Type} {n : Nat}

/-- Exchanges the item at a place with those above it as long as it is lighter. -/
def siftUp (heap : Heap α n) (place : Nat) (bound : place < n) : Heap α n :=
  if inner : 0 < place then
    if heap[place].weight < heap[(place - 1) / 2].weight then
      siftUp (heap.swap place ((place - 1) / 2)) ((place - 1) / 2) (by omega)
    else heap
  else heap
termination_by place
decreasing_by omega

/-- Exchanges the item at a place with the lighter one below it, unless it is lighter itself. Of
two equal ones below, the first is taken. -/
def siftDown (heap : Heap α n) (place : Nat) : Heap α n :=
  if below : 2 * place + 1 < n then
    if both : 2 * place + 2 < n then
      if heap[2 * place + 2].weight < heap[2 * place + 1].weight then
        if heap[place].weight < heap[2 * place + 2].weight then heap
        else siftDown (heap.swap place (2 * place + 2)) (2 * place + 2)
      else if heap[place].weight < heap[2 * place + 1].weight then heap
      else siftDown (heap.swap place (2 * place + 1)) (2 * place + 1)
    else if heap[place].weight < heap[2 * place + 1].weight then heap
    else siftDown (heap.swap place (2 * place + 1)) (2 * place + 1)
  else heap
termination_by n - place
decreasing_by all_goals omega

/-- The heap that arises when items are added in order. -/
def ofVector (items : Vector (Weighted α) n) : Heap α n :=
  Fin.foldl n (fun heap place => siftUp heap place place.isLt) items

/-- Adds an item at the end and lets it rise. -/
def add (heap : Heap α n) (item : Weighted α) : Heap α (n + 1) :=
  siftUp (heap.push item) n (Nat.lt_succ_self n)

/-- The items when the last one has taken the place of the one in front. -/
def refilled (heap : Heap α (n + 1)) : Heap α n := (heap.set 0 heap[n]).pop

/-- The item in front, and the heap that remains without it. -/
def takeLeast (heap : Heap α (n + 1)) : Weighted α × Heap α n :=
  (heap[0], siftDown heap.refilled 0)

end Heap

end BlockSort.PrefixCode

import BlockSort.PrefixCode.Lengths
import BlockSort.Storage.Cells

/-!
Code trees in arrays. Nodes have numbers: first come the leaves of the symbols, from 1 on, then the
nodes over them in the order in which they arise. Node 0 is lighter than all others; it stands above
the heap, so that a node that rises need not ask whether it has arrived in front.
-/
namespace BlockSort

open PrefixCode (Weight)

/-- The largest alphabet: the places of 256 values, of which one is spelled by two digits, and the
end symbol. -/
def CodingSpace.largestAlphabet : Nat := 258

structure NodeSpace where
  /-- Node 0, and from place 1 on the nodes that are still to be joined. -/
  heap : Array Nat
  weights : Array Weight
  /-- The node above each node, unless it is a root. -/
  parents : Array (Option Nat)
  /-- The number of nodes that are still to be joined. -/
  count : Nat
  /-- The number of nodes, not counting node 0. -/
  nodes : Nat

namespace NodeSpace

/-- Moves the nodes above a place down as long as they are heavier than the given one, and puts it
into the gap that is left. -/
def rise (weights : Array Weight) (node : Nat) (weight : Weight) (heap : Array Nat) (place : Nat) :
    Option (Array Nat) := do
  let above ← heap[place / 2]?
  if weight < (← weights[above]?) then
    -- at place 0 this would go on for ever
    if inner : 0 < place then rise weights node weight (← Cells.put heap place above) (place / 2)
    else none
  else Cells.put heap place node
termination_by place
decreasing_by omega

/-- The place of the lighter one of the nodes below a place. Of two equal ones, the first is
taken. -/
def lighter (weights : Array Weight) (heap : Array Nat) (count place : Nat) : Option Nat :=
  if 2 * place < count then do
    let second ← heap[2 * place + 1]?
    let first ← heap[2 * place]?
    return if (← weights[second]?) < (← weights[first]?) then 2 * place + 1 else 2 * place
  else some (2 * place)

theorem lighter_bounds {weights : Array Weight} {heap : Array Nat} {count place lower : Nat}
    (found : lighter weights heap count place = some lower) (below : 2 * place ≤ count) :
    2 * place ≤ lower ∧ lower ≤ count := by
  rw [lighter] at found
  split at found
  · simp only [Option.bind_eq_bind, Option.bind_eq_some_iff] at found
    obtain ⟨second, -, first, -, other, -, one, -, found⟩ := found
    split at found <;> cases found <;> omega
  · cases found
    omega

/-- Moves the lighter one of the nodes below a place up as long as it is not heavier than the given
one, and puts that into the gap that is left. -/
def sink (weights : Array Weight) (count node : Nat) (weight : Weight) (heap : Array Nat)
    (place : Nat) : Option (Array Nat) :=
  if below : 0 < place ∧ 2 * place ≤ count then
    match found : lighter weights heap count place with
    | none => none
    | some lower => do
      let child ← heap[lower]?
      if weight < (← weights[child]?) then Cells.put heap place node
      else sink weights count node weight (← Cells.put heap place child) lower
  else Cells.put heap place node
termination_by count - place
decreasing_by
  have bounds := lighter_bounds found below.2
  omega

/-- Takes the node in front from the heap. The last one takes its place and sinks. -/
def takeLeast (space : NodeSpace) : Option (Nat × NodeSpace) := do
  let least ← space.heap[1]?
  let last ← space.heap[space.count]?
  let heap ← Cells.put space.heap 1 last
  let count ← Cells.minus space.count 1
  let heap ← sink space.weights count last (← space.weights[last]?) heap 1
  return (least, { space with heap, count })

/-- Puts a node into the heap, at the end first. -/
def add (space : NodeSpace) (node : Nat) : Option NodeSpace := do
  let count := space.count + 1
  let heap ← Cells.put space.heap count node
  let heap ← rise space.weights node (← space.weights[node]?) heap count
  return { space with heap, count }

/-- Joins the two nodes that are taken first under a new one, and adds that. -/
def joinLeast (space : NodeSpace) : Option NodeSpace := do
  let (first, space) ← takeLeast space
  let (second, space) ← takeLeast space
  let nodes := space.nodes + 1
  let parents ← Cells.put space.parents first (some nodes)
  let parents ← Cells.put parents second (some nodes)
  let joined := Weight.join (← space.weights[first]?) (← space.weights[second]?)
  let weights ← Cells.put space.weights nodes joined
  let parents ← Cells.put parents nodes none
  add { space with weights, parents, nodes } nodes

theorem count_takeLeast {space next : NodeSpace} {least : Nat}
    (taken : space.takeLeast = some (least, next)) : next.count + 1 = space.count := by
  simp only [takeLeast, Option.bind_eq_bind, Option.bind_eq_some_iff] at taken
  obtain ⟨_, -, _, -, _, -, count, less, _, -, _, -, taken⟩ := taken
  rw [Cells.minus] at less
  split at less
  · cases less
    cases taken
    exact Nat.sub_add_cancel ‹_›
  · cases less

theorem count_joinLeast {space next : NodeSpace} (joined : space.joinLeast = some next) :
    next.count + 1 = space.count := by
  simp only [joinLeast, Option.bind_eq_bind, Option.bind_eq_some_iff, add] at joined
  obtain ⟨⟨_, one⟩, first, ⟨_, two⟩, second, _, -, _, -, _, -, _, -, _, -, _, -, _, -, _, -, _, -,
    joined⟩ := joined
  have one := count_takeLeast first
  have two := count_takeLeast second
  cases joined
  dsimp only at one two ⊢
  omega

/-- Joins nodes until one is left. -/
def joinAll (space : NodeSpace) : Option NodeSpace :=
  if 1 < space.count then
    match joined : joinLeast space with
    | none => none
    | some next => joinAll next
  else some space
termination_by space.count
decreasing_by
  have := count_joinLeast joined
  omega

/-- A heap of the leaves of all symbols, each of them a root. -/
def plant (alphabet : Nat) (space : NodeSpace) : Option NodeSpace := do
  let heap ← Cells.put space.heap 0 0
  let weights ← Cells.put space.weights 0 0
  let parents ← Cells.put space.parents 0 none
  (List.range alphabet).foldlM
    (fun space symbol => do
      let parents ← Cells.put space.parents (symbol + 1) none
      add { space with parents } (symbol + 1))
    { heap, weights, parents, count := 0, nodes := alphabet }

/-- The number of steps from a node up to a root. A way with more steps than there are places in the
array never ends. -/
def climb (parents : Array (Option Nat)) : (places node depth : Nat) → Option Nat
  | 0, _, _ => none
  | places + 1, node, depth => do
    match ← parents[node]? with
    | some above => climb parents places above (depth + 1)
    | none => some depth

/-- The depths of all leaves. -/
def depths (alphabet : Nat) (space : NodeSpace) : Option (List Nat) :=
  (List.range alphabet).mapM fun symbol => climb space.parents space.parents.size (symbol + 1) 0

/-- Halves the frequencies of all leaves. -/
def halve (alphabet : Nat) (space : NodeSpace) : Option NodeSpace := do
  let weights ← (List.range alphabet).foldlM
    (fun weights symbol => Cells.update weights (symbol + 1) fun weight => some weight.halve)
    space.weights
  return { space with weights }

/-- Builds trees until no depth exceeds the limit. Frequencies are one or two after the given number
of rounds, and would never change again. -/
def fit (limit alphabet : Nat) : (rounds : Nat) → NodeSpace → Option (List Nat)
  | 0, _ => none
  | rounds + 1, space => do
    let space ← joinAll (← plant alphabet space)
    let depths ← space.depths alphabet
    if depths.any (limit < ·) then fit limit alphabet rounds (← space.halve alphabet)
    else return depths.map (min · 255)

/-- The arrays for an alphabet, with the weights of its leaves. -/
def ofFrequencies (frequencies : List UInt32) : Option NodeSpace := do
  let weights ← Cells.putAll (Array.replicate (2 * CodingSpace.largestAlphabet) 0) 1
    (frequencies.map Weight.ofFrequency)
  return {
    heap := Array.replicate (CodingSpace.largestAlphabet + 2) 0
    weights
    parents := Array.replicate (2 * CodingSpace.largestAlphabet) (some 0)
    count := 0
    nodes := 0 }

/-- The code lengths for the given frequencies, none longer than `limit`. -/
def lengths (frequencies : List UInt32) (limit : Nat) : Option (List Nat) := do
  fit limit frequencies.length (PrefixCode.halvings + 1) (← ofFrequencies frequencies)

end NodeSpace

end BlockSort

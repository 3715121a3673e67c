namespace BlockSort.Shell

variable {α σ : Type} {n : Nat}

/-- Knuth's gaps, each one more than three times the one before. -/
def increments : List Nat :=
  [1, 4, 13, 40, 121, 364, 1093, 3280, 9841, 29524, 88573, 265720, 797161, 2391484]

/-- The gaps below `size`, widest first. -/
def gaps (size : Nat) : List Nat := (increments.takeWhile (· < size)).reverse

/-- Moves the item at `place` down in steps of `gap`, past all items that exceed it. -/
@[specialize]
def sink (exceeds : α → α → σ → Bool × σ) (gap first : Nat) (items : Vector α n) (state : σ)
    (place : Nat) (bound : place < n) : Vector α n × σ :=
  if room : 0 < gap ∧ first + gap ≤ place then
    match exceeds items[place - gap] items[place] state with
    | (true, state) =>
      sink exceeds gap first (items.swap (place - gap) place) state (place - gap) (by omega)
    | (false, state) => (items, state)
  else (items, state)
termination_by place

/-- Sinks `count` items in turn, from the one at `place` on. -/
@[specialize]
def pass (exceeds : α → α → σ → Bool × σ) (stop : σ → Bool) (gap first : Nat) :
    (count place : Nat) → place + count ≤ n → Vector α n → σ → Vector α n × σ
  | 0, _, _, items, state => (items, state)
  | count + 1, place, bound, items, state =>
    match sink exceeds gap first items state place (by omega) with
    | (items, state) =>
      if stop state then (items, state)
      else pass exceeds stop gap first count (place + 1) (by omega) items state

/-- Sorts the `size` items from `first` on by the given gaps. -/
@[specialize]
def sortBy (exceeds : α → α → σ → Bool × σ) (stop : σ → Bool) (first size : Nat)
    (bound : first + size ≤ n) : List Nat → Vector α n → σ → Vector α n × σ
  | [], items, state => (items, state)
  | gap :: gaps, items, state =>
    if stop state then (items, state)
    else if narrow : gap ≤ size then
      match pass exceeds stop gap first (size - gap) (first + gap) (by omega) items state with
      | (items, state) => sortBy exceeds stop first size bound gaps items state
    else sortBy exceeds stop first size bound gaps items state

/-- Sorts the `size` items from `first` on. -/
@[specialize]
def sort (exceeds : α → α → σ → Bool × σ) (stop : σ → Bool) (first size : Nat)
    (bound : first + size ≤ n) (items : Vector α n) (state : σ) : Vector α n × σ :=
  sortBy exceeds stop first size bound (gaps size) items state

end BlockSort.Shell

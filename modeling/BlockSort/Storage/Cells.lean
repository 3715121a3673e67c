namespace BlockSort.Cells

variable {α : Type}

/-- Puts an item at a place. -/
@[inline]
def put (cells : Array α) (place : Nat) (item : α) : Option (Array α) :=
  if inside : place < cells.size then some (cells.set place item inside) else none

/-- Exchanges the items at two places. -/
@[inline]
def exchange (cells : Array α) (one other : Nat) : Option (Array α) :=
  if inside : one < cells.size ∧ other < cells.size then
    some (cells.swap one other inside.1 inside.2)
  else none

/-- Puts items at the places from `place` on. -/
def putAll (cells : Array α) (place : Nat) : List α → Option (Array α)
  | [] => some cells
  | item :: rest => do putAll (← put cells place item) (place + 1) rest

/-- The first items. -/
def front (cells : Array α) (count : Nat) : Option (List α) :=
  if count ≤ cells.size then some (cells.toList.take count) else none

/-- The item at a place is replaced by the one that is computed from it. -/
@[inline]
def update (cells : Array α) (place : Nat) (change : α → Option α) : Option (Array α) := do
  put cells place (← change (← cells[place]?))

def minus (number part : Nat) : Option Nat := if part ≤ number then some (number - part) else none

end BlockSort.Cells

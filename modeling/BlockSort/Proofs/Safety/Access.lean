import BlockSort.Block
import BlockSort.Storage.Cells
import Mathlib

/-!
Computations in storage that are watched: every access to an array, every difference and the depth
of every sort by insertion is noted. What a computation gives is not changed by the notes.
-/
namespace BlockSort

theorem Cells.size_update {α : Type} {cells after : Array α} {place : Nat}
    {change : α → Option α} (changed : Cells.update cells place change = some after) :
    after.size = cells.size := by
  obtain ⟨item, -, changed⟩ := Option.bind_eq_some_iff.mp changed
  obtain ⟨next, -, changed⟩ := Option.bind_eq_some_iff.mp changed
  rw [Cells.put] at changed
  split at changed
  · cases changed
    exact Array.size_set ..
  · cases changed

/-- What a sort in place does that could go wrong. -/
inductive Access where
  /-- A byte is read of a block that has `size` bytes, from place 1 on. -/
  | byte (slots : Array UInt8) (size place : Nat)
  /-- A cell of an array is read or written. -/
  | cell (extent place : Nat)
  /-- The first cells of an array are read or written at once. -/
  | front (extent count : Nat)
  /-- A number is taken from another. -/
  | difference (number part : Nat)
  /-- A range is sorted by insertion, whose rotations agree on their first bytes. -/
  | insertion (depth : Nat)

/-- Accesses are inside of their arrays, differences are not negative, and no range is sorted by
insertion too deep. A byte read past the end of its block is in the margin behind it and is the one
that stands in the block at this position modulo its size. -/
def Access.Safe : Access → Prop
  | .byte slots size place =>
    place < slots.size ∧ (size < place →
      place ≤ size + Block.margin ∧ slots[place]? = slots[(place - 1) % size + 1]?)
  | .cell extent place => place < extent
  | .front extent count => count ≤ extent
  | .difference number part => part ≤ number
  | .insertion depth => depth ≤ 11

/-- A computation with its accesses in order, up to the one at which it fails, if it does. -/
structure Watched (α : Type) where
  accesses : List Access
  outcome : Option α

namespace Watched

variable {α β : Type}

-- Not the field itself: where two computations are compared by what they give, the kernel unfolds
-- a field at once and runs them, but it compares the arguments of a function first.
/-- What a computation gives, unless it fails. -/
def value (computation : Watched α) : Option α := computation.outcome

/-- A computation after other accesses. -/
def after (earlier : List Access) (rest : Watched α) : Watched α :=
  ⟨earlier ++ rest.accesses, rest.outcome⟩

instance : Monad Watched where
  pure value := ⟨[], some value⟩
  bind first next :=
    match first.outcome with
    | none => ⟨first.accesses, none⟩
    | some value => (next value).after first.accesses

theorem bind_eq (first : Watched α) (next : α → Watched β) :
    first >>= next =
      match first.value with
      | none => ⟨first.accesses, none⟩
      | some value => (next value).after first.accesses := rfl

instance : LawfulMonad Watched := .mk' _
  (fun ⟨accesses, value⟩ => by
    cases value with
    | none => rfl
    | some value => exact congrArg (Watched.mk · (some value)) (List.append_nil accesses))
  (fun _ _ => rfl)
  (fun ⟨accesses, value⟩ next last => by
    cases value with
    | none => rfl
    | some value =>
      simp only [bind_eq, after, Watched.value]
      cases (next value).outcome with
      | none => rfl
      | some other => simp only [List.append_assoc])

/-- Bytes are read by place. -/
def byte (slots : Array UInt8) (size place : Nat) : Watched UInt8 :=
  ⟨[.byte slots size place], slots[place]?⟩

def cell (cells : Array α) (place : Nat) : Watched α :=
  ⟨[.cell cells.size place], cells[place]?⟩

def put (cells : Array α) (place : Nat) (item : α) : Watched (Array α) :=
  ⟨[.cell cells.size place], Cells.put cells place item⟩

def exchange (cells : Array α) (one other : Nat) : Watched (Array α) :=
  ⟨[.cell cells.size one, .cell cells.size other], Cells.exchange cells one other⟩

def update (cells : Array α) (place : Nat) (change : α → Option α) : Watched (Array α) :=
  ⟨[.cell cells.size place], Cells.update cells place change⟩

def front (cells : Array α) (count : Nat) : Watched (List α) :=
  ⟨[.front cells.size count], Cells.front cells count⟩

def minus (number part : Nat) : Watched Nat :=
  ⟨[.difference number part], Cells.minus number part⟩

/-- Notes an access that is made by what follows. -/
def note (access : Access) : Watched Unit := ⟨[access], some ()⟩

section Value

@[simp]
theorem value_pure (value : α) : (pure value : Watched α).value = some value := rfl

@[simp]
theorem value_bind (first : Watched α) (next : α → Watched β) :
    (first >>= next).value = first.value.bind fun value => (next value).value := by
  rw [bind_eq]
  cases first.value <;> rfl

@[simp]
theorem value_byte (slots : Array UInt8) (size place : Nat) :
    (byte slots size place).value = slots[place]? := rfl

@[simp]
theorem value_cell (cells : Array α) (place : Nat) : (cell cells place).value = cells[place]? := rfl

@[simp]
theorem value_put (cells : Array α) (place : Nat) (item : α) :
    (put cells place item).value = Cells.put cells place item := rfl

@[simp]
theorem value_exchange (cells : Array α) (one other : Nat) :
    (exchange cells one other).value = Cells.exchange cells one other := rfl

@[simp]
theorem value_update (cells : Array α) (place : Nat) (change : α → Option α) :
    (update cells place change).value = Cells.update cells place change := rfl

@[simp]
theorem value_front (cells : Array α) (count : Nat) :
    (front cells count).value = Cells.front cells count := rfl

@[simp]
theorem value_minus (number part : Nat) : (minus number part).value = Cells.minus number part := rfl

@[simp]
theorem value_note (access : Access) : (note access).value = some () := rfl

theorem value_mapM (items : List α) (computation : α → Watched β) :
    (items.mapM computation).value = items.mapM fun item => (computation item).value := by
  induction items with
  | nil => rfl
  | cons item rest ih =>
    rw [List.mapM_cons, List.mapM_cons]
    simp only [value_bind, value_pure, ih]
    rfl

end Value

/-- A computation gives a result, and all its accesses are safe. -/
structure Performs (computation : Watched α) (result : α) : Prop where
  value : computation.value = some result
  safe : ∀ access ∈ computation.accesses, access.Safe

namespace Performs

variable {computation : Watched α} {next : α → Watched β} {result : α} {final : β}

theorem pure (value : α) : Performs (Pure.pure value) value := ⟨rfl, by simp [Pure.pure]⟩

theorem given {item : α} (done : some item = some result) :
    Performs (Pure.pure item) result := by
  cases done
  exact Performs.pure result

theorem ite {condition : Prop} [Decidable condition] {one other : Option α}
    {first second : Watched α} (done : (if condition then one else other) = some result)
    (holds : condition → one = some result → Performs first result)
    (fails : ¬condition → other = some result → Performs second result) :
    Performs (if condition then first else second) result := by
  split at done
  · rename_i true
    rw [if_pos true]
    exact holds true done
  · rename_i false
    rw [if_neg false]
    exact fails false done

theorem after {earlier : List Access} (first : ∀ access ∈ earlier, access.Safe)
    (second : Performs computation result) : Performs (computation.after earlier) result :=
  ⟨second.value, fun access member =>
    (List.mem_append.mp member).elim (first access) (second.safe access)⟩

theorem bind (first : Performs computation result) (second : Performs (next result) final) :
    Performs (computation >>= next) final := by
  rw [bind_eq, first.value]
  exact second.after first.safe

theorem single (access : Access) (safe : access.Safe) (result : α) :
    Performs ⟨[access], some result⟩ result :=
  ⟨rfl, by simpa using safe⟩

theorem note (access : Access) (safe : access.Safe) : Performs (Watched.note access) () :=
  single access safe ()

theorem cell {cells : Array α} {place : Nat} (read : cells[place]? = some result) :
    Performs (Watched.cell cells place) result := by
  rw [Watched.cell, read]
  exact single (.cell _ _) (Array.getElem?_eq_some_iff.mp read).1 result

theorem put {cells after : Array α} {place : Nat} {item : α}
    (written : Cells.put cells place item = some after) :
    Performs (Watched.put cells place item) after := by
  rw [Watched.put, written]
  rw [Cells.put] at written
  split at written
  · rename_i inside
    exact single (.cell _ _) inside after
  · cases written

theorem exchange {cells after : Array α} {one other : Nat}
    (exchanged : Cells.exchange cells one other = some after) :
    Performs (Watched.exchange cells one other) after := by
  refine ⟨exchanged, ?_⟩
  rw [Cells.exchange] at exchanged
  split at exchanged
  · rename_i inside
    simpa [Watched.exchange, Access.Safe] using inside
  · cases exchanged

theorem update {cells after : Array α} {place : Nat} {change : α → Option α}
    (changed : Cells.update cells place change = some after) :
    Performs (Watched.update cells place change) after := by
  rw [Watched.update, changed]
  obtain ⟨item, read, -⟩ := Option.bind_eq_some_iff.mp changed
  exact single (.cell _ _) (Array.getElem?_eq_some_iff.mp read).1 after

theorem front {cells : Array α} {count : Nat} {items : List α}
    (read : Cells.front cells count = some items) :
    Performs (Watched.front cells count) items := by
  rw [Watched.front, read]
  rw [Cells.front] at read
  split at read
  · rename_i inside
    exact single (.front _ _) inside items
  · cases read

theorem minus {number part rest : Nat} (left : Cells.minus number part = some rest) :
    Performs (Watched.minus number part) rest := by
  rw [Watched.minus, left]
  rw [Cells.minus] at left
  split at left
  · rename_i less
    exact single (.difference _ _) less rest
  · cases left

theorem mapM {items : List α} {computation : α → Watched β} {plain : α → Option β}
    (each : ∀ item ∈ items, ∀ result, plain item = some result →
      Performs (computation item) result)
    {results : List β} (done : items.mapM plain = some results) :
    Performs (items.mapM computation) results := by
  induction items generalizing results with
  | nil =>
    rw [List.mapM_nil] at done ⊢
    cases done
    exact .pure []
  | cons item rest ih =>
    rw [List.mapM_cons] at done ⊢
    obtain ⟨first, one, done⟩ := Option.bind_eq_some_iff.mp done
    obtain ⟨others, more, done⟩ := Option.bind_eq_some_iff.mp done
    cases done
    refine (each item (by simp) first one).bind ((ih (fun other member => ?_) more).bind (.pure _))
    exact each other (by simp [member])

end Performs

/-- The first bytes of a block stand again past its end. -/
def Mirrored (slots : Array UInt8) (size : Nat) : Prop :=
  ∀ place, size < place → place ≤ size + Block.margin →
    slots[place]? = slots[(place - 1) % size + 1]?

/-- The slots of a block, and those in the margins around it. -/
def readable (slots : Array UInt8) (size : Nat) : Array UInt8 :=
  slots.extract 0 (size + Block.margin + 1)

section Byte

variable {slots : Array UInt8} {size place : Nat} {read : UInt8}

/-- A byte that is found in the block or the margins is read safely. -/
theorem Mirrored.byte (mirrored : Mirrored slots size)
    (found : (readable slots size)[place]? = some read) :
    Performs (Watched.byte slots size place) read := by
  obtain ⟨inside, same⟩ := Array.getElem?_eq_some_iff.mp found
  rw [readable, Array.size_extract] at inside
  have here : slots[place]? = some read := by
    rw [Array.getElem?_eq_getElem (by omega), ← same]
    simp [readable]
  rw [Watched.byte, here]
  exact .single (.byte _ _ _)
    ⟨by omega, fun past => ⟨by omega, mirrored place past (by omega)⟩⟩ read

/-- A byte of the block itself, or the one before it, is read safely wherever it is found. -/
theorem Performs.inner (found : slots[place]? = some read) (inner : place ≤ size) :
    Performs (Watched.byte slots size place) read := by
  rw [Watched.byte, found]
  exact .single (.byte _ _ _) ⟨(Array.getElem?_eq_some_iff.mp found).1, fun past => by omega⟩ read

end Byte

end Watched

end BlockSort

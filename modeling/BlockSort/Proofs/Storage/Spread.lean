import BlockSort.Storage.Cells
import Mathlib

namespace BlockSort

theorem mapM_of_forall {α β : Type} {items : List α} {run : α → Option β} (value : α → β)
    (each : ∀ item ∈ items, run item = some (value item)) :
    items.mapM run = some (items.map value) := by
  induction items with
  | nil => rfl
  | cons item rest ih =>
    rw [List.mapM_cons, each item (by simp), ih fun other member => each other (by simp [member])]
    rfl

theorem mapM_range {β : Type} {items : List β} {run : Nat → Option β}
    (each : ∀ place item, items[place]? = some item → run place = some item) :
    (List.range items.length).mapM run = some items := by
  induction items using List.reverseRecOn with
  | nil => rfl
  | append_singleton items item ih =>
    have last : run items.length = some item := each items.length item (by simp)
    have before := ih fun place other found => by
      have inside := (List.getElem?_eq_some_iff.mp found).1
      exact each place other (by rw [List.getElem?_append_left inside, found])
    rw [List.length_append, List.length_singleton, List.range_succ, List.mapM_append, before,
      List.mapM_cons, last]
    rfl

/-- An array holds the values of a function. -/
structure Tabulates {α : Type} (size : Nat) (value : Nat → α) (cells : Array α) : Prop where
  extent : cells.size = size
  get : ∀ place < size, cells[place]? = some (value place)

namespace Tabulates

variable {α : Type} {size : Nat} {value other : Nat → α} {cells : Array α}

theorem put (tabulates : Tabulates size value cells) {place : Nat} (inside : place < size)
    (item : α) :
    ∃ after, Cells.put cells place item = some after ∧
      Tabulates size (Function.update value place item) after := by
  have bound : place < cells.size := by rwa [tabulates.extent]
  refine ⟨cells.set place item, dif_pos bound, by rw [Array.size_set, tabulates.extent], ?_⟩
  intro other near
  rw [Array.getElem?_set, Function.update_apply]
  by_cases same : other = place
  · simp [same]
  · rw [if_neg (Ne.symm same), if_neg same, tabulates.get other near]

theorem update (tabulates : Tabulates size value cells) {place : Nat} (inside : place < size)
    (change : α → α) :
    ∃ after, Cells.update cells place (some <| change ·) = some after ∧
      Tabulates size (Function.update value place (change (value place))) after := by
  rw [Cells.update, tabulates.get place inside]
  exact tabulates.put inside _

theorem congr (tabulates : Tabulates size value cells)
    (same : ∀ place < size, value place = other place) : Tabulates size other cells :=
  ⟨tabulates.extent, fun place inside => by rw [tabulates.get place inside, same place inside]⟩

end Tabulates

/-- Where a bucket begins. -/
def begins (sizes : Nat → Nat) (bucket : Nat) : Nat := ((List.range bucket).map sizes).sum

theorem begins_succ (sizes : Nat → Nat) (bucket : Nat) :
    begins sizes (bucket + 1) = begins sizes bucket + sizes bucket := by
  simp [begins, List.range_succ]

theorem begins_mono (sizes : Nat → Nat) {bucket other : Nat} (order : bucket ≤ other) :
    begins sizes bucket ≤ begins sizes other := by
  induction order with
  | refl => exact Nat.le_refl _
  | step order ih =>
    rw [begins_succ]
    exact Nat.le_add_right_of_le ih

variable {count bucket : Nat} {cells other : Nat → List Nat} {rest : List Nat}

/-- An array of buckets, with some items behind them. -/
def spread (count : Nat) (cells : Nat → List Nat) (rest : List Nat) : Array Nat :=
  ((List.range count).flatMap cells ++ rest).toArray

/-- Some buckets side by side. -/
def stretch (cells : Nat → List Nat) (first number : Nat) : List Nat :=
  (List.range' first number).flatMap cells

theorem stretch_congr {first number : Nat}
    (same : ∀ bucket, first ≤ bucket → bucket < first + number → cells bucket = other bucket) :
    stretch cells first number = stretch other first number := by
  refine List.flatMap_congr fun bucket member => ?_
  rw [List.mem_range'_1] at member
  exact same bucket member.1 member.2

theorem length_stretch {sizes : Nat → Nat} (sized : ∀ bucket, (cells bucket).length = sizes bucket)
    (first number : Nat) :
    (stretch cells first number).length = begins sizes (first + number) - begins sizes first := by
  induction number with
  | zero => simp [stretch]
  | succ number ih =>
    have order := begins_mono sizes (Nat.le_add_right first number)
    rw [stretch] at ih ⊢
    rw [List.range'_1_concat, List.flatMap_append, List.length_append, ih, List.flatMap_singleton,
      sized, ← Nat.add_assoc, begins_succ]
    omega

/-- An array of buckets, cut around some of them. -/
theorem spread_cut {first number : Nat} (inside : first + number ≤ count) :
    spread count cells rest =
      (stretch cells 0 first ++ stretch cells first number ++
        (stretch cells (first + number) (count - (first + number)) ++ rest)).toArray := by
  have total : List.range count = List.range' 0 first ++ List.range' first number ++
      List.range' (first + number) (count - (first + number)) := by
    have tail : 0 + first = first := Nat.zero_add first
    rw [List.append_assoc, List.range'_append_1]
    conv => rhs; arg 2; arg 1; rw [← tail]
    rw [List.range'_append_1, List.range_eq_range']
    congr 1
    omega
  simp only [spread, total, stretch, List.flatMap_append, List.append_assoc]

theorem getElem?_spread {sizes : Nat → Nat}
    (sized : ∀ bucket, (cells bucket).length = sizes bucket) {first number : Nat}
    (inside : first + number ≤ count) {place : Nat}
    (near : place < (stretch cells first number).length) :
    (spread count cells rest)[begins sizes first + place]? =
      (stretch cells first number)[place]? := by
  have lead : (stretch cells 0 first).length = begins sizes first := by
    rw [length_stretch sized, Nat.zero_add]
    simp [begins]
  rw [spread_cut inside, List.getElem?_toArray, List.append_assoc,
    List.getElem?_append_right (by omega), lead, Nat.add_sub_cancel_left,
    List.getElem?_append_left near]

theorem spread_eq (inside : bucket < count) :
    spread count cells rest =
      (stretch cells 0 bucket ++ cells bucket ++
        (stretch cells (bucket + 1) (count - (bucket + 1)) ++ rest)).toArray := by
  rw [@spread_cut _ _ _ bucket 1 (by omega)]
  simp [stretch]

variable (rest) in
theorem put_spread {sizes : Nat → Nat} (sized : ∀ bucket, (cells bucket).length = sizes bucket)
    (inside : bucket < count) {first last : List Nat} {old : Nat} (item : Nat)
    (other : Nat → List Nat) (before : cells bucket = first ++ old :: last)
    (after : other bucket = first ++ item :: last)
    (others : ∀ another, another ≠ bucket → other another = cells another) :
    Cells.put (spread count cells rest) (begins sizes bucket + first.length) item =
      some (spread count other rest) := by
  have lead : (stretch cells 0 bucket).length = begins sizes bucket := by
    rw [length_stretch sized, Nat.zero_add]
    simp [begins]
  have left : stretch other 0 bucket = stretch cells 0 bucket :=
    stretch_congr fun another _ less => others another (by omega)
  have right : stretch other (bucket + 1) (count - (bucket + 1)) =
      stretch cells (bucket + 1) (count - (bucket + 1)) :=
    stretch_congr fun another more _ => others another (by omega)
  rw [spread_eq inside, spread_eq inside, before, after, left, right, Cells.put, dif_pos]
  · simp [← lead]
  · simp only [List.size_toArray, List.length_append, List.length_cons, lead]
    omega

/-- Any list that is long enough is a list of buckets, with some items behind them. -/
theorem exists_cells (sizes : Nat → Nat) (count : Nat) (items : List Nat)
    (enough : ∀ bucket, begins sizes bucket ≤ items.length) :
    ∃ cells : Nat → List Nat, (∀ bucket, (cells bucket).length = sizes bucket) ∧
      spread count cells (items.drop (begins sizes count)) = items.toArray := by
  refine ⟨fun bucket => (items.drop (begins sizes bucket)).take (sizes bucket),
    fun bucket => ?_, ?_⟩
  · have next := enough (bucket + 1)
    rw [begins_succ] at next
    rw [List.length_take, List.length_drop]
    omega
  · have front : (List.range count).flatMap (fun bucket =>
        (items.drop (begins sizes bucket)).take (sizes bucket)) =
          items.take (begins sizes count) := by
      induction count with
      | zero => simp [begins]
      | succ count ih =>
        rw [List.range_succ, List.flatMap_append, ih, List.flatMap_singleton, begins_succ,
          List.take_add]
    rw [spread, front, List.take_append_drop]

end BlockSort

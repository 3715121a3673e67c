import Mathlib

namespace BlockSort

variable {α κ : Type} {n lo hi : Nat}

/-- A property holds of all items between two places. -/
def Zone (property : α → Prop) (start stop : Nat) (items : Vector α n) : Prop :=
  ∀ place (bound : place < n), start ≤ place → place < stop → property items[place]

/-- The second vector arises from the first by exchanges between `lo` and `hi`. -/
inductive Exchanged (lo hi : Nat) : Vector α n → Vector α n → Prop where
  | refl (items : Vector α n) : Exchanged lo hi items items
  | swap {before after : Vector α n} (earlier : Exchanged lo hi before after) (i j : Nat)
      (iBound : i < n) (jBound : j < n) (iRange : lo ≤ i ∧ i < hi) (jRange : lo ≤ j ∧ j < hi) :
      Exchanged lo hi before (after.swap i j iBound jBound)

namespace Exchanged

variable {before middle after : Vector α n}

theorem once (items : Vector α n) {i j : Nat} (iBound : i < n) (jBound : j < n)
    (iRange : lo ≤ i ∧ i < hi) (jRange : lo ≤ j ∧ j < hi) :
    Exchanged lo hi items (items.swap i j iBound jBound) :=
  (Exchanged.refl items).swap i j iBound jBound iRange jRange

theorem trans (first : Exchanged lo hi before middle) (second : Exchanged lo hi middle after) :
    Exchanged lo hi before after := by
  induction second with
  | refl => exact first
  | swap earlier i j iBound jBound iRange jRange ih => exact ih.swap i j iBound jBound iRange jRange

theorem symm (exchanged : Exchanged lo hi before after) : Exchanged lo hi after before := by
  induction exchanged with
  | refl => exact .refl _
  | @swap after earlier i j iBound jBound iRange jRange ih =>
    have undone := once (after.swap i j) iBound jBound iRange jRange
    rw [Vector.swap_swap] at undone
    exact undone.trans ih

theorem mono {low high : Nat} (exchanged : Exchanged lo hi before after) (lower : low ≤ lo)
    (higher : hi ≤ high) : Exchanged low high before after := by
  induction exchanged with
  | refl => exact .refl _
  | swap earlier i j iBound jBound iRange jRange ih =>
    exact ih.swap i j iBound jBound (by omega) (by omega)

theorem perm (exchanged : Exchanged lo hi before after) : after.Perm before := by
  induction exchanged with
  | refl => exact .refl _
  | swap earlier i j iBound jBound iRange jRange ih => exact (Vector.swap_perm _ _).trans ih

theorem outside (exchanged : Exchanged lo hi before after) (place : Nat) (bound : place < n)
    (out : place < lo ∨ hi ≤ place) : after[place] = before[place] := by
  induction exchanged with
  | refl => rfl
  | swap earlier i j iBound jBound iRange jRange ih =>
    rw [Vector.getElem_swap_of_ne, ih]
    · omega
    · omega

theorem all {low high : Nat} {property : α → Prop} (exchanged : Exchanged lo hi before after)
    (inside : low ≤ lo ∧ hi ≤ high ∨ hi ≤ low ∨ high ≤ lo)
    (held : Zone property low high before) : Zone property low high after := by
  induction exchanged with
  | refl => exact held
  | swap earlier i j iBound jBound iRange jRange ih =>
    intro place bound above below
    rw [Vector.getElem_swap]
    split
    · exact ih j jBound (by omega) (by omega)
    · split
      · exact ih i iBound (by omega) (by omega)
      · exact ih place bound above below

end Exchanged

/-- The keys between `lo` and `hi` do not descend. -/
def SortedOn [LE κ] (key : α → κ) (lo hi : Nat) (items : Vector α n) : Prop :=
  ∀ i j (iBound : i < n) (jBound : j < n), lo ≤ i → i < j → j < hi → key items[i] ≤ key items[j]

/-- A range stays sorted while items outside of it are exchanged. -/
theorem Exchanged.sorted [LE κ] {key : α → κ} {before after : Vector α n} {low high : Nat}
    (exchanged : Exchanged lo hi before after) (apart : high ≤ lo ∨ hi ≤ low)
    (sorted : SortedOn key low high before) : SortedOn key low high after := by
  intro i j iBound jBound above order below
  rw [exchanged.outside i iBound (by omega), exchanged.outside j jBound (by omega)]
  exact sorted i j iBound jBound above order below

/-- Two sorted ranges side by side are one sorted range if the keys of the first do not exceed
those of the second. -/
theorem SortedOn.append [LE κ] {key : α → κ} {items : Vector α n} {middle : Nat}
    (first : SortedOn key lo middle items) (second : SortedOn key middle hi items)
    (across : ∀ i j (iBound : i < n) (jBound : j < n), lo ≤ i → i < middle → middle ≤ j → j < hi →
      key items[i] ≤ key items[j]) : SortedOn key lo hi items := by
  intro i j iBound jBound above order below
  by_cases left : j < middle
  · exact first i j iBound jBound above order left
  · by_cases right : middle ≤ i
    · exact second i j iBound jBound right order below
    · exact across i j iBound jBound above (by omega) (by omega) below

theorem SortedOn.pairwise [LE κ] {key : α → κ} {items : Vector α n}
    (sorted : SortedOn key 0 n items) :
    items.toList.Pairwise fun first second => key first ≤ key second := by
  rw [List.pairwise_iff_getElem]
  intro i j iBound jBound order
  simp only [Vector.length_toList] at iBound jBound
  simpa using sorted i j iBound jBound (Nat.zero_le i) order jBound

end BlockSort

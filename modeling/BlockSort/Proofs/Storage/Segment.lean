import BlockSort.Storage.Cells
import Mathlib

namespace BlockSort

namespace Cells

variable {α : Type}

theorem put_of_lt {cells : Array α} {place : Nat} (inside : place < cells.size) (item : α) :
    put cells place item = some (cells.set place item inside) := dif_pos inside

theorem put_toArray (first last : List α) (old item : α) {place : Nat}
    (here : place = first.length) :
    put (first ++ old :: last).toArray place item = some (first ++ item :: last).toArray := by
  subst here
  rw [put_of_lt (by simp)]
  simp

theorem getElem?_toArray {first last : List α} {item : α} {place : Nat}
    (here : place = first.length) : (first ++ item :: last).toArray[place]? = some item := by
  subst here
  simp

end Cells

variable {n m : Nat}

/-- An array that holds a vector of positions between two other parts. -/
def embed (left : List Nat) (items : Vector (Fin n) m) (right : List Nat) : Array Nat :=
  (left ++ items.toList.map Fin.val ++ right).toArray

variable {left right : List Nat}

theorem size_embed (items : Vector (Fin n) m) :
    (embed left items right).size = left.length + m + right.length := by
  simp [embed, Nat.add_assoc]

theorem getElem?_embed (items : Vector (Fin n) m) {place : Nat} (inside : place < m) :
    (embed left items right)[left.length + place]? = some items[place].val := by
  simp [embed, List.getElem?_append, inside]

theorem set_embed (items : Vector (Fin n) m) {place : Nat} (inside : place < m) (item : Fin n)
    (bound : left.length + place < (embed left items right).size) :
    (embed left items right).set (left.length + place) item.val bound =
      embed left (items.set place item inside) right := by
  apply Array.toList_inj.mp
  simp only [embed, Vector.toList_set, List.map_set, List.append_assoc]
  simp [inside]

theorem put_embed (items : Vector (Fin n) m) {place : Nat} (inside : place < m) (item : Fin n) :
    Cells.put (embed left items right) (left.length + place) item.val =
      some (embed left (items.set place item inside) right) := by
  have bound : left.length + place < (embed left items right).size := by
    rw [size_embed]
    omega
  rw [Cells.put_of_lt bound, set_embed items inside]

theorem exchange_embed (items : Vector (Fin n) m) {one other : Nat} (oneInside : one < m)
    (otherInside : other < m) :
    Cells.exchange (embed left items right) (left.length + one) (left.length + other) =
      some (embed left (items.swap one other) right) := by
  have oneBound : left.length + one < (embed left items right).size := by
    rw [size_embed]
    omega
  have otherBound : left.length + other < (embed left items right).size := by
    rw [size_embed]
    omega
  rw [Cells.exchange, dif_pos ⟨oneBound, otherBound⟩, Array.swap_def]
  have first := @getElem?_embed _ _ left right items one oneInside
  have second := @getElem?_embed _ _ left right items other otherInside
  rw [Array.getElem?_eq_getElem oneBound, Option.some.injEq] at first
  rw [Array.getElem?_eq_getElem otherBound, Option.some.injEq] at second
  simp only [first, second, set_embed items oneInside]
  rw [set_embed _ otherInside]
  congr 2

end BlockSort

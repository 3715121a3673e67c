import BlockSort.Proofs.Decoder
import BlockSort.Proofs.Rotation.Sorting

/-!
The sort of rotations is undone by its links, whichever way it orders equal rotations. The rows in
the order of their last bytes list the rotations one byte earlier in sorted order again, so their
words are those of the sorted rows.
-/
namespace BlockSort.Decoder

open Bucket (Ordered)

variable {n : Nat} [Occupied n] {text : Text n} {order : List (Fin n)}

/-- One row comes before another along the links: its byte is smaller, or equal and higher up. -/
def LinkedBefore (column : List UInt8) (first second : Nat) : Prop :=
  ∃ one other, column[first]? = some one ∧ column[second]? = some other ∧
    (one < other ∨ one = other ∧ first < second)

theorem links_pairwise (column : List UInt8) :
    (links column).Pairwise (LinkedBefore column) := by
  refine List.pairwise_flatMap.mpr ⟨fun byte _ => ?_, allBytes_ascending.imp ?_⟩
  · refine List.Pairwise.imp_of_mem ?_ (List.pairwise_lt_range.filter _)
    intro first second inFirst inSecond less
    have one := (List.mem_filter.mp inFirst).2
    have other := (List.mem_filter.mp inSecond).2
    simp only [decide_eq_true_eq] at one other
    exact ⟨byte, byte, one, other, .inr ⟨rfl, less⟩⟩
  · intro byte higher less first inFirst second inSecond
    have one := (List.mem_filter.mp inFirst).2
    have other := (List.mem_filter.mp inSecond).2
    simp only [decide_eq_true_eq] at one other
    exact ⟨byte, higher, one, other, .inl less⟩

theorem mem_links (column : List UInt8) (row : Nat) : row ∈ links column ↔ row < column.length := by
  rw [links, List.mem_flatMap]
  constructor
  · rintro ⟨byte, -, member⟩
    exact List.mem_range.mp (List.mem_filter.mp member).1
  · intro inside
    refine ⟨column[row], mem_allBytes _, List.mem_filter.mpr ⟨List.mem_range.mpr inside, ?_⟩⟩
    simp [inside]

theorem links_perm (column : List UInt8) : (links column).Perm (List.range column.length) := by
  refine (List.perm_ext_iff_of_nodup ?_ List.nodup_range).mpr fun row => by
    rw [mem_links, List.mem_range]
  refine (links_pairwise column).imp fun ⟨one, other, atFirst, atSecond, before⟩ same => ?_
  subst same
  rw [atFirst, Option.some.injEq] at atSecond
  rcases before with less | ⟨-, less⟩
  · exact absurd (atSecond ▸ less) (UInt8.lt_irrefl _)
  · exact absurd less (Nat.lt_irrefl _)

/-- The rotation in a row. -/
def rotationAt (order : List (Fin n)) (row : Nat) : Fin n :=
  order.getD row ⟨0, Occupied.positive⟩

theorem map_rotationAt (order : List (Fin n)) :
    (List.range order.length).map (rotationAt order) = order := by
  apply List.ext_getElem
  · simp
  · intro row inside bound
    simp [rotationAt, bound]

/-- The last column of a sort. -/
def lastColumn (text : Text n) (order : List (Fin n)) : List UInt8 :=
  order.map (Text.lastByte text)

theorem lastColumn_get {row : Nat} (inside : row < order.length) :
    (lastColumn text order)[row]? = some (text.byteAt (Text.before (rotationAt order row))) := by
  simp [lastColumn, rotationAt, inside, Text.lastByte, Text.byteAt_fin]

/-- Along the links, the rotations one byte earlier are in order. -/
theorem links_ordered (ordered : Ordered text order) :
    Ordered text ((links (lastColumn text order)).map fun row =>
      Text.before (rotationAt order row)) := by
  refine List.pairwise_map.mpr (List.Pairwise.imp_of_mem ?_ (links_pairwise _))
  rintro first second inFirst inSecond ⟨one, other, atFirst, atSecond, before⟩
  rw [mem_links, lastColumn, List.length_map] at inFirst inSecond
  rw [lastColumn_get inFirst, Option.some.injEq] at atFirst
  rw [lastColumn_get inSecond, Option.some.injEq] at atSecond
  subst atFirst atSecond
  rcases before with less | ⟨same, less⟩
  · exact le_of_lt (Text.word_lt_of_byteAt_lt less)
  · rw [Text.word_le_iff_succ same, Text.word_before_add_one, Text.word_before_add_one]
    have sorted := List.pairwise_iff_getElem.mp ordered first second inFirst inSecond less
    simpa [rotationAt, inFirst, inSecond] using sorted

omit [Occupied n] in
theorem map_before_perm (perm : order.Perm (List.finRange n)) :
    (order.map Text.before).Perm order := by
  refine (List.perm_ext_iff_of_nodup ?_ (perm.nodup_iff.mpr (List.nodup_finRange n))).mpr
    fun position => ?_
  · exact (perm.nodup_iff.mpr (List.nodup_finRange n)).map Rotation.before_injective
  · have all : ∀ position, position ∈ order := fun position =>
      perm.mem_iff.mpr (List.mem_finRange position)
    obtain ⟨next, rfl⟩ := Rotation.before_surjective position
    exact ⟨fun _ => all _, fun _ => List.mem_map_of_mem (all next)⟩

theorem words_eq (perm : order.Perm (List.finRange n)) (ordered : Ordered text order) :
    order.map (fun position => text.word position.val) =
      (links (lastColumn text order)).map fun row =>
        text.word (Text.before (rotationAt order row)).val := by
  refine List.Perm.eq_of_pairwise (fun _ _ _ _ => le_antisymm)
    (List.pairwise_map.mpr ordered) ?_ ?_
  · have sorted := links_ordered ordered
    rw [Ordered, List.pairwise_map] at sorted
    exact List.pairwise_map.mpr sorted
  · have linked := (links_perm (lastColumn text order)).map (rotationAt order)
    rw [lastColumn, List.length_map, map_rotationAt, ← lastColumn] at linked
    have moved := ((linked.map Text.before).trans (map_before_perm perm)).map
      fun position : Fin n => text.word position.val
    simpa [List.map_map, Function.comp_def] using moved.symm

/-- The link of a row leads to the row of a rotation that is one byte further on, and the byte
passed is found in the column there. -/
theorem link_spec (perm : order.Perm (List.finRange n)) (ordered : Ordered text order) {row i : Nat}
    (inside : row < n) (at_row : text.word (rotationAt order row) = text.word i) :
    let next := (links (lastColumn text order)).getD row 0
    next < n ∧ (lastColumn text order).getD next 0 = text.byteAt i ∧
      text.word (rotationAt order next) = text.word (i + 1) := by
  have size : order.length = n := by simpa using perm.length_eq
  have count : (links (lastColumn text order)).length = n := by
    rw [(links_perm _).length_eq, List.length_range, lastColumn, List.length_map, size]
  have linked : (links (lastColumn text order)).getD row 0 ∈ links (lastColumn text order) := by
    simp [inside, count]
  generalize next_eq : (links (lastColumn text order)).getD row 0 = next at linked
  rw [mem_links, lastColumn, List.length_map, size] at linked
  have words := congrArg (·[row]?) (words_eq perm ordered)
  have step : text.word (Text.before (rotationAt order next)).val = text.word i := by
    rw [← at_row, ← next_eq]
    simpa [rotationAt, inside, count, size] using words.symm
  refine ⟨linked, ?_, ?_⟩
  · rw [List.getD_eq_getElem?_getD, lastColumn_get (by omega), Option.getD_some]
    exact Text.byteAt_eq_of_word step 0
  · rw [← Text.word_before_add_one text (rotationAt order next)]
    have same := Text.byteAt_eq_of_word step
    apply congrArg toLex
    funext distance
    have next := same (1 + distance)
    rw [← Nat.add_assoc, ← Nat.add_assoc] at next
    rw [next]

theorem follow_eq (perm : order.Perm (List.finRange n)) (ordered : Ordered text order)
    (count : Nat) {row i : Nat} (inside : row < n)
    (at_row : text.word (rotationAt order row) = text.word i) :
    follow (lastColumn text order) (links (lastColumn text order)) count row =
      (List.range' i count).map text.byteAt := by
  induction count generalizing row i with
  | zero => rfl
  | succ count ih =>
    obtain ⟨bound, byte, word⟩ := link_spec perm ordered inside at_row
    rw [follow, List.range'_succ, List.map_cons]
    simp only [byte, ih bound word]

/-- The rotations of a text, sorted in any order that agrees with their words, are undone from every
row whose rotation spells the word of the text. -/
theorem unrotate_from (perm : order.Perm (List.finRange n)) (ordered : Ordered text order)
    {row : Nat} (inside : row < n) (at_row : text.word (rotationAt order row) = text.word 0) :
    unrotate (lastColumn text order) row = text.toList := by
  have size : order.length = n := by simpa using perm.length_eq
  rw [unrotate, follow_eq perm ordered _ inside at_row, lastColumn, List.length_map, size]
  apply List.ext_getElem
  · simp
  · intro place inside bound
    simp only [List.getElem_map, List.getElem_range', Nat.zero_add, Nat.one_mul,
      Vector.getElem_toList]
    exact Text.byteAt_of_lt text (by simpa using bound)

theorem unrotate_lastColumn (perm : order.Perm (List.finRange n)) (ordered : Ordered text order) :
    unrotate (lastColumn text order) (order.findIdx (·.val = 0)) = text.toList := by
  have size : order.length = n := by simpa using perm.length_eq
  have found : order.findIdx (·.val = 0) < order.length := by
    rw [List.findIdx_lt_length]
    exact ⟨⟨0, Occupied.positive⟩, perm.mem_iff.mpr (List.mem_finRange _), by simp⟩
  have first : rotationAt order (order.findIdx (·.val = 0)) = ⟨0, Occupied.positive⟩ := by
    have zero := List.findIdx_getElem (w := found)
    simp only [decide_eq_true_eq] at zero
    simp only [rotationAt, List.getD_eq_getElem?_getD, List.getElem?_eq_getElem found,
      Option.getD_some]
    exact Fin.ext zero
  exact unrotate_from perm ordered (by omega) (by rw [first])

end BlockSort.Decoder

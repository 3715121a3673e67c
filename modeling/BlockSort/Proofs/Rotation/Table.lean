import BlockSort.Proofs.ByteSet
import BlockSort.Proofs.Rotation.Bucket
import BlockSort.Rotation.Order
import Mathlib

namespace BlockSort.Rotation

open Bucket (Ordered)

variable {n : Nat} [Occupied n] {text : Text n} {table : PairTable (List (Fin n))}

/-- A rotation starts with two given bytes. -/
structure Leads (text : Text n) (first second : UInt8) (position : Fin n) : Prop where
  first : text.get position = first
  second : text.byteAt (position + 1) = second

theorem Leads.agree {first second : UInt8} {position base : Fin n}
    (leads : Leads text first second position) (other : Leads text first second base) :
    text.Agree 2 position base := by
  refine ((text.agree_zero position base).succ ?_).succ ?_
  · simp only [Nat.add_zero, Text.byteAt_fin]
    rw [leads.first, other.first]
  · exact leads.second.trans other.second.symm

/-- Every rotation is filed once, in the bucket of its first two bytes. -/
structure Filed (text : Text n) (table : PairTable (List (Fin n))) : Prop where
  nodup : ∀ first second, (table.get first second).Nodup
  mem : ∀ first second position,
    position ∈ table.get first second ↔ Leads text first second position

theorem Filed.set (filed : Filed text table) {first second : UInt8} {positions : List (Fin n)}
    (perm : positions.Perm (table.get first second)) :
    Filed text (table.set first second positions) := by
  constructor
  · intro one other
    rw [PairTable.get_set]
    split
    · exact perm.nodup_iff.mpr (filed.nodup first second)
    · exact filed.nodup one other
  · intro one other position
    rw [PairTable.get_set]
    split
    · rename_i same
      obtain ⟨rfl, rfl⟩ := same
      rw [perm.mem_iff]
      exact filed.mem first second position
    · exact filed.mem one other position

omit [Occupied n] in
theorem get_push (table : PairTable (List (Fin n))) (first second other last : UInt8)
    (position : Fin n) :
    (table.push first second position).get other last =
      if first = other ∧ second = last then position :: table.get other last
      else table.get other last := by
  rw [PairTable.push, PairTable.get_set]
  by_cases same : first = other ∧ second = last
  · obtain ⟨rfl, rfl⟩ := same
    simp
  · simp [same]

theorem get_foldl_push (text : Text n) (positions : List (Fin n))
    (table : PairTable (List (Fin n))) (first second : UInt8) :
    (positions.foldl (fun table position =>
      table.push (text.get position) (text.byteAt (position.val + 1)) position) table).get
        first second =
    (positions.filter fun position => text.get position = first ∧
      text.byteAt (position.val + 1) = second).reverse ++ table.get first second := by
  induction positions generalizing table with
  | nil => simp
  | cons position rest ih =>
    rw [List.foldl_cons, ih, get_push]
    by_cases leads : text.get position = first ∧ text.byteAt (position.val + 1) = second
    · rw [if_pos leads, List.filter_cons_of_pos (by simpa using leads), List.reverse_cons,
        List.append_assoc, List.singleton_append]
    · rw [if_neg leads, List.filter_cons_of_neg (by simpa using leads)]

theorem collect_filed (text : Text n) : Filed text (collect text) := by
  constructor
  · intro first second
    rw [collect, get_foldl_push, PairTable.get_fill, List.append_nil, List.nodup_reverse]
    exact (List.nodup_finRange n).filter _
  · intro first second position
    rw [collect, get_foldl_push, PairTable.get_fill, List.append_nil, List.mem_reverse,
      List.mem_filter]
    simp only [List.mem_finRange, true_and, decide_eq_true_eq]
    exact ⟨fun ⟨one, other⟩ => ⟨one, other⟩, fun leads => ⟨leads.first, leads.second⟩⟩

theorem Filed.mem_row (filed : Filed text table) (first : UInt8) (position : Fin n) :
    position ∈ (table.row first).flatten ↔ text.get position = first := by
  simp only [PairTable.row, ← List.flatMap_def, List.mem_flatMap, filed.mem]
  constructor
  · rintro ⟨second, -, leads⟩
    exact leads.first
  · intro leads
    exact ⟨text.byteAt (position + 1), mem_allBytes _, leads, rfl⟩

theorem Filed.nodup_row (filed : Filed text table) (first : UInt8) :
    (table.row first).flatten.Nodup := by
  rw [PairTable.row, ← List.flatMap_def, List.nodup_flatMap]
  refine ⟨fun second _ => filed.nodup first second, allBytes_nodup.imp ?_⟩
  intro second other different position one two
  have leads := ((filed.mem first second position).mp one).second
  exact different (leads.symm.trans ((filed.mem first other position).mp two).second)

/-- All rows of a table, one after the other. -/
def listed (table : PairTable (List (Fin n))) : List (Fin n) :=
  allBytes.flatMap fun first => (table.row first).flatten

theorem Filed.listed_perm (filed : Filed text table) :
    (listed table).Perm (List.finRange n) := by
  refine (List.perm_ext_iff_of_nodup ?_ (List.nodup_finRange n)).mpr fun position => ?_
  · rw [listed, List.nodup_flatMap]
    refine ⟨fun first _ => filed.nodup_row first, allBytes_nodup.imp ?_⟩
    intro first other different position one two
    have leads := (filed.mem_row first position).mp one
    exact different (leads.symm.trans ((filed.mem_row other position).mp two))
  · rw [listed, List.mem_flatMap]
    refine ⟨fun _ => List.mem_finRange position, fun _ => ?_⟩
    exact ⟨text.get position, mem_allBytes _, (filed.mem_row _ position).mpr rfl⟩

theorem Filed.ordered_row (filed : Filed text table) {first : UInt8}
    (buckets : ∀ second, Ordered text (table.get first second)) :
    Ordered text (table.row first).flatten := by
  rw [PairTable.row, ← List.flatMap_def, Ordered, List.pairwise_flatMap]
  refine ⟨fun second _ => buckets second, allBytes_ascending.imp ?_⟩
  intro second other less one inOne two inTwo
  have leads := (filed.mem first second one).mp inOne
  have follows := (filed.mem first other two).mp inTwo
  have same : text.byteAt one = text.byteAt two := by
    rw [Text.byteAt_fin, Text.byteAt_fin, leads.first, follows.first]
  refine (Text.word_le_iff_succ same).mpr (le_of_lt (Text.word_lt_of_byteAt_lt ?_))
  rw [leads.second, follows.second]
  exact less

theorem Filed.ordered_listed (filed : Filed text table)
    (buckets : ∀ first second, Ordered text (table.get first second)) :
    Ordered text (listed table) := by
  rw [listed, Ordered, List.pairwise_flatMap]
  refine ⟨fun first _ => filed.ordered_row (buckets first), allBytes_ascending.imp ?_⟩
  intro first other less one inOne two inTwo
  refine le_of_lt (Text.word_lt_of_byteAt_lt ?_)
  rw [Text.byteAt_fin, Text.byteAt_fin, (filed.mem_row first one).mp inOne,
    (filed.mem_row other two).mp inTwo]
  exact less

end BlockSort.Rotation

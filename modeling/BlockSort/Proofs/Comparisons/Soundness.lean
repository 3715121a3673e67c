import BlockSort.Proofs.Comparisons.Reached
import BlockSort.Storage.Workspace

/-!
Comparisons are sound. Whatever a sort compares, ranks included, the answer is the order of the two
rotations if they differ; if they do not, a sort by insertion does as well with either answer.
-/
namespace BlockSort

variable {n : Nat}

/-- What a comparison finds on a bench, and what it makes of it. -/
structure Bench.Compares (bench : Bench) (text : Text n) (depth p q work : Nat) : Prop where
  size : bench.size = n
  slots : ∀ place < n, bench.slots[place + 1]? = text[place]?
  first : p < n
  second : q < n
  agree : (text.toList.rotate p).take depth = (text.toList.rotate q).take depth
  /-- Of two places with the same byte, also past the end, a smaller rank means a rotation that is
  not greater. -/
  ranked : ∀ i j one other, i < 2 * n → j < 2 * n →
    i < n + Block.margin → j < n + Block.margin → bench.slots[i + 1]? = bench.slots[j + 1]? →
    bench.ranks[i]? = some one → bench.ranks[j]? = some other → one < other →
    text.toList.rotate i ≤ text.toList.rotate j
  decides : ∃ answer done, bench.exceeds depth p q work = some (answer, done) ∧
    (text.toList.rotate p ≠ text.toList.rotate q →
      (answer = true ↔ text.toList.rotate q < text.toList.rotate p))

/-- What a sort by insertion finds on a bench, and what it makes of it. -/
structure Bench.Inserts (bench : Bench) (text : Text n) (frame : Frame) (order : Array Nat)
    (work : Nat) : Prop where
  size : bench.size = n
  inside : ∀ position ∈ frame.slice order, position < n
  agree : ∀ one ∈ frame.slice order, ∀ other ∈ frame.slice order,
    (text.toList.rotate one).take frame.depth = (text.toList.rotate other).take frame.depth
  sorts : ∃ after done, bench.insertionSort frame order work = some (after, done) ∧
    frame.Outside order after ∧ (frame.slice after).Perm (frame.slice order) ∧
    (bench.overspent done = false → (frame.slice after).Pairwise fun one other =>
      text.toList.rotate one ≤ text.toList.rotate other) ∧
    ∃ (m : Nat) (items sorted : Vector (Fin n) m),
      frame.slice order = items.toList.map Fin.val ∧
      frame.slice after = sorted.toList.map Fin.val ∧
      Shell.sort (fun (p q : Fin n) work => bench.answer frame.depth p q work) bench.overspent 0 m
        (Nat.zero_add m).le items work = (sorted, done)

section Sound

variable [Occupied n] {text : Text n} {bench : Bench} {comparer : Comparer n}

theorem Text.Agree.take_rotate {depth p q : Nat} (agree : text.Agree depth p q) :
    (text.toList.rotate p).take depth = (text.toList.rotate q).take depth := by
  apply List.ext_getElem?
  intro distance
  rw [List.getElem?_take, List.getElem?_take]
  by_cases near : distance < depth
  · rw [if_pos near, if_pos near]
    by_cases inside : distance < n
    · rw [getElem?_rotate text p inside, getElem?_rotate text q inside, agree distance near]
    · rw [List.getElem?_eq_none (by simpa using inside),
        List.getElem?_eq_none (by simpa using inside)]
  · rw [if_neg near, if_neg near]

/-- An answer is right if the rotations differ. -/
theorem Comparer.exceeds_iff (ranked : Ranked comparer.text comparer.ranks) {depth : Nat}
    {p q : Fin n} (agree : comparer.text.Agree depth p q) (work : Nat)
    (differ : comparer.text.toList.rotate p ≠ comparer.text.toList.rotate q) :
    (comparer.exceeds depth p q work).1 = true ↔
      comparer.text.toList.rotate q < comparer.text.toList.rotate p := by
  have judges := comparer.exceeds_judges ranked depth q
  have self : comparer.text.Agree depth q q := fun _ _ => rfl
  rw [Text.rotate_lt_iff]
  constructor
  · intro answer
    apply lt_of_le_of_ne (judges.above p q work agree self answer)
    intro same
    exact differ (Text.rotate_eq_iff.mpr same.symm)
  · intro less
    by_contra answer
    exact absurd (judges.below p q work agree self (Bool.eq_false_iff.mpr answer)) (not_le.mpr less)

variable {given : Text n → Prop} {depth p q work : Nat} {frame : Frame} {order : Array Nat}

theorem Task.Fine.compares (fine : (Task.comparison bench depth p q work).Fine given) :
    ∃ text, given text ∧ bench.Compares text depth p q work := by
  obtain ⟨comparer, one, other, sound, shallow, rfl, rfl, agree⟩ := fine
  obtain ⟨known, models, ranked⟩ := sound
  refine ⟨comparer.text, known, models.size, fun place inside => ?_, one.isLt, other.isLt,
    agree.take_rotate, (models.prepared ranked).ranked, _, _,
    Bench.exceeds_eq models shallow one other work, comparer.exceeds_iff ranked agree work⟩
  rw [models.slots.bytes place (Nat.lt_add_right _ inside), Text.byteAt_of_lt _ inside,
    Vector.getElem?_eq_getElem inside]

theorem Task.Fine.inserts (fine : (Task.insertion bench frame order work).Fine given) :
    ∃ text, given text ∧ bench.Inserts text frame order work := by
  obtain ⟨comparer, ⟨known, models, ranked⟩, fits, running⟩ := fine
  obtain ⟨inside, agree⟩ := fits.slice
  obtain ⟨after, done, run, outside, kept, ordered, asks⟩ :=
    Bench.insertionSort_range (models.prepared ranked) fits work
  refine ⟨comparer.text, known, models.size, inside, fun one first other second =>
    (agree one first other second).take_rotate, after, done, run, outside, kept, fun within => ?_,
    asks running⟩
  exact (ordered within).imp Text.rotate_le_iff.mpr

end Sound

namespace BlockStore

variable {store : BlockStore} {space : SortSpace} {size : Nat}

/-- Whatever a sort compares, two rotations agree on the bytes that the comparison skips, ranks keep
to the order of rotations, and if the two rotations differ, the answer is which one is greater.
Every range that is sorted by insertion keeps its rotations, and unless the work exceeds its limit
they are in order afterwards; the same holds of any answers that are right where rotations differ.
Rotations are compared at least if a byte follows itself at two places. -/
theorem sort_comparisons (small : size < SortSpace.mark) (stored : store.Sized size)
    (occupied : store.size ≠ 0) (sized : space.Sized size) :
    (∀ bench depth p q work,
      (Task.sort store space).Leads (.comparison bench depth p q work) →
        ∃ text, store.Offers text ∧ bench.Compares text depth p q work) ∧
    (∀ bench frame order work,
      (Task.sort store space).Leads (.insertion bench frame order work) →
        ∃ text, store.Offers text ∧ bench.Inserts text frame order work) ∧
    (∀ (text : Text store.size) (σ : Type) (stop : σ → Bool)
      (exceeds : Fin store.size → Fin store.size → σ → Bool × σ),
      (∀ (one other : Fin store.size) state,
        text.toList.rotate one ≠ text.toList.rotate other →
          ((exceeds one other state).1 = true ↔
            text.toList.rotate other < text.toList.rotate one)) →
      ∀ (m : Nat) (items : Vector (Fin store.size) m) (state : σ),
        let sorted := Shell.sort exceeds stop 0 m (Nat.zero_add m).le items state
        sorted.1.Perm items ∧
          (stop sorted.2 = false → sorted.1.toList.Pairwise fun one other : Fin store.size =>
            text.toList.rotate one ≤ text.toList.rotate other)) ∧
    ∀ (byte : UInt8) (i j : Nat), i < j → j < store.size →
      (store.bytes.rotate i).take 2 = [byte, byte] →
      (store.bytes.rotate j).take 2 = [byte, byte] → (Task.sort store space).Compares := by
  have : Occupied store.size := ⟨Nat.pos_of_ne_zero occupied⟩
  refine ⟨fun bench depth p q work leads => ?_, fun bench frame order work leads => ?_,
    fun text σ stop exceeds right m items state => ?_,
    fun byte i j before inside one other => ?_⟩
  · exact (stored.fine small sized leads (by simp)).compares
  · exact (stored.fine small sized leads (by simp)).inserts
  · exact Shell.sort_orders_rotations text stop right items state
  · exact sort_compares small stored sized byte before inside one other

/-- A byte that follows itself at two places, so that a range is sorted and rotations are compared;
and answers by which an equal rotation exceeds another. -/
theorem sort_comparisons_repeated :
    let store : BlockStore :=
      { slots := #[0, 97, 97, 97, 98] ++ Array.replicate 56 7, size := 4, allowed := 20 }
    let start := Task.sort store (Workspace.ofSize 40).sorting
    (∃ bench frame order work text, start.Leads (.insertion bench frame order work) ∧
      store.Offers text ∧ bench.Inserts text frame order work) ∧
    (∃ bench depth p q work text, start.Leads (.comparison bench depth p q work) ∧
      store.Offers text ∧ bench.Compares text depth p q work) ∧
    let text : Text 4 := #v[97, 98, 97, 98]
    let sorted := Shell.sort (fun (one other : Fin 4) work =>
      (decide (text.toList.rotate other ≤ text.toList.rotate one), work + 1)) (fun _ => false) 0 4
      (Nat.le_refl 4) #v[0, 1, 2, 3] 0
    sorted.1.toList.Pairwise fun one other : Fin 4 =>
      text.toList.rotate one ≤ text.toList.rotate other := by
  intro store start
  have small : 40 < SortSpace.mark := by decide
  have stored : store.Sized 40 := ⟨by decide, by decide, rfl, by decide⟩
  have sized := (Workspace.ofSize_sized 40).sorting
  obtain ⟨comparisons, insertions, harmless, reached⟩ :=
    sort_comparisons small stored (by decide) sized
  obtain ⟨bench, frame, order, work, depth, p, q, more, sorts, compares⟩ :=
    reached 97 0 1 Nat.zero_lt_one (by decide) (by decide) (by decide)
  obtain ⟨text, known, inserts⟩ := insertions _ _ _ _ sorts
  obtain ⟨other, alike, answers⟩ := comparisons _ _ _ _ _ (sorts.trans compares)
  refine ⟨⟨_, _, _, _, text, sorts, known, inserts⟩,
    ⟨_, _, _, _, _, other, sorts.trans compares, alike, answers⟩, ?_⟩
  intro text
  refine (harmless text Nat (fun _ => false) _ (fun one other _ differ => ?_) 4 _ 0).2 rfl
  rw [decide_eq_true_eq, List.le_iff_lt_or_eq, or_iff_left differ.symm]

end BlockStore

end BlockSort

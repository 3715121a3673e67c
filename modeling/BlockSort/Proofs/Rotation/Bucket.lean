import BlockSort.Proofs.Rotation.Comparison
import BlockSort.Proofs.Rotation.Zones
import BlockSort.Rotation.Bucket

namespace BlockSort.Bucket

open BlockSort.Partition

variable {n m lo hi : Nat} [Occupied n] {comparer : Comparer n}

theorem sortRange_overspent (depth : Nat) (lo_le_hi : lo ≤ hi) (fits : hi ≤ m)
    (items : Vector (Fin n) m) (work : Nat) (spent : comparer.overspent work = true) :
    sortRange comparer lo hi depth lo_le_hi fits items work = (items, work) := by
  rw [sortRange, if_pos spent]

theorem running_of_sortRange {depth : Nat} {lo_le_hi : lo ≤ hi} {fits : hi ≤ m}
    {items sorted : Vector (Fin n) m} {work left : Nat}
    (done : sortRange comparer lo hi depth lo_le_hi fits items work = (sorted, left))
    (running : comparer.overspent left = false) : comparer.overspent work = false := by
  by_contra spent
  rw [sortRange_overspent _ _ _ _ _ (by simpa using spent), Prod.mk.injEq] at done
  exact spent (done.2 ▸ running)

theorem sortRange_exchanged (comparer : Comparer n) (depth : Nat) (lo_le_hi : lo ≤ hi)
    (fits : hi ≤ m) (items : Vector (Fin n) m) (work : Nat) :
    Exchanged lo hi items (sortRange comparer lo hi depth lo_le_hi fits items work).1 := by
  fun_induction sortRange comparer lo hi depth lo_le_hi fits items work with
  | case1 => exact .refl _
  | case2 lo hi depth lo_le_hi fits items work running shallow key pivot partition all ih =>
    exact (ofRange_spec key pivot items lo_le_hi fits).1.trans ih
  | case3 lo hi depth lo_le_hi fits items work running shallow key pivot partition several found
      ordered bounded above left aboveDone equal rest equalDone aboveIh equalIh belowIh =>
    obtain ⟨scanned, zones⟩ := ofRange_spec key pivot items lo_le_hi fits
    have gathered := (gather_spec partition fits zones).1
    rw [aboveDone] at aboveIh
    rw [equalDone] at equalIh
    have start := partition.lo_le_equalStart
    exact (scanned.trans gathered).trans ((aboveIh.mono (by omega) (Nat.le_refl hi)).trans
      ((equalIh.mono start bounded).trans (belowIh.mono (Nat.le_refl lo) (by omega))))
  | case4 => exact .refl _
  | case5 lo hi depth lo_le_hi fits items work running deep =>
    have sorted := Shell.sort_exchanged (comparer.exceeds depth) comparer.overspent lo
      (hi - lo) (by omega) items work
    exact sorted.mono (Nat.le_refl lo) (by omega)

omit [Occupied n] in
theorem pivot_occurs (key : Fin n → UInt8) (lo_lt_hi : lo < hi) (fits : hi ≤ m)
    (items : Vector (Fin n) m) :
    ¬ Zone (fun item => key item ≠ median (key items[lo]) (key items[hi - 1])
      (key items[(lo + (hi - 1)) / 2])) lo hi items := by
  intro absent
  rcases median_mem (key items[lo]) (key items[hi - 1]) (key items[(lo + (hi - 1)) / 2]) with
    found | found | found
  · exact absent lo (by omega) (by omega) (by omega) found.symm
  · exact absent (hi - 1) (by omega) (by omega) (by omega) found.symm
  · exact absent ((lo + (hi - 1)) / 2) (by omega) (by omega) (by omega) found.symm

omit [Occupied n] in
theorem equalCount_pos (key : Fin n → UInt8) (lo_lt_hi : lo < hi) (fits : hi ≤ m)
    (items : Vector (Fin n) m) :
    0 < (ofRange key (median (key items[lo]) (key items[hi - 1]) (key items[(lo + (hi - 1)) / 2]))
      items lo hi lo_lt_hi.le fits).equalCount := by
  obtain ⟨scanned, zones⟩ := ofRange_spec key _ items lo_lt_hi.le fits
  refine zones.equalCount_pos fun absent => pivot_occurs key lo_lt_hi fits items ?_
  exact scanned.symm.all (.inl ⟨Nat.le_refl lo, Nat.le_refl hi⟩) absent

/-- The rotations between two places agree on their first bytes with a common one. -/
def Aligned (text : Text n) (depth : Nat) (base : Fin n) (lo hi : Nat)
    (items : Vector (Fin n) m) : Prop :=
  Zone (fun position : Fin n => text.Agree depth position base) lo hi items

/-- Rotations that agree, and whose next byte is the pivot, agree on one byte more. -/
theorem Aligned.deeper {text : Text n} {depth : Nat} {base : Fin n} {items : Vector (Fin n) m}
    {pivot : UInt8} (aligned : Aligned text depth base lo hi items) (occupied : lo < hi)
    (fits : hi ≤ m)
    (equal : Zone (fun position : Fin n => text.byteAt (position + depth) = pivot) lo hi items) :
    Aligned text (depth + 1) items[lo] lo hi items := by
  intro place bound after before
  have one := aligned place bound after before
  have other := aligned lo (by omega) (Nat.le_refl lo) occupied
  refine (one.join other).succ ?_
  rw [equal place bound after before, equal lo (by omega) (Nat.le_refl lo) occupied]

theorem Aligned.exchanged {text : Text n} {depth low high : Nat} {base : Fin n}
    {before after : Vector (Fin n) m} (aligned : Aligned text depth base lo hi before)
    (exchanged : Exchanged low high before after)
    (inside : lo ≤ low ∧ high ≤ hi ∨ high ≤ lo ∨ hi ≤ low) :
    Aligned text depth base lo hi after := exchanged.all inside aligned

theorem Aligned.part {text : Text n} {depth low high : Nat} {base : Fin n}
    {items : Vector (Fin n) m} (aligned : Aligned text depth base lo hi items) (lower : lo ≤ low)
    (higher : high ≤ hi) : Aligned text depth base low high items :=
  fun place bound after before => aligned place bound (by omega) (by omega)

/-- Rotations that agree up to the next byte are sorted once the zones around the pivot are. -/
theorem Gathered.sorted {text : Text n} {depth equalStart equalStop : Nat} {base : Fin n}
    {items : Vector (Fin n) m} {pivot : UInt8} (aligned : Aligned text depth base lo hi items)
    (zones : Gathered (fun position : Fin n => text.byteAt (position + depth)) pivot items lo
      equalStart equalStop hi)
    (ascending : lo ≤ equalStart ∧ equalStart ≤ equalStop ∧ equalStop ≤ hi)
    (below : SortedOn (fun position : Fin n => text.word position) lo equalStart items)
    (equal : SortedOn (fun position : Fin n => text.word position) equalStart equalStop items)
    (above : SortedOn (fun position : Fin n => text.word position) equalStop hi items) :
    SortedOn (fun position : Fin n => text.word position) lo hi items := by
  have across : ∀ i j (iBound : i < m) (jBound : j < m), lo ≤ i → i < hi → lo ≤ j → j < hi →
      text.byteAt (items[i] + depth) < text.byteAt (items[j] + depth) →
      text.word items[i] ≤ text.word items[j] := by
    intro i j iBound jBound iAfter iBefore jAfter jBefore less
    have one := aligned i iBound iAfter iBefore
    have other := aligned j jBound jAfter jBefore
    exact le_of_lt ((one.join other).word_lt less)
  obtain ⟨start, ordered, bounded⟩ := ascending
  refine (below.append equal ?_).append above ?_
  · intro i j iBound jBound iAfter iBefore jAfter jBefore
    refine across i j iBound jBound iAfter (by omega) (by omega) (by omega) ?_
    rw [zones.equal j jBound jAfter jBefore]
    exact zones.below i iBound iAfter iBefore
  · intro i j iBound jBound iAfter iBefore jAfter jBefore
    refine across i j iBound jBound iAfter (by omega) (by omega) jBefore ?_
    have greater := zones.above j jBound jAfter jBefore
    by_cases early : i < equalStart
    · exact UInt8.lt_trans (zones.below i iBound iAfter early) greater
    · rw [zones.equal i iBound (by omega) iBefore]
      exact greater

/-- The zones around the pivot keep their items while they are sorted one after the other, each by a
sort of rotations that agree. -/
theorem Gathered.sortedParts {text : Text n} {depth equalStart equalStop : Nat} {base : Fin n}
    {items upper inner lower : Vector (Fin n) m} {pivot : UInt8}
    (aligned : Aligned text depth base lo hi items)
    (zones : Gathered (fun position : Fin n => text.byteAt (position + depth)) pivot items lo
      equalStart equalStop hi)
    (start : lo ≤ equalStart) (proper : equalStart < equalStop) (bounded : equalStop ≤ hi)
    (fits : hi ≤ m) (upperMoved : Exchanged equalStop hi items upper)
    (innerMoved : Exchanged equalStart equalStop upper inner)
    (lowerMoved : Exchanged lo equalStart inner lower)
    (upperSorts : ∀ base, Aligned text depth base equalStop hi items →
      SortedOn (fun position : Fin n => text.word position) equalStop hi upper)
    (innerSorts : ∀ base, Aligned text (depth + 1) base equalStart equalStop upper →
      SortedOn (fun position : Fin n => text.word position) equalStart equalStop inner)
    (lowerSorts : ∀ base, Aligned text depth base lo equalStart inner →
      SortedOn (fun position : Fin n => text.word position) lo equalStart lower) :
    SortedOn (fun position : Fin n => text.word position) lo hi lower := by
  have moved : Exchanged lo hi items lower :=
    (upperMoved.mono (by omega) (Nat.le_refl hi)).trans
      ((innerMoved.mono start bounded).trans (lowerMoved.mono (Nat.le_refl lo) (by omega)))
  have equal := upperMoved.all (.inr (.inr (Nat.le_refl _))) zones.equal
  have upperSorted := upperSorts base (aligned.part (by omega) (Nat.le_refl hi))
  have alignedUpper := aligned.exchanged upperMoved (.inl ⟨by omega, Nat.le_refl hi⟩)
  have innerSorted := innerSorts _
    (Aligned.deeper (alignedUpper.part start bounded) proper (by omega) equal)
  have alignedInner := alignedUpper.exchanged innerMoved (.inl ⟨start, bounded⟩)
  have lowerSorted := lowerSorts base (alignedInner.part (Nat.le_refl lo) (by omega))
  refine Gathered.sorted (aligned.exchanged moved (.inl ⟨Nat.le_refl lo, Nat.le_refl hi⟩))
    (⟨?_, ?_, ?_⟩ : Gathered _ pivot _ lo _ _ hi) ⟨start, proper.le, bounded⟩ lowerSorted
    (lowerMoved.sorted (.inr (Nat.le_refl _)) innerSorted)
    (lowerMoved.sorted (.inr proper.le) (innerMoved.sorted (.inr (Nat.le_refl _)) upperSorted))
  · exact lowerMoved.all (.inl ⟨Nat.le_refl _, Nat.le_refl _⟩) (innerMoved.all
      (.inr (.inr (Nat.le_refl _))) (upperMoved.all (.inr (.inr proper.le)) zones.below))
  · exact lowerMoved.all (.inr (.inl (Nat.le_refl _))) (innerMoved.all
      (.inl ⟨Nat.le_refl _, Nat.le_refl _⟩) equal)
  · exact lowerMoved.all (.inr (.inl proper.le)) (innerMoved.all (.inr (.inl (Nat.le_refl _)))
      (upperMoved.all (.inl ⟨Nat.le_refl _, Nat.le_refl _⟩) zones.above))

/-- A sort that stays within its budget leaves the range in the order of the words. -/
theorem sortRange_sorted (ranked : Comparer.Ranked comparer.text comparer.ranks) (depth : Nat)
    (lo_le_hi : lo ≤ hi) (fits : hi ≤ m) (items : Vector (Fin n) m) (work : Nat) :
    ∀ base, Aligned comparer.text depth base lo hi items →
      comparer.overspent (sortRange comparer lo hi depth lo_le_hi fits items work).2 = false →
      SortedOn (fun position : Fin n => comparer.text.word position) lo hi
        (sortRange comparer lo hi depth lo_le_hi fits items work).1 := by
  fun_induction sortRange comparer lo hi depth lo_le_hi fits items work with
  | case1 lo hi depth lo_le_hi fits items work spent =>
    intro base aligned running
    simp [spent] at running
  | case2 lo hi depth lo_le_hi fits items work going shallow key pivot partition all ih =>
    intro base aligned running
    obtain ⟨scanned, zones⟩ := ofRange_spec key pivot items lo_le_hi fits
    have kept := scanned.all (.inl ⟨Nat.le_refl lo, Nat.le_refl hi⟩) aligned
    have occupied : lo < hi := by omega
    exact ih _ (Aligned.deeper kept occupied fits (zones.all_equal all)) running
  | case3 lo hi depth lo_le_hi fits items work going shallow key pivot partition several found
      ordered bounded upper left upperDone inner rest innerDone upperIh innerIh lowerIh =>
    -- a budget that is not overspent in the end was not overspent by any of the three parts
    intro base aligned running
    have innerRunning : comparer.overspent rest = false := running_of_sortRange rfl running
    have upperRunning : comparer.overspent left = false :=
      running_of_sortRange innerDone innerRunning
    obtain ⟨scanned, zones⟩ := ofRange_spec key pivot items lo_le_hi fits
    obtain ⟨gathered, zones⟩ := gather_spec partition fits zones
    have start := partition.lo_le_equalStart
    have width := partition.equalStop_sub_equalStart
    have kept : Aligned comparer.text depth base lo hi (partition.gather fits) :=
      aligned.exchanged (scanned.trans gathered) (.inl ⟨Nat.le_refl lo, Nat.le_refl hi⟩)
    have upperMoved := sortRange_exchanged comparer depth bounded fits
      (partition.gather fits) work
    have innerMoved := sortRange_exchanged comparer (depth + 1) ordered (by omega)
      upper left
    have lowerMoved := sortRange_exchanged comparer depth start (by omega) inner rest
    rw [upperDone] at upperMoved upperIh
    rw [innerDone] at innerMoved innerIh
    exact Gathered.sortedParts kept zones start (by omega) bounded fits upperMoved innerMoved
      lowerMoved (fun base agrees => upperIh base agrees upperRunning)
      (fun base agrees => innerIh base agrees innerRunning)
      (fun base agrees => lowerIh base agrees running)
  | case4 lo hi depth lo_le_hi fits items work going shallow key pivot partition several missing =>
    exact absurd (equalCount_pos key (by omega) fits items) missing
  | case5 lo hi depth lo_le_hi fits items work going deep =>
    intro base aligned running
    have sorted := Shell.sort_sorted (comparer.exceeds_judges ranked depth base)
      (by omega)
      (fun place bound after before => aligned place bound after (by omega)) running
    intro i j iBound jBound after ascending before
    exact sorted i j iBound jBound after ascending (by omega)

/-- Positions in the order of the words that start there. -/
def Ordered (text : Text n) (positions : List (Fin n)) : Prop :=
  positions.Pairwise fun first second : Fin n => text.word first ≤ text.word second

theorem sort_perm (comparer : Comparer n) (positions : List (Fin n)) (work : Nat) :
    (sort comparer positions work).1.Perm positions := by
  unfold sort
  split
  · rename_i first second rest
    exact (sortRange_exchanged comparer 2 _ _
      (first :: second :: rest).toArray.toVector work).perm.toList
  · exact .refl _

theorem sort_ordered (ranked : Comparer.Ranked comparer.text comparer.ranks)
    {positions : List (Fin n)} {work : Nat} {base : Fin n}
    (aligned : ∀ position ∈ positions, comparer.text.Agree 2 position base)
    (running : comparer.overspent (sort comparer positions work).2 = false) :
    Ordered comparer.text (sort comparer positions work).1 := by
  match positions with
  | [] => exact .nil
  | [only] => exact List.pairwise_singleton _ only
  | first :: second :: rest =>
    have items : ∀ place (bound : place < (first :: second :: rest).toArray.size),
        comparer.text.Agree 2 (first :: second :: rest).toArray.toVector[place] base :=
      fun place bound => aligned _ (by simp)
    exact (sortRange_sorted ranked 2 _ _ (first :: second :: rest).toArray.toVector work base
      (fun place bound _ _ => items place bound) running).pairwise

end BlockSort.Bucket

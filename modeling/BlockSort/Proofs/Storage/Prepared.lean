import BlockSort.Proofs.Rotation.Comparison
import BlockSort.Proofs.Rotation.Rotated
import BlockSort.Proofs.Storage.Bench

namespace BlockSort

variable {n : Nat} [Occupied n] {text : Text n} {bench : Bench} {comparer : Comparer n}

/-- A bench whose slots hold a text for cyclic reading, with ranks for as many places. -/
structure Bench.Prepared (bench : Bench) (text : Text n) : Prop where
  size : bench.size = n
  slots : Cyclic text bench.slots
  ranks : n + Block.margin ≤ bench.ranks.size
  /-- Of two places with the same byte, also past the end, a smaller rank means a rotation that is
  not greater. -/
  ranked : ∀ i j one other, i < 2 * n → j < 2 * n →
    i < n + Block.margin → j < n + Block.margin → bench.slots[i + 1]? = bench.slots[j + 1]? →
    bench.ranks[i]? = some one → bench.ranks[j]? = some other → one < other →
    text.toList.rotate i ≤ text.toList.rotate j

namespace Bench

/-- Any text can be laid out for cyclic reading, and ranks that are all the same contradict nothing,
as before the first row is sorted. -/
theorem Prepared.unranked (text : Text n) (budget : Option Nat) : Prepared
    { slots := Array.ofFn fun place : Fin (n + Block.margin + 1) => text.byteAt (place + (n - 1))
      ranks := Array.replicate (n + Block.margin) 0, size := n, budget } text := by
  have positive : 0 < n := Occupied.positive
  refine ⟨rfl, ⟨?_, fun i near => ?_⟩, (Array.size_replicate ..).ge, ?_⟩
  · simp
  · have around : i + 1 + (n - 1) ≡ i [MOD n] := by
      rw [Nat.add_assoc, Nat.add_sub_cancel' positive, Nat.ModEq, Nat.add_mod_right]
    simp [near, Text.byteAt_congr text around]
  · intro i j one other _ _ iStored jStored _ iRank jRank less
    rw [Array.getElem?_replicate, if_pos iStored, Option.some.injEq] at iRank
    rw [Array.getElem?_replicate, if_pos jStored, Option.some.injEq] at jRank
    omega

/-- Ranks past the end are those of the first positions, as the bytes are. -/
theorem Models.prepared (models : bench.Models comparer)
    (ranked : Comparer.Ranked comparer.text comparer.ranks) : bench.Prepared comparer.text := by
  refine ⟨models.size, models.slots, ?_, ?_⟩
  · by_contra short
    have missing := models.ranks bench.ranks.size (Nat.not_le.mp short)
    rw [Array.getElem?_size] at missing
    cases missing
  · intro i j one other iNear jNear iStored jStored same iRank jRank less
    obtain ⟨iBound, iIs⟩ := Comparer.rankAt_of_lt comparer.ranks iNear
    obtain ⟨jBound, jIs⟩ := Comparer.rankAt_of_lt comparer.ranks jNear
    rw [models.ranks i iStored, iIs, Option.some.injEq] at iRank
    rw [models.ranks j jStored, jIs, Option.some.injEq] at jRank
    rw [models.slots.bytes i iStored, models.slots.bytes j jStored, Option.some.injEq,
      ← Text.byteAt_mod, ← Text.byteAt_mod _ j, Text.byteAt_of_lt _ iBound,
      Text.byteAt_of_lt _ jBound] at same
    subst iRank jRank
    have order := ranked ⟨i % n, iBound⟩ ⟨j % n, jBound⟩ same less
    rw [Text.rotate_le_iff, ← Text.word_congr _ (Nat.mod_modEq i n),
      ← Text.word_congr _ (Nat.mod_modEq j n)]
    exact order

variable {p q i j depth count : Nat}

/-- Ranks at equal distances from two rotations tell their order, if they differ. Past the length of
the text the words are known to be equal, and ranks may say anything. -/
theorem Prepared.word_le (prepared : bench.Prepared text) (pBound : p < n) (qBound : q < n)
    (abreast : Comparer.Abreast n p q depth i j) (iStored : i < n + Block.margin)
    (jStored : j < n + Block.margin) (agree : text.Agree depth p q)
    (same : text.byteAt (p + depth) = text.byteAt (q + depth)) {one other : Nat}
    (oneAt : bench.ranks[i]? = some one) (otherAt : bench.ranks[j]? = some other)
    (less : one < other) : text.word p ≤ text.word q := by
  obtain ⟨first, second, behind, after⟩ := abreast
  rcases Nat.lt_or_ge depth n with near | past
  · have slots : bench.slots[i + 1]? = bench.slots[j + 1]? := by
      rw [prepared.slots.bytes i iStored, prepared.slots.bytes j jStored,
        Text.byteAt_congr text first, Text.byteAt_congr text second, same]
    have order := prepared.ranked i j one other (by omega) (by omega) iStored jStored slots oneAt
      otherAt less
    rw [Text.rotate_le_iff] at order
    rw [agree.word_le_iff, ← Text.word_congr text first, ← Text.word_congr text second]
    exact order
  · exact (agree.mono past).word_eq.le

theorem compareBytes_prepared (cyclic : Cyclic text bench.slots) (count : Nat)
    (first : i = p + depth) (second : j = q + depth) (iNear : i + count ≤ n + Block.margin)
    (jNear : j + count ≤ n + Block.margin) :
    ∃ order, compareBytes bench.slots count i j = some order ∧
      (text.Agree depth p q → Comparer.Sound text p q (depth + count) order) :=
  ⟨_, compareBytes_eq cyclic iNear jNear, Comparer.compareBytes_sound count first second⟩

theorem compareRanked_prepared (prepared : bench.Prepared text) (count : Nat) (pBound : p < n)
    (qBound : q < n) (abreast : Comparer.Abreast n p q depth i j)
    (iNear : i + count ≤ n + Block.margin) (jNear : j + count ≤ n + Block.margin) :
    ∃ order, compareRanked bench.slots bench.ranks count i j = some order ∧
      (text.Agree depth p q → Comparer.Sound text p q (depth + count) order) := by
  induction count generalizing i j depth with
  | zero => exact ⟨.eq, rfl, id⟩
  | succ count ih =>
    have room := prepared.ranks
    have oneAt : bench.ranks[i]? = some bench.ranks[i] := Array.getElem?_eq_getElem (by omega)
    have otherAt : bench.ranks[j]? = some bench.ranks[j] := Array.getElem?_eq_getElem (by omega)
    rw [compareRanked, prepared.slots.bytes i (by omega), prepared.slots.bytes j (by omega),
      Text.byteAt_congr text abreast.first, Text.byteAt_congr text abreast.second, oneAt, otherAt]
    simp only [Option.bind_eq_bind, Option.bind_some]
    cases bytes : compare (text.byteAt (p + depth)) (text.byteAt (q + depth)) with
    | lt => exact ⟨.lt, rfl, fun agree => le_of_lt (agree.word_lt (Std.compare_eq_lt.mp bytes))⟩
    | gt =>
      exact ⟨.gt, rfl, fun agree => le_of_lt (agree.symm.word_lt (Std.compare_eq_gt.mp bytes))⟩
    | eq =>
      have same := Std.LawfulEqOrd.eq_of_compare bytes
      cases marks : compare bench.ranks[i] bench.ranks[j] with
      | lt =>
        exact ⟨.lt, rfl, fun agree => prepared.word_le pBound qBound abreast (by omega) (by omega)
          agree same oneAt otherAt (Nat.compare_eq_lt.mp marks)⟩
      | gt =>
        exact ⟨.gt, rfl, fun agree => prepared.word_le qBound pBound abreast.symm (by omega)
          (by omega) agree.symm same.symm otherAt oneAt (Nat.compare_eq_gt.mp marks)⟩
      | eq =>
        obtain ⟨order, run, sound⟩ := ih abreast.succ (by omega) (by omega)
        refine ⟨order, run, fun agree => ?_⟩
        rw [Nat.add_comm count 1, ← Nat.add_assoc]
        exact sound (agree.succ same)

/-- A round ends where the next one may start, unless the text is too short for two rounds. -/
theorem compareRounds_prepared (prepared : bench.Prepared text) (rounds : Nat) (pBound : p < n)
    (qBound : q < n) (abreast : Comparer.Abreast n p q depth i j) (few : rounds ≤ 1 ∨ 4 ≤ n)
    (iNear : i + 4 ≤ n + Block.margin) (jNear : j + 4 ≤ n + Block.margin) (work : Nat) :
    ∃ order done, bench.compareRounds rounds i j work = some (order, done) ∧
      (text.Agree depth p q → Comparer.Sound text p q (depth + 4 * rounds) order) := by
  induction rounds generalizing i j depth work with
  | zero => exact ⟨.eq, work, rfl, id⟩
  | succ rounds ih =>
    obtain ⟨order, run, sound⟩ :=
      compareRanked_prepared prepared 4 pBound qBound abreast iNear jNear
    rw [compareRounds, run]
    simp only [Option.bind_eq_bind, Option.bind_some, prepared.size]
    cases order with
    | lt => exact ⟨.lt, work, rfl, sound⟩
    | gt => exact ⟨.gt, work, rfl, sound⟩
    | eq =>
      rw [Nat.mul_add_one, Nat.add_comm (4 * rounds) 4, ← Nat.add_assoc]
      rcases Nat.eq_zero_or_pos rounds with rfl | more
      · exact ⟨.eq, work + 1, rfl, sound⟩
      · have wide : 4 ≤ n := by omega
        have near (place : Nat) (stored : place + 4 ≤ n + Block.margin) :
            Comparer.wrap n (place + 4) + 4 ≤ n + Block.margin := by
          simp only [Comparer.wrap, Block.margin] at *
          split <;> omega
        obtain ⟨order, done, others, later⟩ :=
          ih abreast.round (.inr wide) (near i iNear) (near j jNear) (work + 1)
        exact ⟨order, done, others, fun agree => later (sound agree)⟩

/-- A whole comparison has an answer, and it tells the order of the rotations if they agree up to
the depth. -/
theorem Prepared.answers (prepared : bench.Prepared text) (shallow : depth ≤ Bucket.deepest + 1)
    (one other : Fin n) (work : Nat) :
    ∃ answer done, bench.exceeds depth one other work = some (answer, done) ∧
      (text.Agree depth one other →
        (answer = true → text.word other ≤ text.word one) ∧
          (answer = false → text.word one ≤ text.word other)) := by
  simp only [Bucket.deepest] at shallow
  have near (r : Fin n) : r.val + depth + 6 + 4 ≤ n + Block.margin := by
    simp only [Block.margin]
    omega
  have oneNear := near one
  have otherNear := near other
  obtain ⟨order, run, sound⟩ := compareBytes_prepared prepared.slots 6 rfl rfl
    (show one.val + depth + 6 ≤ _ by omega) (show other.val + depth + 6 ≤ _ by omega)
  rw [exceeds, run]
  simp only [Option.bind_eq_bind, Option.bind_some, prepared.size]
  cases order with
  | lt => exact ⟨false, work, rfl, fun agree => ⟨by simp, fun _ => sound agree⟩⟩
  | gt => exact ⟨true, work, rfl, fun agree => ⟨fun _ => sound agree, by simp⟩⟩
  | eq =>
    have abreast : Comparer.Abreast n one other (depth + 6) (one + depth + 6)
        (other + depth + 6) := ⟨rfl, rfl, by omega, by omega⟩
    obtain ⟨order, done, rounds, later⟩ := compareRounds_prepared prepared ((n + 2) / 4)
      one.isLt other.isLt abreast (by omega) oneNear otherNear work
    simp only [rounds, Option.bind_some]
    cases order with
    | lt => exact ⟨false, done, rfl, fun agree => ⟨by simp, fun _ => later (sound agree)⟩⟩
    | gt => exact ⟨true, done, rfl, fun agree => ⟨fun _ => later (sound agree), by simp⟩⟩
    | eq =>
      refine ⟨false, done, rfl, fun agree => ⟨by simp, fun _ => ?_⟩⟩
      have whole : text.Agree n one other := Text.Agree.mono (later (sound agree)) (by omega)
      exact whole.word_eq.le

end Bench

end BlockSort

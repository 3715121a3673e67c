import BlockSort.Proofs.Rotation.Word
import BlockSort.Proofs.Shell
import BlockSort.Rotation.Comparer

/-!
Comparisons of rotations are sound. Bytes decide by the order of words; ranks may decide earlier
because, of two positions with the same byte, the one with the smaller rank has the smaller word.
-/
namespace BlockSort.Comparer

variable {n : Nat} [Occupied n] {text : Text n} {ranks : Vector Nat n} {p q : Nat}

/-- Of two positions with the same byte, a smaller rank means a word that is not greater. -/
def Ranked (text : Text n) (ranks : Vector Nat n) : Prop :=
  ∀ i j : Fin n, text.get i = text.get j → ranks.get i < ranks.get j → text.word i ≤ text.word j

/-- What the outcome of a comparison means: the order of the rotations, or that they agree as far
as the comparison went. -/
def Sound (text : Text n) (p q reach : Nat) : Ordering → Prop
  | .lt => text.word p ≤ text.word q
  | .gt => text.word q ≤ text.word p
  | .eq => text.Agree reach p q

omit [Occupied n] in
theorem rankAt_of_lt (ranks : Vector Nat n) {i : Nat} (near : i < 2 * n) :
    ∃ bound : i % n < n, rankAt ranks i = ranks[i % n] := by
  have bound : i % n < n := Nat.mod_lt i (by omega)
  refine ⟨bound, ?_⟩
  rw [rankAt]
  by_cases inside : i < n
  · simp only [dif_pos inside, Nat.mod_eq_of_lt inside]
  · have wrapped : i - n < n := by omega
    rw [dif_neg inside, dif_pos wrapped]
    simp only [Nat.mod_eq_sub_mod (not_lt.mp inside), Nat.mod_eq_of_lt wrapped]

theorem compareBytes_sound (count : Nat) {i j depth : Nat} (first : i = p + depth)
    (second : j = q + depth) (agree : text.Agree depth p q) :
    Sound text p q (depth + count) (compareBytes text count i j) := by
  induction count generalizing i j depth with
  | zero => exact agree
  | succ count ih =>
    subst first second
    rw [compareBytes]
    cases bytes : compare (text.byteAt (p + depth)) (text.byteAt (q + depth)) with
    | lt => exact le_of_lt (agree.word_lt (Std.compare_eq_lt.mp bytes))
    | gt => exact le_of_lt (agree.symm.word_lt (Std.compare_eq_gt.mp bytes))
    | eq =>
      have same := Std.LawfulEqOrd.eq_of_compare bytes
      rw [Nat.add_comm count 1, ← Nat.add_assoc]
      exact ih rfl rfl (agree.succ same)

/-- Where a comparison stands: at places that stand for equal distances from two rotations and
were never led ahead of them. -/
structure Abreast (n p q depth i j : Nat) : Prop where
  first : i ≡ p + depth [MOD n]
  second : j ≡ q + depth [MOD n]
  behind : i ≤ p + depth
  after : j ≤ q + depth

omit [Occupied n] in
theorem Abreast.symm {depth i j : Nat} (abreast : Abreast n p q depth i j) :
    Abreast n q p depth j i :=
  ⟨abreast.second, abreast.first, abreast.after, abreast.behind⟩

omit [Occupied n] in
theorem Abreast.succ {depth i j : Nat} (abreast : Abreast n p q depth i j) :
    Abreast n p q (depth + 1) (i + 1) (j + 1) := by
  obtain ⟨first, second, behind, after⟩ := abreast
  exact ⟨first.add_right 1, second.add_right 1, by omega, by omega⟩

/-- Ranks at equal distances from two rotations tell their order. Past the length of the text the
words are known to be equal, and ranks need not exist. -/
theorem Ranked.word_le (ranked : Ranked text ranks) (pBound : p < n) (qBound : q < n)
    {i j depth : Nat} (abreast : Abreast n p q depth i j) (agree : text.Agree depth p q)
    (same : text.byteAt (p + depth) = text.byteAt (q + depth))
    (less : rankAt ranks i < rankAt ranks j) : text.word p ≤ text.word q := by
  obtain ⟨first, second, behind, after⟩ := abreast
  rcases Nat.lt_or_ge depth n with near | past
  · obtain ⟨iBound, iRank⟩ := rankAt_of_lt ranks (show i < 2 * n by omega)
    obtain ⟨jBound, jRank⟩ := rankAt_of_lt ranks (show j < 2 * n by omega)
    have bytes : text[i % n] = text[j % n] := by
      rw [← Text.byteAt_of_lt text iBound, ← Text.byteAt_of_lt text jBound, Text.byteAt_mod,
        Text.byteAt_mod, Text.byteAt_congr text first, Text.byteAt_congr text second, same]
    rw [iRank, jRank] at less
    have order := ranked ⟨i % n, iBound⟩ ⟨j % n, jBound⟩ bytes less
    rw [agree.word_le_iff, ← Text.word_congr text first, ← Text.word_congr text second,
      ← Text.word_congr text (Nat.mod_modEq i n), ← Text.word_congr text (Nat.mod_modEq j n)]
    exact order
  · exact (agree.mono past).word_eq.le

theorem compareRanked_sound (count : Nat) (ranked : Ranked text ranks) (pBound : p < n)
    (qBound : q < n) {i j depth : Nat} (abreast : Abreast n p q depth i j)
    (agree : text.Agree depth p q) :
    Sound text p q (depth + count) (compareRanked text ranks count i j) := by
  induction count generalizing i j depth with
  | zero => exact agree
  | succ count ih =>
    rw [compareRanked, Text.byteAt_congr text abreast.first, Text.byteAt_congr text abreast.second]
    cases bytes : compare (text.byteAt (p + depth)) (text.byteAt (q + depth)) with
    | lt => exact le_of_lt (agree.word_lt (Std.compare_eq_lt.mp bytes))
    | gt => exact le_of_lt (agree.symm.word_lt (Std.compare_eq_gt.mp bytes))
    | eq =>
      have same := Std.LawfulEqOrd.eq_of_compare bytes
      cases marks : compare (rankAt ranks i) (rankAt ranks j) with
      | lt => exact ranked.word_le pBound qBound abreast agree same (Nat.compare_eq_lt.mp marks)
      | gt =>
        exact ranked.word_le qBound pBound abreast.symm agree.symm same.symm
          (Nat.compare_eq_gt.mp marks)
      | eq =>
        rw [Nat.add_comm count 1, ← Nat.add_assoc]
        exact ih abreast.succ (agree.succ same)

omit [Occupied n] in
theorem wrap_modEq (n i : Nat) : wrap n i ≡ i [MOD n] := by
  rw [wrap]
  split
  · rename_i past
    rw [Nat.ModEq, ← Nat.mod_eq_sub_mod past]
  · rfl

theorem wrap_le (n i : Nat) : wrap n i ≤ i := by
  rw [wrap]
  split <;> omega

omit [Occupied n] in
theorem Abreast.round {depth i j : Nat} (abreast : Abreast n p q depth i j) :
    Abreast n p q (depth + 4) (wrap n (i + 4)) (wrap n (j + 4)) := by
  obtain ⟨first, second, behind, after⟩ := abreast
  have near := wrap_le n (i + 4)
  have close := wrap_le n (j + 4)
  exact ⟨(wrap_modEq n (i + 4)).trans (first.add_right 4),
    (wrap_modEq n (j + 4)).trans (second.add_right 4), by omega, by omega⟩

theorem compareRounds_sound (rounds work : Nat) (ranked : Ranked text ranks) (pBound : p < n)
    (qBound : q < n) {i j depth : Nat} (abreast : Abreast n p q depth i j)
    (agree : text.Agree depth p q) :
    Sound text p q (depth + 4 * rounds) (compareRounds text ranks rounds i j work).1 := by
  induction rounds generalizing i j work depth with
  | zero => exact agree
  | succ rounds ih =>
    have sound := compareRanked_sound 4 ranked pBound qBound abreast agree
    rw [compareRounds]
    cases found : compareRanked text ranks 4 i j with
    | lt => rwa [found] at sound
    | gt => rwa [found] at sound
    | eq =>
      rw [found] at sound
      rw [Nat.mul_add_one, Nat.add_comm (4 * rounds) 4, ← Nat.add_assoc]
      exact ih _ abreast.round sound

/-- A whole comparison tells the order of the words, and finds no difference only in equal ones. -/
theorem compareFrom_sound (comparer : Comparer n) (ranked : Ranked comparer.text comparer.ranks)
    {depth : Nat} (first second : Fin n) (work : Nat)
    (agree : comparer.text.Agree depth first second) :
    Sound comparer.text first second n (comparer.compareFrom depth first second work).1 := by
  have sound := compareBytes_sound 6 rfl rfl agree
  rw [compareFrom]
  cases found : compareBytes comparer.text 6 (first + depth) (second + depth) with
  | lt => rwa [found] at sound
  | gt => rwa [found] at sound
  | eq =>
    rw [found] at sound
    have rounds := compareRounds_sound ((n + 2) / 4) work ranked first.isLt second.isLt
      ⟨rfl, rfl, by omega, by omega⟩ sound
    simp only [Nat.add_assoc] at rounds ⊢
    generalize (compareRounds comparer.text comparer.ranks ((n + 2) / 4) (first + (depth + 6))
      (second + (depth + 6)) work).1 = outcome at rounds ⊢
    cases outcome with
    | lt => exact rounds
    | gt => exact rounds
    | eq => exact rounds.mono (by omega)

theorem exceeds_sound (comparer : Comparer n) (ranked : Ranked comparer.text comparer.ranks)
    {depth : Nat} {first second : Fin n} (work : Nat)
    (agree : comparer.text.Agree depth first second) :
    if (comparer.exceeds depth first second work).1 then
      comparer.text.word second ≤ comparer.text.word first
    else comparer.text.word first ≤ comparer.text.word second := by
  have sound := comparer.compareFrom_sound ranked first second work agree
  rw [exceeds]
  generalize comparer.compareFrom depth first second work = outcome at sound ⊢
  obtain ⟨order, work⟩ := outcome
  cases order with
  | lt | gt => exact sound
  | eq => exact sound.word_eq.le

/-- Rotations that agree with a common one up to the depth are judged by their words. -/
theorem exceeds_judges (comparer : Comparer n) (ranked : Ranked comparer.text comparer.ranks)
    (depth : Nat) (base : Fin n) :
    Shell.Judges (comparer.exceeds depth)
      (fun position => comparer.text.Agree depth position base)
      (fun position : Fin n => comparer.text.word position) := by
  constructor <;> intro first second work one other answer
  · have sound := comparer.exceeds_sound ranked work (one.join other)
    rwa [if_pos answer] at sound
  · have sound := comparer.exceeds_sound ranked work (one.join other)
    rwa [answer, if_neg Bool.false_ne_true] at sound

end BlockSort.Comparer

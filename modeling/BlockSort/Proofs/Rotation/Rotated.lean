import BlockSort.Proofs.Rotation.Word

namespace BlockSort.Text

variable {n : Nat} [Occupied n] {text : Text n} {p q : Nat}

theorem getElem?_rotate (text : Text n) (p : Nat) {distance : Nat} (near : distance < n) :
    (text.toList.rotate p)[distance]? = some (text.byteAt (p + distance)) := by
  have bound := Nat.mod_lt (p + distance) (Occupied.positive : 0 < n)
  rw [List.getElem?_rotate (by simpa using near), Vector.length_toList, Nat.add_comm,
    ← byteAt_mod, byteAt_of_lt text bound]
  simp [bound]

theorem getElem_rotate (text : Text n) (p : Nat) {distance : Nat}
    (inside : distance < (text.toList.rotate p).length) :
    (text.toList.rotate p)[distance] = text.byteAt (p + distance) := by
  have near : distance < n := by simpa using inside
  have found := getElem?_rotate text p near
  rwa [List.getElem?_eq_getElem inside, Option.some.injEq] at found

/-- Equal words are spelled by equal rotations, and by no others. -/
theorem rotate_eq_iff :
    text.toList.rotate p = text.toList.rotate q ↔ text.word p = text.word q := by
  constructor
  · intro same
    refine Agree.word_eq fun distance near => ?_
    have found := congrArg (·[distance]?) same
    simpa only [getElem?_rotate text _ near, Option.some.injEq] using found
  · intro same
    refine List.ext_getElem (by simp) fun distance inside bound => ?_
    rw [getElem_rotate, getElem_rotate, byteAt_eq_of_word same]

theorem rotate_lt_iff :
    text.toList.rotate p < text.toList.rotate q ↔ text.word p < text.word q := by
  rw [List.lt_iff_exists]
  constructor
  · -- rotations have one length, so that none of them is a proper beginning of another
    rintro (⟨-, shorter⟩ | ⟨distance, inside, bound, same, less⟩)
    · simp at shorter
    · rw [getElem_rotate, getElem_rotate] at less
      refine Agree.word_lt (fun earlier near => ?_) less
      have equal := same earlier near
      rwa [getElem_rotate, getElem_rotate] at equal
  · intro less
    obtain ⟨distance, same, smaller⟩ := id less
    have agree : ∀ earlier < distance, text.byteAt (p + earlier) = text.byteAt (q + earlier) :=
      fun earlier near => UInt8.toNat_inj.mp (same earlier near)
    -- words that agree as far as the text is long never differ
    have near : distance < n := by
      by_contra far
      have equal := Agree.word_eq fun earlier near =>
        agree earlier (near.trans_le (Nat.not_lt.mp far))
      exact absurd less (equal ▸ lt_irrefl _)
    refine .inr ⟨distance, by simpa using near, by simpa using near, fun earlier before => ?_, ?_⟩
    · rw [getElem_rotate, getElem_rotate, agree earlier before]
    · rw [getElem_rotate, getElem_rotate]
      exact UInt8.lt_iff_toNat_lt.mpr smaller

theorem rotate_le_iff :
    text.toList.rotate p ≤ text.toList.rotate q ↔ text.word p ≤ text.word q := by
  rw [← List.not_lt, ← not_lt]
  exact not_congr rotate_lt_iff

end BlockSort.Text

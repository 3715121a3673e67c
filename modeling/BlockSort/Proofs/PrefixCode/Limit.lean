import BlockSort.Proofs.Storage.NodeLengths

/-!
What the code lengths are worth. Within every limit that the alphabet allows they make up a complete
code, and as long as the first tree keeps the limit, no prefix code for the same frequencies is
shorter, and none that is as short has a lower longest code.
-/
namespace BlockSort.PrefixCode

variable {n : Nat}

namespace Placement

variable (frequency length : Fin n → Nat)

@[simp]
theorem loads_ofLengths : (ofLengths frequency length).loads =
    ((List.finRange n).map fun symbol => (⟨frequency symbol, 0⟩ : Load) :) := by
  rw [ofLengths, loads, Multiset.map_map]
  rfl

@[simp]
theorem cost_ofLengths :
    (ofLengths frequency length).cost = ∑ symbol, frequency symbol * length symbol := by
  rw [cost, ofLengths, Multiset.map_map]
  rfl

@[simp]
theorem reach_ofLengths : (ofLengths frequency length).reach = Finset.univ.sup length := by
  rw [reach, ofLengths, Multiset.map_map]
  rfl

@[simp]
theorem share_ofLengths :
    (ofLengths frequency length).share = ∑ symbol, (1 / 2 : ℚ) ^ length symbol := by
  rw [share, ofLengths, Multiset.map_map]
  rfl

end Placement

theorem Weighed.placed {weights : Vector Weight n} {frequency : Fin n → Nat}
    (weighed : Weighed weights frequency) (several : 2 ≤ n) :
    ∃ tree : Tree (Fin n), tree.leaves.Perm (List.finRange n) ∧ tree.Least frequency ∧
      tree.placement frequency 0 = .ofLengths frequency (depths weights).get := by
  obtain ⟨n, rfl⟩ : ∃ count, n = count + 1 := ⟨n - 1, by omega⟩
  obtain ⟨tree, whole, least, found⟩ := weighed.tree
  exact ⟨tree, whole, least, found ▸ Tree.placement_eq whole frequency _⟩

theorem Weighed.share_depths {weights : Vector Weight n} {frequency : Fin n → Nat}
    (weighed : Weighed weights frequency) (several : 2 ≤ n) :
    ∑ symbol, (1 / 2 : ℚ) ^ (depths weights).get symbol = 1 := by
  obtain ⟨tree, -, -, placed⟩ := weighed.placed several
  rw [← Placement.share_ofLengths frequency, ← placed, Tree.share_placement, pow_zero]

/-- The length of a text in which each symbol occurs as often as given, but at least once. -/
def textLength (frequencies : Vector UInt32 n) (lengths : Vector Nat n) : Nat :=
  ∑ symbol, max (frequencies.get symbol).toNat 1 * lengths.get symbol

def longest (lengths : Vector Nat n) : Nat := Finset.univ.sup lengths.get

/-- The lengths of a prefix code. -/
structure Codable (lengths : Vector Nat n) : Prop where
  positive : ∀ symbol, 1 ≤ lengths.get symbol
  share : ∑ symbol, (1 / 2 : ℚ) ^ lengths.get symbol ≤ 1

variable {frequencies : Vector UInt32 n} {limit : Nat}

theorem longest_le_iff {lengths : Vector Nat n} :
    longest lengths ≤ limit ↔ ∀ length ∈ lengths.toList, length ≤ limit := by
  rw [longest, Finset.sup_le_iff, toList_eq_map_finRange]
  simp

theorem sum_frequencies (frequencies : Vector UInt32 n) :
    (frequencies.toList.map fun frequency => max frequency.toNat 1).sum =
      ∑ symbol, max (frequencies.get symbol).toNat 1 := by
  rw [toList_eq_map_finRange, List.map_map, Fin.sum_univ_def]
  rfl

/-- Halving comes to an end for every limit that leaves room for the alphabet, and the depths that
are found then are the lengths of a complete code within the limit. The arrays lead to the same
lengths. -/
theorem lengths_limited (several : 2 ≤ n) (room : n ≤ 2 ^ limit)
    (bounded : ∑ symbol, max (frequencies.get symbol).toNat 1 < 2 ^ 24) :
    (∃ count, FitsAfter limit (frequencies.map Weight.ofFrequency) count ∧
      lengths frequencies limit = depths (halved count (frequencies.map Weight.ofFrequency))) ∧
    (∀ symbol, 1 ≤ (lengths frequencies limit).get symbol ∧
      (lengths frequencies limit).get symbol ≤ limit) ∧
    ∑ symbol, (1 / 2 : ℚ) ^ (lengths frequencies limit).get symbol = 1 ∧
    (n ≤ CodingSpace.largestAlphabet → limit ≤ 255 →
      NodeSpace.lengths frequencies.toList limit = some (lengths frequencies limit).toList) := by
  rw [← sum_frequencies] at bounded
  obtain ⟨count, fits, same, frequency, weighed⟩ := lengths_fit several room bounded
  have complete := lengths_complete several room bounded
  refine ⟨⟨count, fits, same⟩, fun symbol => ?_, ?_,
    fun small flat => NodeSpace.lengths_eq frequencies small room flat⟩
  · have member : (lengths frequencies limit).get symbol ∈ (lengths frequencies limit).toList := by
      simp [Vector.get_eq_getElem]
    exact ⟨complete.positive _ member, complete.bounded _ member⟩
  · rw [same]
    exact weighed.share_depths several

/-- Five symbols of which each but the first two occurs as often as all before it, so that the first
tree is too high for codes of three bits. -/
theorem lengths_limited_skewed :
    let frequencies : Vector UInt32 5 := #v[1, 1, 2, 4, 8]
    (∃ count, FitsAfter 3 (frequencies.map Weight.ofFrequency) count ∧
      lengths frequencies 3 = depths (halved count (frequencies.map Weight.ofFrequency))) ∧
    (∀ symbol, 1 ≤ (lengths frequencies 3).get symbol ∧ (lengths frequencies 3).get symbol ≤ 3) ∧
    ∑ symbol, (1 / 2 : ℚ) ^ (lengths frequencies 3).get symbol = 1 ∧
    NodeSpace.lengths [1, 1, 2, 4, 8] 3 = some (lengths frequencies 3).toList := by
  intro frequencies
  obtain ⟨halved, within, whole, stored⟩ :=
    @lengths_limited 5 frequencies 3 (by decide) (by decide) (by decide)
  exact ⟨halved, within, whole, stored (by decide) (by decide)⟩

/-- No prefix code is better than the depths of the tree that the weights lead to. -/
theorem Weighed.depths_least {weights : Vector Weight n} {frequency : Fin n → Nat}
    (weighed : Weighed weights frequency) (several : 2 ≤ n) {other : Vector Nat n}
    (codable : Codable other) :
    toLex (∑ symbol, frequency symbol * (depths weights).get symbol, longest (depths weights)) ≤
      toLex (∑ symbol, frequency symbol * other.get symbol, longest other) := by
  obtain ⟨tree, whole, least, placed⟩ := weighed.placed several
  have loads : (Placement.ofLengths frequency other.get).loads =
      (tree.leaves.map fun symbol => (⟨frequency symbol, 0⟩ : Load) :) := by
    rw [Placement.loads_ofLengths, Multiset.coe_eq_coe]
    exact (whole.map _).symm
  have better := least _ loads (by simpa using codable.share)
  rw [← Tree.measure_placement, placed] at better
  simpa [Placement.measure, longest] using better

theorem lengths_of_fits (fits : longest (depths (frequencies.map Weight.ofFrequency)) ≤ limit) :
    lengths frequencies limit = depths (frequencies.map Weight.ofFrequency) := by
  rw [longest_le_iff] at fits
  rw [lengths, halvings, fitDepths]
  simp only [← Vector.any_toList, List.any_eq_true, decide_eq_true_eq]
  rw [if_neg]
  rintro ⟨depth, member, deep⟩
  exact absurd (fits depth member) (Nat.not_le.mpr deep)

theorem Complete.room {lengths : Vector Nat n} (complete : Complete limit lengths.toList) :
    n ≤ 2 ^ limit := by
  have shares : ∀ share ∈ lengths.toList.map (fun length => 2 ^ (limit - length)), 1 ≤ share := by
    simp [Nat.one_le_two_pow]
  have sum := List.length_le_sum_of_one_le _ shares
  rwa [complete.whole, List.length_map, Vector.length_toList] at sum

/-- If the first tree keeps the limit, the lengths are those of a prefix code, and of all prefix
codes they make the text shortest, and of those that do so the longest code lowest. If the first
tree does not keep it, so that frequencies are halved, neither does any prefix code that makes the
text shortest. The arrays lead to the same lengths. -/
theorem lengths_shortest (several : 2 ≤ n)
    (bounded : ∑ symbol, max (frequencies.get symbol).toNat 1 < 2 ^ 24) (limit : Nat) :
    let first := depths (frequencies.map Weight.ofFrequency)
    (n ≤ CodingSpace.largestAlphabet → n ≤ 2 ^ limit → limit ≤ 255 →
      NodeSpace.lengths frequencies.toList limit = some (lengths frequencies limit).toList) ∧
    (longest first ≤ limit → n ≤ 2 ^ limit ∧
      Codable (lengths frequencies limit) ∧ ∀ other, Codable other →
      toLex (textLength frequencies (lengths frequencies limit),
          longest (lengths frequencies limit)) ≤
        toLex (textLength frequencies other, longest other)) ∧
    (limit < longest first → ∀ other, Codable other →
      (∀ another, Codable another → textLength frequencies other ≤ textLength frequencies another) →
      limit < longest other) := by
  rw [← sum_frequencies] at bounded
  have weighed := weighed_ofFrequency bounded
  intro first
  have complete := weighed.complete several (longest_le_iff.mp le_rfl)
  have codable : Codable first := by
    refine ⟨fun symbol => complete.positive _ ?_, (weighed.share_depths several).le⟩
    simp [first, Vector.get_eq_getElem]
  have least {other : Vector Nat n} (valid : Codable other) :
      toLex (textLength frequencies first, longest first) ≤
        toLex (textLength frequencies other, longest other) :=
    weighed.depths_least several valid
  refine ⟨fun small room flat => NodeSpace.lengths_eq frequencies small room flat,
    fun fits => ⟨(weighed.complete several (longest_le_iff.mp fits)).room, ?_⟩,
    fun deep other valid shortest => ?_⟩
  · rw [lengths_of_fits fits]
    exact ⟨codable, fun other valid => least valid⟩
  · have better := least valid
    have best := shortest first codable
    rw [Prod.Lex.toLex_le_toLex] at better
    simp only at better
    omega

/-- Two limits for the same five symbols: the first tree keeps the one and not the other. -/
theorem lengths_shortest_skewed :
    let frequencies : Vector UInt32 5 := #v[1, 1, 2, 4, 8]
    NodeSpace.lengths [1, 1, 2, 4, 8] 4 = some (lengths frequencies 4).toList ∧
    (Codable (lengths frequencies 4) ∧ ∀ other, Codable other →
      toLex (textLength frequencies (lengths frequencies 4), longest (lengths frequencies 4)) ≤
        toLex (textLength frequencies other, longest other)) ∧
    (∀ other, Codable other →
      (∀ another, Codable another → textLength frequencies other ≤ textLength frequencies another) →
      3 < longest other) := by
  intro frequencies
  have first : longest (depths (frequencies.map Weight.ofFrequency)) = 4 := by decide +kernel
  obtain ⟨stored, kept, -⟩ := @lengths_shortest 5 frequencies (by decide) (by decide) 4
  obtain ⟨-, -, left⟩ := @lengths_shortest 5 frequencies (by decide) (by decide) 3
  exact ⟨stored (by decide) (by decide) (by decide), (kept first.le).2, left (first ▸ by decide)⟩

end BlockSort.PrefixCode

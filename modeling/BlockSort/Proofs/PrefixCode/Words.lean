import BlockSort.Proofs.Bits
import BlockSort.Proofs.PrefixCode.Numbering

/-!
Canonical codes as words of bits. Scaled to one width, each code begins where the one before it ends
or later; so no word begins another, and words that take all of the code space leave no gap.
-/
namespace BlockSort

namespace Bits

/-- A number that fits begins a longer one exactly if it is what is left of that when its last bits
are dropped. -/
theorem ofNat_prefix {width first second : Nat} (fits : first < 2 ^ width) (more : Nat)
    (longer : second < 2 ^ (width + more)) :
    ofNat width first <+: ofNat (width + more) second ↔ first = second / 2 ^ more := by
  have high : second / 2 ^ more < 2 ^ width := by
    rw [Nat.div_lt_iff_lt_mul (Nat.two_pow_pos _), ← Nat.pow_add]
    exact longer
  rw [ofNat_add, Nat.shiftRight_eq_div_pow]
  constructor
  · intro begins
    have same : ofNat width first = ofNat width (second / 2 ^ more) := by
      have taken := List.prefix_iff_eq_take.mp begins
      rwa [length_ofNat, List.take_left' (length_ofNat _ _)] at taken
    rw [← toNat_ofNat_of_lt fits, same, toNat_ofNat_of_lt high]
  · rintro rfl
    exact List.prefix_append _ _

theorem lt_of_toNat_lt {first second : List Bool} (same : first.length = second.length)
    (less : toNat first < toNat second) : first < second := by
  induction first generalizing second with
  | nil =>
    rw [List.eq_nil_of_length_eq_zero same.symm] at less
    exact absurd less (Nat.lt_irrefl _)
  | cons bit rest ih =>
    obtain ⟨other, others, rfl⟩ := List.exists_cons_of_length_eq_add_one same.symm
    have equal : rest.length = others.length := Nat.succ.inj same
    have bound := toNat_lt rest
    have boundOther := toNat_lt others
    rw [toNat_cons, toNat_cons, equal] at less
    rw [equal] at bound
    rw [List.cons_lt_cons_iff]
    cases bit <;> cases other
    · exact .inr ⟨rfl, ih equal (by simpa using less)⟩
    · exact .inl (by decide)
    · simp only [Bool.toNat_true, Bool.toNat_false] at less
      omega
    · exact .inr ⟨rfl, ih equal (by simpa using less)⟩

/-- A word is below a longer one if its number is below what the longer one begins with. -/
theorem ofNat_lt {width first second : Nat} (more : Nat) (fits : second < 2 ^ (width + more))
    (less : first < second / 2 ^ more) : ofNat width first < ofNat (width + more) second := by
  have high : second / 2 ^ more < 2 ^ width := by
    rw [Nat.div_lt_iff_lt_mul (Nat.two_pow_pos _), ← Nat.pow_add]
    exact fits
  have begins : ofNat width first < ofNat width (second / 2 ^ more) := by
    refine lt_of_toNat_lt (by rw [length_ofNat, length_ofNat]) ?_
    rwa [toNat_ofNat_of_lt (less.trans high), toNat_ofNat_of_lt high]
  rw [ofNat_add, Nat.shiftRight_eq_div_pow]
  exact List.Lex.append_right (· < ·) _ begins

end Bits

namespace PrefixCode

/-- The code of a symbol. -/
def code (lengths : List Nat) (symbol : Fin lengths.length) : UInt32 :=
  (codes lengths).get (symbol.cast (length_codes lengths).symm)

/-- The bits of a symbol's code, as many as its length says. -/
def codeword (lengths : List Nat) (symbol : Fin lengths.length) : List Bool :=
  Bits.ofNat lengths[symbol] (code lengths symbol).toNat

/-- The order of codes: shorter ones first, and those of one length in the order of the symbols. -/
def Precedes (lengths : List Nat) (one other : Fin lengths.length) : Prop :=
  lengths[one] < lengths[other] ∨ lengths[one] = lengths[other] ∧ one < other

/-- The part of the code space that codes take up. -/
def kraft (lengths : List Nat) : ℚ := (lengths.map fun length => (1 / 2 : ℚ) ^ length).sum

variable {limit : Nat} {lengths : List Nat} {one other : Fin lengths.length}

theorem precedes_total (different : one ≠ other) :
    Precedes lengths one other ∨ Precedes lengths other one := by
  rw [Precedes, Precedes]
  omega

theorem Precedes.le (precedes : Precedes lengths one other) : lengths[one] ≤ lengths[other] := by
  rw [Precedes] at precedes
  omega

/-- The part of the code space, counted in words of the greatest length. -/
theorem kraft_mul (bounded : ∀ length ∈ lengths, length ≤ limit) :
    kraft lengths * 2 ^ limit = ((lengths.map fun length => 2 ^ (limit - length)).sum : Nat) := by
  induction lengths with
  | nil => simp [kraft]
  | cons length rest ih =>
    have within := bounded length List.mem_cons_self
    have share : (1 / 2 : ℚ) ^ length * 2 ^ limit = 2 ^ (limit - length) := by
      rw [← pow_mul_pow_sub 2 within, ← mul_assoc, ← mul_pow]
      norm_num
    have others := ih fun length member => bounded length (List.mem_cons_of_mem _ member)
    rw [kraft] at others ⊢
    rw [List.map_cons, List.sum_cons, add_mul, share, others, List.map_cons, List.sum_cons]
    push_cast
    rfl

theorem roomy_of_kraft (valid : ∀ length ∈ lengths, 1 ≤ length ∧ length ≤ limit)
    (room : kraft lengths ≤ 1) : Roomy limit lengths := by
  have bounded := fun length member => (valid length member).2
  refine ⟨fun length member => (valid length member).1, bounded, ?_⟩
  have scaled := mul_le_mul_of_nonneg_right room (by positivity : (0 : ℚ) ≤ 2 ^ limit)
  rw [kraft_mul bounded, one_mul] at scaled
  exact_mod_cast scaled

theorem Roomy.length_le (roomy : Roomy limit lengths) (symbol : Fin lengths.length) :
    lengths[symbol] ≤ limit :=
  roomy.bounded _ (List.getElem_mem symbol.isLt)

namespace Roomy

variable (roomy : Roomy limit lengths) (small : limit < 32)
include roomy small

theorem code_eq (symbol : Fin lengths.length) :
    (code lengths symbol).toNat = codeAt lengths symbol lengths[symbol] := by
  obtain ⟨found, given, value⟩ := roomy.codes_get small (List.getElem?_eq_getElem symbol.isLt)
  obtain ⟨inside, same⟩ := List.getElem?_eq_some_iff.mp given
  rw [Fin.getElem_fin, ← value, ← same]
  rfl

theorem code_lt (symbol : Fin lengths.length) :
    (code lengths symbol).toNat < 2 ^ lengths[symbol] := by
  rw [roomy.code_eq small]
  exact roomy.codeAt_lt symbol.isLt

/-- Scaled to the length of a later code, a code ends where that one begins or earlier. -/
theorem code_step (precedes : Precedes lengths one other) :
    ((code lengths one).toNat + 1) * 2 ^ (lengths[other] - lengths[one]) ≤
      (code lengths other).toNat := by
  rw [roomy.code_eq small, roomy.code_eq small, codeAt, codeAt]
  have before := count_take_lt one.isLt
  rcases precedes with shorter | ⟨same, earlier⟩
  · have step := firstCode_step lengths shorter
    refine le_trans ?_ (step.trans (Nat.le_add_right _ _))
    exact Nat.mul_le_mul_right _ (by simpa using before)
  · have more := (List.take_sublist_take_left (l := lengths) (Nat.succ_le_of_lt earlier)).count_le
      lengths[one]
    rw [Fin.getElem_fin, count_take_succ one.isLt] at more
    rw [← same, Nat.sub_self, Nat.pow_zero, Nat.mul_one, Nat.add_assoc]
    exact Nat.add_le_add_left more _

theorem code_lt_div (precedes : Precedes lengths one other) :
    (code lengths one).toNat <
      (code lengths other).toNat / 2 ^ (lengths[other] - lengths[one]) :=
  (Nat.le_div_iff_mul_le (Nat.two_pow_pos _)).mpr (roomy.code_step small precedes)

theorem codeword_lt (precedes : Precedes lengths one other) :
    codeword lengths one < codeword lengths other := by
  have fits := roomy.code_lt small other
  have less := roomy.code_lt_div small precedes
  have widths := Nat.add_sub_cancel' precedes.le
  have ordered := Bits.ofNat_lt (lengths[other] - lengths[one]) (by rwa [widths]) less
  rwa [widths] at ordered

/-- The word of an earlier code does not begin that of a later one. -/
theorem not_prefix (precedes : Precedes lengths one other) :
    ¬ codeword lengths one <+: codeword lengths other := by
  have fits := roomy.code_lt small other
  have less := roomy.code_lt_div small precedes
  have widths := Nat.add_sub_cancel' precedes.le
  have begins := Bits.ofNat_prefix (roomy.code_lt small one) (lengths[other] - lengths[one])
    (by rwa [widths])
  rw [widths] at begins
  intro found
  exact Nat.ne_of_lt less (begins.mp found)

theorem prefix_free (different : one ≠ other) :
    ¬ codeword lengths one <+: codeword lengths other := by
  rcases precedes_total different with precedes | precedes
  · exact roomy.not_prefix small precedes
  · -- a word that begins one no longer than itself is that one
    intro begins
    have equal := begins.eq_of_length_le (by
      rw [codeword, codeword, Bits.length_ofNat, Bits.length_ofNat]
      exact precedes.le)
    exact roomy.not_prefix small precedes (equal ▸ List.prefix_refl _)

theorem code_succ (same : lengths[one] = lengths[other]) (earlier : one < other)
    (next : ∀ between, one < between → between < other → lengths[between] ≠ lengths[one]) :
    (code lengths other).toNat = (code lengths one).toNat + 1 := by
  have parts : (one : Nat) + 1 + (other - (one + 1)) = other :=
    Nat.add_sub_cancel' (Nat.succ_le_of_lt earlier)
  have absent : ((lengths.drop (one + 1)).take (other - (one + 1))).count lengths[one] = 0 := by
    refine List.count_eq_zero.mpr fun member => ?_
    obtain ⟨place, inside, found⟩ := List.mem_iff_getElem.mp member
    rw [List.length_take, List.length_drop] at inside
    rw [List.getElem_take, List.getElem_drop] at found
    exact next ⟨one + 1 + place, by omega⟩ (Fin.lt_def.mpr (by simp; omega))
      (Fin.lt_def.mpr (by simp; omega)) found
  rw [roomy.code_eq small, roomy.code_eq small, codeAt, codeAt, ← same, ← parts, List.take_add,
    List.count_append, absent, Fin.getElem_fin, count_take_succ one.isLt]
  rfl

end Roomy

/-- The words of the greatest length that begin with a symbol's code, by their numbers. -/
def span (limit : Nat) (lengths : List Nat) (symbol : Fin lengths.length) : Finset Nat :=
  Finset.Ico ((code lengths symbol).toNat * 2 ^ (limit - lengths[symbol]))
    (((code lengths symbol).toNat + 1) * 2 ^ (limit - lengths[symbol]))

theorem card_span (symbol : Fin lengths.length) :
    (span limit lengths symbol).card = 2 ^ (limit - lengths[symbol]) := by
  rw [span, Nat.card_Ico, Nat.add_mul, Nat.one_mul, Nat.add_sub_cancel_left]

theorem sum_card_span (limit : Nat) (lengths : List Nat) :
    ∑ symbol, (span limit lengths symbol).card =
      (lengths.map fun length => 2 ^ (limit - length)).sum := by
  simp only [card_span]
  exact Fin.sum_univ_fun_getElem lengths fun length => 2 ^ (limit - length)

namespace Roomy

variable (roomy : Roomy limit lengths) (small : limit < 32)
include roomy small

theorem span_subset (symbol : Fin lengths.length) :
    span limit lengths symbol ⊆ Finset.range (2 ^ limit) := by
  intro number member
  have fits := Nat.mul_le_mul_right (2 ^ (limit - lengths[symbol]))
    (Nat.succ_le_of_lt (roomy.code_lt small symbol))
  rw [pow_mul_pow_sub 2 (roomy.length_le symbol)] at fits
  exact Finset.mem_range.mpr ((Finset.mem_Ico.mp member).2.trans_le fits)

theorem codeword_prefix (symbol : Fin lengths.length) {number : Nat} (fits : number < 2 ^ limit) :
    codeword lengths symbol <+: Bits.ofNat limit number ↔ number ∈ span limit lengths symbol := by
  have widths := Nat.add_sub_cancel' (roomy.length_le symbol)
  have begins := Bits.ofNat_prefix (roomy.code_lt small symbol) (limit - lengths[symbol])
    (by rwa [widths])
  rw [widths] at begins
  rw [codeword, begins, span, Finset.mem_Ico, eq_comm,
    Nat.div_eq_iff (Nat.two_pow_pos _), Nat.add_mul, Nat.one_mul]
  have room := Nat.two_pow_pos (limit - lengths[symbol])
  omega

/-- No word begins with two codes. -/
theorem codeword_unique {bits : List Bool} (first : codeword lengths one <+: bits)
    (second : codeword lengths other <+: bits) : one = other := by
  by_contra different
  rcases List.prefix_or_prefix_of_prefix first second with begins | begins
  · exact roomy.prefix_free small different begins
  · exact roomy.prefix_free small (Ne.symm different) begins

end Roomy

/-- Lengths that take all of the code space leave no word without a code: the spans are apart, and
together they are as large as the space. -/
theorem exists_codeword (roomy : Roomy limit lengths) (small : limit < 32)
    (whole : (lengths.map fun length => 2 ^ (limit - length)).sum = 2 ^ limit) {bits : List Bool}
    (size : bits.length = limit) : ∃ symbol, codeword lengths symbol <+: bits := by
  have apart : ((Finset.univ : Finset (Fin lengths.length)) : Set _).PairwiseDisjoint
      (span limit lengths) := by
    intro one _ other _ different
    refine Finset.disjoint_left.mpr fun number first second => different ?_
    have fits := Finset.mem_range.mp (roomy.span_subset small one first)
    exact roomy.codeword_unique small ((roomy.codeword_prefix small one fits).mpr first)
      ((roomy.codeword_prefix small other fits).mpr second)
  have cover : Finset.univ.biUnion (span limit lengths) = Finset.range (2 ^ limit) := by
    refine Finset.eq_of_subset_of_card_le
      (Finset.biUnion_subset.mpr fun symbol _ => roomy.span_subset small symbol) ?_
    rw [Finset.card_biUnion apart, sum_card_span, whole, Finset.card_range]
  have fits : Bits.toNat bits < 2 ^ limit := size ▸ Bits.toNat_lt bits
  obtain ⟨symbol, -, member⟩ := Finset.mem_biUnion.mp (cover ▸ Finset.mem_range.mpr fits)
  have begins := (roomy.codeword_prefix small symbol fits).mpr member
  rw [← size, Bits.ofNat_toNat] at begins
  exact ⟨symbol, begins⟩

/-- Code lengths from one to 20 that take no more than the code space give every symbol a code of
its length, and no symbol's bits begin those of another. Shorter codes come first, and those of one
length one after the other in the order of the symbols. If the lengths take all of the space, any 20
bits begin with the code of exactly one symbol. -/
theorem codes_canonical (lengths : List Nat)
    (valid : ∀ length ∈ lengths, 1 ≤ length ∧ length ≤ 20) (room : kraft lengths ≤ 1) :
    (∀ symbol, (code lengths symbol).toNat < 2 ^ lengths[symbol]) ∧
    (∀ one other, one ≠ other → ¬ codeword lengths one <+: codeword lengths other) ∧
    (∀ one other, Precedes lengths one other →
      codeword lengths one < codeword lengths other) ∧
    (∀ one other, lengths[one] = lengths[other] → one < other →
      (∀ between, one < between → between < other → lengths[between] ≠ lengths[one]) →
      (code lengths other).toNat = (code lengths one).toNat + 1) ∧
    (kraft lengths = 1 → ∀ bits : List Bool, bits.length = 20 →
      ∃! symbol, codeword lengths symbol <+: bits) := by
  have roomy := roomy_of_kraft valid room
  have small : 20 < 32 := by decide
  refine ⟨roomy.code_lt small, fun one other => roomy.prefix_free small,
    fun one other => roomy.codeword_lt small, fun one other => roomy.code_succ small, ?_⟩
  intro full bits size
  have scaled := kraft_mul fun length member => (valid length member).2
  rw [full, one_mul] at scaled
  obtain ⟨symbol, begins⟩ := exists_codeword roomy small (by exact_mod_cast scaled.symm) size
  exact ⟨symbol, begins, fun other found => roomy.codeword_unique small found begins⟩

/-- Four symbols whose codes take all of the space. -/
theorem codes_canonical_whole :
    codes [2, 1, 3, 3] = [2, 0, 6, 7] ∧ kraft [2, 1, 3, 3] = 1 ∧
    (∀ one other, one ≠ other →
      ¬ codeword [2, 1, 3, 3] one <+: codeword [2, 1, 3, 3] other) ∧
    ∃! symbol, codeword [2, 1, 3, 3] symbol <+: List.replicate 20 true := by
  have full : kraft [2, 1, 3, 3] = 1 := by norm_num [kraft]
  obtain ⟨_, free, _, _, complete⟩ := codes_canonical [2, 1, 3, 3] (by decide) full.le
  exact ⟨by decide +kernel, full, free, complete full _ List.length_replicate⟩

end PrefixCode

end BlockSort

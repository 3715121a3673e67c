import BlockSort.Proofs.Exchange
import BlockSort.Shell

namespace BlockSort.Shell

variable {α κ σ : Type} {n : Nat}

/-- A comparison tells the order of two keys; of equal keys it may say either. -/
structure Judges [LE κ] (exceeds : α → α → σ → Bool × σ) (admitted : α → Prop) (key : α → κ) :
    Prop where
  above : ∀ first second state, admitted first → admitted second →
    (exceeds first second state).1 = true → key second ≤ key first
  below : ∀ first second state, admitted first → admitted second →
    (exceeds first second state).1 = false → key first ≤ key second

variable (exceeds : α → α → σ → Bool × σ) (stop : σ → Bool)

theorem sink_exchanged (gap first : Nat) (items : Vector α n) (state : σ) (place : Nat)
    (bound : place < n) :
    Exchanged first (place + 1) items (sink exceeds gap first items state place bound).1 := by
  fun_induction sink exceeds gap first items state place bound with
  | case1 items state place bound room next found ih =>
    have moved : Exchanged first (place + 1) items (items.swap (place - gap) place) :=
      .once items (by omega) bound (by omega) (by omega)
    exact moved.trans (ih.mono (Nat.le_refl first) (by omega))
  | case2 => exact .refl _
  | case3 => exact .refl _

theorem pass_exchanged (gap first count place : Nat) (fits : place + count ≤ n)
    (items : Vector α n) (state : σ) :
    Exchanged first (place + count) items
      (pass exceeds stop gap first count place fits items state).1 := by
  induction count generalizing place items state with
  | zero => exact .refl _
  | succ count ih =>
    have sunk := sink_exchanged exceeds gap first items state place (by omega)
    rw [pass]
    split
    rename_i moved left result
    rw [result] at sunk
    have within : place + 1 ≤ place + (count + 1) := by omega
    have kept := sunk.mono (Nat.le_refl first) within
    split
    · exact kept
    · exact kept.trans ((ih (place + 1) (by omega) moved left).mono (Nat.le_refl first) (by omega))

theorem sortBy_exchanged (first size : Nat) (fits : first + size ≤ n) (gaps : List Nat)
    (items : Vector α n) (state : σ) :
    Exchanged first (first + size) items
      (sortBy exceeds stop first size fits gaps items state).1 := by
  fun_induction sortBy exceeds stop first size fits gaps items state with
  | case1 => exact .refl _
  | case2 => exact .refl _
  | case3 gap gaps items state running narrow moved left result ih =>
    have passed := pass_exchanged exceeds stop gap first (size - gap) (first + gap) (by omega)
      items state
    rw [result] at passed
    exact (passed.mono (Nat.le_refl first) (by omega)).trans ih
  | case4 gap gaps items state running wide ih => exact ih

/-- A sort keeps the items of its range and touches nothing else. -/
theorem sort_exchanged (first size : Nat) (fits : first + size ≤ n) (items : Vector α n)
    (state : σ) :
    Exchanged first (first + size) items (sort exceeds stop first size fits items state).1 :=
  sortBy_exchanged exceeds stop first size fits (gaps size) items state

variable {exceeds stop}

variable [LinearOrder κ] {admitted : α → Prop} {key : α → κ}

/-- The order of a range but for an item that may be too small for its place. -/
def Sunk (key : α → κ) (first last place : Nat) (items : Vector α n) : Prop :=
  ∀ i j (iBound : i < n) (jBound : j < n), first ≤ i → i < j → j < last → j ≠ place →
    key items[i] ≤ key items[j]

theorem sink_sorted (judges : Judges exceeds admitted key) {first place : Nat} (last : Nat)
    {items : Vector α n} (state : σ) (bound : place < n) (above : first ≤ place)
    (below : place < last)
    (allowed : Zone admitted first last items)
    (sunk : Sunk key first last place items) :
    SortedOn key first last (sink exceeds 1 first items state place bound).1 := by
  fun_induction sink exceeds 1 first items state place bound with
  | case1 items state place bound room next found ih =>
    have order := judges.above items[place - 1] items[place] state
      (allowed _ _ (by omega) (by omega)) (allowed _ _ above below) (by rw [found])
    refine ih (by omega) (by omega) ?_ ?_
    · exact (Exchanged.once items (by omega) bound (by omega) (by omega)).all
        (.inl ⟨Nat.le_refl first, Nat.le_refl last⟩) allowed
    · intro i j iBound jBound after ascending before different
      have left := sunk i (place - 1) iBound (by omega) after
      have right := sunk (place - 1) j (by omega) jBound
      have pivot := sunk place j bound jBound
      have other := sunk i j iBound jBound after ascending before
      simp only [Vector.getElem_swap]
      grind
  | case2 items state place bound room next found =>
    have order := judges.below items[place - 1] items[place] state
      (allowed _ _ (by omega) (by omega)) (allowed _ _ above below) (by rw [found])
    intro i j iBound jBound after ascending before
    by_cases here : j = place
    · subst here
      rcases Nat.lt_or_eq_of_le (Nat.le_sub_one_of_lt ascending) with earlier | rfl
      · exact le_trans (sunk i (j - 1) iBound (by omega) after earlier (by omega) (by omega)) order
      · exact order
    · exact sunk i j iBound jBound after ascending before here
  | case3 items state place bound narrow =>
    intro i j iBound jBound after ascending before
    exact sunk i j iBound jBound after ascending before (by omega)

theorem pass_sorted (judges : Judges exceeds admitted key) {first count place : Nat}
    (fits : place + count ≤ n) {items : Vector α n} {state : σ} (start : first ≤ place)
    (allowed : Zone admitted first (place + count) items)
    (sorted : SortedOn key first place items)
    (running : stop (pass exceeds stop 1 first count place fits items state).2 = false) :
    SortedOn key first (place + count)
      (pass exceeds stop 1 first count place fits items state).1 := by
  induction count generalizing place items state with
  | zero => exact sorted
  | succ count ih =>
    have sunk := sink_exchanged exceeds 1 first items state place (by omega)
    have next := sink_sorted judges (place + 1) state (by omega) start (by omega)
      (fun i iBound after before => allowed i iBound after (by omega))
      (fun i j iBound jBound after ascending before different =>
        sorted i j iBound jBound after ascending (by omega))
    rw [pass] at running ⊢
    cases result : sink exceeds 1 first items state place (by omega) with
    | mk moved left =>
      rw [result] at sunk next
      simp only [result] at running ⊢
      by_cases stopped : stop left = true
      · rw [if_pos stopped, stopped] at running
        exact absurd running (by decide)
      · rw [if_neg stopped] at running ⊢
        rw [Nat.add_comm count 1, ← Nat.add_assoc] at allowed ⊢
        exact ih (by omega) (by omega) (sunk.all (.inl ⟨Nat.le_refl first, by omega⟩) allowed)
          next running

/-- A pass with gap one over a whole range leaves it in order. -/
theorem pass_one_sorted (judges : Judges exceeds admitted key) {first size : Nat}
    (fits : first + 1 + (size - 1) ≤ n) {items : Vector α n} {state : σ} (occupied : 0 < size)
    (allowed : Zone admitted first (first + size) items)
    (running : stop (pass exceeds stop 1 first (size - 1) (first + 1) fits items state).2 = false) :
    SortedOn key first (first + size)
      (pass exceeds stop 1 first (size - 1) (first + 1) fits items state).1 := by
  have sorted := pass_sorted judges fits (Nat.le_succ first)
    (fun i iBound after before => allowed i iBound after (by omega))
    (fun i j iBound jBound after ascending before => by omega) running
  have split : first + 1 + (size - 1) = first + size := by omega
  rwa [split] at sorted

theorem sortBy_sorted (judges : Judges exceeds admitted key) {first size : Nat}
    (fits : first + size ≤ n) {gaps : List Nat} {items : Vector α n} {state : σ}
    (occupied : 0 < size) (last : gaps.getLast? = some 1)
    (allowed : Zone admitted first (first + size) items)
    (running : stop (sortBy exceeds stop first size fits gaps items state).2 = false) :
    SortedOn key first (first + size) (sortBy exceeds stop first size fits gaps items state).1 := by
  fun_induction sortBy exceeds stop first size fits gaps items state with
  | case1 => simp at last
  | case2 gap gaps items state stopped => simp [stopped] at running
  | case3 gap gaps items state going narrow moved left result ih =>
    have passed := pass_exchanged exceeds stop gap first (size - gap) (first + gap) (by omega)
      items state
    rw [result] at passed
    have kept := passed.all (.inl ⟨Nat.le_refl first, by omega⟩) allowed
    cases gaps with
    | nil =>
      simp only [List.getLast?_singleton, Option.some.injEq] at last
      subst last
      have going : stop (pass exceeds stop 1 first (size - 1) (first + 1) (by omega) items
          state).2 = false := by
        rw [result]
        exact running
      have sorted := pass_one_sorted judges (by omega) occupied allowed going
      rwa [result] at sorted
    | cons next rest => exact ih (by simpa using last) kept running
  | case4 gap gaps items state going wide ih =>
    cases gaps with
    | nil =>
      simp only [List.getLast?_singleton, Option.some.injEq] at last
      omega
    | cons next rest => exact ih (by simpa using last) allowed running

theorem lt_of_mem_gaps {size gap : Nat} (member : gap ∈ gaps size) : gap < size := by
  rw [gaps, List.mem_reverse] at member
  have less := List.mem_takeWhile_imp member
  exact of_decide_eq_true less

theorem pos_of_mem_gaps {size gap : Nat} (member : gap ∈ gaps size) : 0 < gap := by
  rw [gaps, List.mem_reverse] at member
  have positive : ∀ gap ∈ increments, 0 < gap := by decide
  exact positive gap ((List.takeWhile_prefix _).subset member)

theorem gaps_getLast {size : Nat} (several : 1 < size) : (gaps size).getLast? = some 1 := by
  have first : increments.takeWhile (· < size) =
      1 :: increments.tail.takeWhile (· < size) := by
    simp [increments, several]
  rw [gaps, List.getLast?_reverse, first, List.head?_cons]

theorem sort_sorted (judges : Judges exceeds admitted key) {first size : Nat}
    (fits : first + size ≤ n) {items : Vector α n} {state : σ}
    (allowed : Zone admitted first (first + size) items)
    (running : stop (sort exceeds stop first size fits items state).2 = false) :
    SortedOn key first (first + size) (sort exceeds stop first size fits items state).1 := by
  by_cases several : 1 < size
  · exact sortBy_sorted judges fits (by omega) (gaps_getLast several) allowed running
  · intro i j iBound jBound after ascending before
    omega

theorem sort_pairwise (judges : Judges exceeds admitted key) {items : Vector α n} {state : σ}
    (allowed : Zone admitted 0 n items)
    (running : stop (sort exceeds stop 0 n (Nat.zero_add n).le items state).2 = false) :
    (sort exceeds stop 0 n (Nat.zero_add n).le items state).1.toList.Pairwise
      fun first second => key first ≤ key second := by
  apply SortedOn.pairwise
  intro i j iBound jBound above ascending below
  exact sort_sorted judges (Nat.zero_add n).le
    (fun place bound above _ => allowed place bound above bound) running i j iBound jBound above
    ascending (below.trans_eq (Nat.zero_add n).symm)

end BlockSort.Shell

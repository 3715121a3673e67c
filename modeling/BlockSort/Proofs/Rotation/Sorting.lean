import BlockSort.Proofs.Rotation.Table

/-!
Correctness of the sort of all rotations. After the visit of a leading byte all buckets in its row
and in its column are in order, and its ranks are those of its sorted row; when all bytes are
visited, all rotations are in order.
-/
namespace BlockSort.Rotation

open Bucket (Ordered)

variable {n : Nat} [Occupied n] {text : Text n} {table : PairTable (List (Fin n))}

/-- One step along a row. -/
def sortBucket (comparer : Comparer n) (sorted : ByteSet) (first : UInt8)
    (state : PairTable (List (Fin n)) × Nat) (second : UInt8) :
    PairTable (List (Fin n)) × Nat :=
  if sorted.contains second || comparer.overspent state.2 then state
  else
    let found := Bucket.sort comparer (state.1.get first second) state.2
    (state.1.set first second found.1, found.2)

theorem sortRow_eq (comparer : Comparer n) (sorted : ByteSet) (first : UInt8)
    (table : PairTable (List (Fin n))) (work : Nat) :
    sortRow comparer sorted first table work =
      allBytes.foldl (sortBucket comparer sorted first) (table, work) := rfl

theorem foldl_sortBucket_spent (comparer : Comparer n) (sorted : ByteSet) (first : UInt8)
    (seconds : List UInt8) (state : PairTable (List (Fin n)) × Nat)
    (spent : comparer.overspent state.2 = true) :
    seconds.foldl (sortBucket comparer sorted first) state = state := by
  induction seconds with
  | nil => rfl
  | cons second rest ih =>
    rw [List.foldl_cons, sortBucket, if_pos (by rw [spent, Bool.or_true]), ih]

/-- What sorting some buckets of a row does to a table. -/
structure RowSorted (comparer : Comparer n) (sorted : ByteSet) (first : UInt8)
    (seconds : List UInt8) (before after : PairTable (List (Fin n)) × Nat) : Prop where
  filed : Filed comparer.text after.1
  kept : ∀ second, sorted.contains second = true →
    after.1.get first second = before.1.get first second
  others : ∀ other second, other ≠ first → after.1.get other second = before.1.get other second
  ordered : comparer.overspent after.2 = false → ∀ second,
    second ∈ seconds ∨ Ordered comparer.text (before.1.get first second) →
      Ordered comparer.text (after.1.get first second)

theorem sortBucket_spec {comparer : Comparer n}
    (ranked : Comparer.Ranked comparer.text comparer.ranks) {sorted : ByteSet} {first : UInt8}
    {state : PairTable (List (Fin n)) × Nat} (filed : Filed comparer.text state.1) (second : UInt8)
    (known : sorted.contains second = true → Ordered comparer.text (state.1.get first second)) :
    RowSorted comparer sorted first [second] state
      (sortBucket comparer sorted first state second) := by
  unfold sortBucket
  split
  · rename_i skipped
    refine ⟨filed, fun _ _ => rfl, fun _ _ _ => rfl, fun running other present => ?_⟩
    rcases present with member | ordered
    · rw [List.mem_singleton] at member
      subst member
      simp only [running, Bool.or_false] at skipped
      exact known skipped
    · exact ordered
  · rename_i going
    have perm := Bucket.sort_perm comparer (state.1.get first second) state.2
    refine ⟨filed.set perm, fun other member => ?_, fun other last different => ?_,
      fun running other present => ?_⟩
    · refine (PairTable.get_set ..).trans (if_neg fun same => going ?_)
      rw [same.2, member, Bool.true_or]
    · rw [PairTable.get_set, if_neg fun same => different same.1.symm]
    · rw [PairTable.get_set]
      by_cases same : second = other
      · subst same
        rw [if_pos ⟨rfl, rfl⟩]
        cases positions : state.1.get first second with
        | nil => exact List.Pairwise.nil
        | cons base rest =>
          have known : base ∈ state.1.get first second := by simp [positions]
          have aligned : ∀ position ∈ base :: rest, comparer.text.Agree 2 position base := by
            intro position member
            rw [← positions, filed.mem] at member
            exact member.agree ((filed.mem first second base).mp known)
          exact Bucket.sort_ordered ranked aligned (positions ▸ running)
      · rw [if_neg fun equal => same equal.2]
        rcases present with member | ordered
        · exact absurd (List.mem_singleton.mp member).symm same
        · exact ordered

theorem foldl_sortBucket {comparer : Comparer n}
    (ranked : Comparer.Ranked comparer.text comparer.ranks) {sorted : ByteSet} {first : UInt8}
    (seconds : List UInt8) {state : PairTable (List (Fin n)) × Nat}
    (filed : Filed comparer.text state.1)
    (known : ∀ second, sorted.contains second = true →
      Ordered comparer.text (state.1.get first second)) :
    RowSorted comparer sorted first seconds state
      (seconds.foldl (sortBucket comparer sorted first) state) := by
  induction seconds generalizing state with
  | nil =>
    refine ⟨filed, fun _ _ => rfl, fun _ _ _ => rfl, fun running other present => ?_⟩
    exact present.resolve_left List.not_mem_nil
  | cons second rest ih =>
    have step := sortBucket_spec ranked filed second (known second)
    have next := ih step.filed fun other member => by
      rw [step.kept other member]
      exact known other member
    rw [List.foldl_cons]
    refine ⟨next.filed, fun other member => ?_, fun other last different => ?_,
      fun running other present => ?_⟩
    · rw [next.kept other member, step.kept other member]
    · rw [next.others other last different, step.others other last different]
    · refine next.ordered running other ?_
      by_cases spent : comparer.overspent (sortBucket comparer sorted first state second).2 = true
      · rw [foldl_sortBucket_spent comparer sorted first rest _ spent, spent] at running
        cases running
      · rcases present with member | ordered
        · rcases List.mem_cons.mp member with rfl | inside
          · exact .inr (step.ordered (by simpa using spent) other (.inl (by simp)))
          · exact .inl inside
        · exact .inr (step.ordered (by simpa using spent) other (.inr ordered))

omit [Occupied n] in
/-- The predecessors of a row are placed by clearing their buckets and refilling them. -/
theorem get_clear (sorted : ByteSet) (second : UInt8) (firsts : List UInt8)
    (table : PairTable (List (Fin n))) (first last : UInt8) :
    (firsts.foldl (fun (table : PairTable (List (Fin n))) first =>
      if sorted.contains first then table else table.set first second []) table).get first last =
      if first ∈ firsts ∧ sorted.contains first = false ∧ second = last then []
      else table.get first last := by
  induction firsts generalizing table with
  | nil => simp
  | cons other rest ih =>
    rw [List.foldl_cons, ih]
    by_cases skipped : sorted.contains other = true
    · rw [if_pos skipped]
      by_cases same : first = other
      · subst same
        simp [skipped]
      · simp [same]
    · rw [if_neg skipped, PairTable.get_set]
      rw [Bool.not_eq_true] at skipped
      by_cases same : first = other
      · subst same
        by_cases equal : second = last <;> simp [skipped, equal]
      · simp [same, Ne.symm same]

omit [Occupied n] in
theorem get_refill (text : Text n) (sorted : ByteSet) (row : List (Fin n))
    (table : PairTable (List (Fin n))) (second first last : UInt8) :
    (row.foldr (fun (position : Fin n) (table : PairTable (List (Fin n))) =>
      if sorted.contains (text.get (Text.before position)) then table
      else
        table.push (text.get (Text.before position)) second (Text.before position)) table).get
          first last =
      if sorted.contains first = false ∧ second = last then
        (row.map Text.before).filter (fun position => text.get position = first) ++
          table.get first last
      else table.get first last := by
  induction row with
  | nil => simp
  | cons position rest ih =>
    rw [List.foldr_cons, List.map_cons, List.filter_cons]
    generalize text.get (Text.before position) = byte
    by_cases skipped : sorted.contains byte = true
    · rw [if_pos skipped, ih]
      by_cases same : byte = first
      · subst same
        simp [skipped]
      · simp [same]
    · rw [if_neg skipped, get_push, ih]
      rw [Bool.not_eq_true] at skipped
      by_cases same : byte = first
      · subst same
        by_cases equal : second = last <;> simp [skipped, equal]
      · simp [same]

omit [Occupied n] in
theorem get_placePredecessors (text : Text n) (sorted : ByteSet) (second : UInt8)
    (row : List (Fin n)) (table : PairTable (List (Fin n))) (first last : UInt8) :
    (placePredecessors text sorted second row table).get first last =
      if sorted.contains first = false ∧ second = last then
        (row.map Text.before).filter fun position => text.get position = first
      else table.get first last := by
  refine (get_refill text sorted row _ second first last).trans ?_
  rw [get_clear]
  by_cases placed : sorted.contains first = false ∧ second = last
  · rw [if_pos placed, if_pos placed, if_pos ⟨mem_allBytes first, placed⟩, List.append_nil]
  · rw [if_neg placed, if_neg placed, if_neg fun found => placed found.2]

omit [Occupied n] in
theorem before_injective : Function.Injective (Text.before : Fin n → Fin n) := by
  intro first second same
  have one := Text.before_add_one first
  rw [same] at one
  have equal := one.symm.trans (Text.before_add_one second)
  exact Fin.ext (by simpa [Nat.ModEq, Nat.mod_eq_of_lt first.isLt, Nat.mod_eq_of_lt second.isLt]
    using equal)

omit [Occupied n] in
theorem before_surjective (position : Fin n) : ∃ next : Fin n, Text.before next = position :=
  Finite.surjective_of_injective before_injective position

theorem byteAt_before (text : Text n) (position : Fin n) :
    text.byteAt ((Text.before position).val + 1) = text.get position := by
  rw [Text.byteAt_congr text (Text.before_add_one position), Text.byteAt_fin]

/-- The predecessors of a sorted row are in order wherever they share their first byte. -/
theorem placePredecessors_ordered {row : List (Fin n)} (ordered : Ordered text row)
    (first : UInt8) :
    Ordered text ((row.map Text.before).filter fun position => text.get position = first) := by
  refine List.pairwise_filter.mpr (List.pairwise_map.mpr (ordered.imp ?_))
  intro one other order oneFirst otherFirst
  simp only [decide_eq_true_eq] at oneFirst otherFirst
  rw [Text.word_le_iff_succ (by rw [Text.byteAt_fin, Text.byteAt_fin, oneFirst, otherFirst]),
    Text.word_before_add_one, Text.word_before_add_one]
  exact order

theorem placePredecessors_filed (filed : Filed text table) (sorted : ByteSet) (second : UInt8) :
    Filed text (placePredecessors text sorted second (table.row second).flatten table) := by
  constructor
  · intro first last
    rw [get_placePredecessors]
    split
    · exact ((filed.nodup_row second).map before_injective).filter _
    · exact filed.nodup first last
  · intro first last position
    rw [get_placePredecessors]
    split
    · rename_i placed
      obtain ⟨-, rfl⟩ := placed
      simp only [List.mem_filter, List.mem_map, filed.mem_row, decide_eq_true_eq]
      constructor
      · rintro ⟨⟨next, leads, rfl⟩, first⟩
        exact ⟨first, (byteAt_before text next).trans leads⟩
      · intro leads
        obtain ⟨next, rfl⟩ := before_surjective position
        exact ⟨⟨next, (byteAt_before text next).symm.trans leads.second, rfl⟩, leads.first⟩
    · exact filed.mem first last position

omit [Occupied n] in
private theorem foldl_ranks (shift : Nat) (row : List (Fin n)) (distinct : row.Nodup)
    (ranks : Vector Nat n) (start : Nat) :
    let recorded := (row.foldl (fun (state : Vector Nat n × Nat) (position : Fin n) =>
      (state.1.set position (state.2 >>> shift) position.isLt, state.2 + 1)) (ranks, start)).1
    (∀ place position, row[place]? = some position →
        recorded.get position = (start + place) >>> shift) ∧
      ∀ position ∉ row, recorded.get position = ranks.get position := by
  induction row generalizing ranks start with
  | nil => exact ⟨fun place position found => by simp at found, fun _ _ => rfl⟩
  | cons position rest ih =>
    obtain ⟨absent, distinct⟩ := List.nodup_cons.mp distinct
    obtain ⟨inside, outside⟩ := ih distinct (ranks.set position (start >>> shift)) (start + 1)
    constructor
    · intro place other found
      cases place with
      | zero =>
        simp only [List.getElem?_cons_zero, Option.some.injEq] at found
        subst found
        exact (outside position absent).trans (Vector.getElem_set_self _)
      | succ place =>
        rw [List.getElem?_cons_succ] at found
        refine (inside place other found).trans ?_
        congr 1
        omega
    · intro other absent
      rw [List.mem_cons, not_or] at absent
      rw [List.foldl_cons, outside other absent.2]
      exact Vector.getElem_set_ne _ _ fun same => absent.1 (Fin.ext same.symm)

omit [Occupied n] in
theorem recordRanks_get {row : List (Fin n)} (distinct : row.Nodup) (ranks : Vector Nat n)
    {place : Nat} {position : Fin n} (found : row[place]? = some position) :
    (recordRanks ranks row).get position = place >>> rankShift row.length := by
  have recorded := (foldl_ranks (rankShift row.length) row distinct ranks 0).1 place position found
  rwa [Nat.zero_add] at recorded

omit [Occupied n] in
theorem recordRanks_absent {row : List (Fin n)} (distinct : row.Nodup) (ranks : Vector Nat n)
    {position : Fin n} (absent : position ∉ row) :
    (recordRanks ranks row).get position = ranks.get position :=
  (foldl_ranks (rankShift row.length) row distinct ranks 0).2 position absent

/-- What holds between two visits: the buckets in the rows and columns of the visited bytes are in
order, and ranks are known for rotations that start with a visited byte. -/
structure Visited (text : Text n) (progress : Progress n) : Prop where
  filed : Filed text progress.table
  ordered : ∀ first second,
    progress.sorted.contains first = true ∨ progress.sorted.contains second = true →
      Ordered text (progress.table.get first second)
  ranked : Comparer.Ranked text progress.ranks

/-- Ranks recorded from a sorted row keep to the order of words. -/
theorem recordRanks_ranked {ranks : Vector Nat n} (ranked : Comparer.Ranked text ranks)
    {first : UInt8} {row : List (Fin n)} (distinct : row.Nodup) (ordered : Ordered text row)
    (members : ∀ position, position ∈ row ↔ text.get position = first) :
    Comparer.Ranked text (recordRanks ranks row) := by
  intro i j same less
  by_cases inside : text.get i = first
  · obtain ⟨one, oneAt⟩ := List.getElem?_of_mem ((members i).mpr inside)
    obtain ⟨two, twoAt⟩ := List.getElem?_of_mem ((members j).mpr (same ▸ inside))
    rw [recordRanks_get distinct ranks oneAt, recordRanks_get distinct ranks twoAt] at less
    have order : one < two := by
      by_contra reversed
      refine absurd less (Nat.not_lt.mpr ?_)
      rw [Nat.shiftRight_eq_div_pow, Nat.shiftRight_eq_div_pow]
      exact Nat.div_le_div_right (Nat.not_lt.mp reversed)
    obtain ⟨oneBound, rfl⟩ := List.getElem?_eq_some_iff.mp oneAt
    obtain ⟨twoBound, rfl⟩ := List.getElem?_eq_some_iff.mp twoAt
    exact List.pairwise_iff_getElem.mp ordered one two oneBound twoBound order
  · rw [recordRanks_absent distinct _ fun member => inside ((members i).mp member),
      recordRanks_absent distinct _ fun member => inside (same ▸ (members j).mp member)] at less
    exact ranked i j same less

/-- Whether the work is more than the budget allows. -/
def exhausted (budget : Option Nat) (work : Nat) : Bool :=
  match budget with
  | none => false
  | some limit => limit < work

theorem exhausted_zero (budget : Option Nat) : exhausted budget 0 = false := by
  cases budget <;> simp [exhausted]

omit [Occupied n] in
theorem overspent_eq (comparer : Comparer n) (work : Nat) :
    comparer.overspent work = exhausted comparer.budget work := rfl

theorem visit_spent {budget : Option Nat} {progress : Progress n} (first : UInt8)
    (spent : exhausted budget progress.work = true) :
    visit text budget progress first = progress := by
  obtain ⟨table, ranks, sorted, work⟩ := progress
  have same := foldl_sortBucket_spent ⟨text, ranks, budget⟩ sorted first allBytes
    (table, work) spent
  rw [← sortRow_eq] at same
  simp only [visit, same]
  exact if_pos spent

theorem foldl_visit_spent {budget : Option Nat} {progress : Progress n} (firsts : List UInt8)
    (spent : exhausted budget progress.work = true) :
    firsts.foldl (visit text budget) progress = progress := by
  induction firsts with
  | nil => rfl
  | cons first rest ih => rw [List.foldl_cons, visit_spent first spent, ih]

/-- What was in order stays so when the predecessors of a sorted row are placed, and what has its
first byte second is in order as well. -/
theorem placePredecessors_visited {sorted : ByteSet} {first : UInt8}
    (row : ∀ second, Ordered text (table.get first second))
    (whole : Ordered text (table.row first).flatten)
    (before : ∀ one other, one ≠ first →
      sorted.contains one = true ∨ sorted.contains other = true →
        Ordered text (table.get one other)) {one other : UInt8}
    (present : (sorted.insert first).contains one = true ∨
      (sorted.insert first).contains other = true) :
    Ordered text ((placePredecessors text (sorted.insert first) first (table.row first).flatten
      table).get one other) := by
  rw [get_placePredecessors]
  split
  · exact placePredecessors_ordered whole one
  · rename_i kept
    by_cases same : one = first
    · rw [same]
      exact row other
    · refine before one other same ?_
      simp only [ByteSet.contains_insert, Bool.or_eq_true, decide_eq_true_eq] at present
      simp only [ByteSet.contains_insert, not_and, Bool.or_eq_false_iff,
        decide_eq_false_iff_not] at kept
      rcases present with (equal | member) | (equal | member)
      · exact absurd equal.symm same
      · exact .inl member
      · by_contra unvisited
        rw [not_or, Bool.not_eq_true] at unvisited
        exact kept ⟨Ne.symm same, unvisited.1⟩ equal
      · exact .inr member

theorem visit_visited {budget : Option Nat} {progress : Progress n}
    (visited : Visited text progress) (first : UInt8)
    (running : exhausted budget (visit text budget progress first).work = false) :
    Visited text (visit text budget progress first) ∧
      (visit text budget progress first).sorted = progress.sorted.insert first := by
  obtain ⟨table, ranks, sorted, work⟩ := progress
  have row := @foldl_sortBucket n _ ⟨text, ranks, budget⟩ visited.ranked sorted first
    allBytes (table, work) visited.filed
    (fun second member => visited.ordered first second (.inr member))
  rw [← sortRow_eq] at row
  simp only [visit] at running ⊢
  cases result : sortRow ⟨text, ranks, budget⟩ sorted first table work with
  | mk filled left =>
    rw [result] at row
    simp only [result] at running ⊢
    by_cases spent : Comparer.overspent ⟨text, ranks, budget⟩ left = true
    · rw [if_pos spent, ← overspent_eq ⟨text, ranks, budget⟩, spent] at running
      cases running
    · rw [if_neg spent] at running ⊢
      have inRow : ∀ second, Ordered text (filled.get first second) :=
        fun second => row.ordered running second (.inl (mem_allBytes second))
      have sortedRow := row.filed.ordered_row inRow
      refine ⟨⟨placePredecessors_filed row.filed _ first, fun one other present => ?_, ?_⟩, rfl⟩
      · refine placePredecessors_visited inRow sortedRow (fun one other different known => ?_)
          present
        rw [row.others one other different]
        exact visited.ordered one other known
      · exact recordRanks_ranked visited.ranked (row.filed.nodup_row first) sortedRow
          (row.filed.mem_row first)

/-- Visits within the budget leave all visited bytes sorted. -/
theorem foldl_visit {budget : Option Nat} (firsts : List UInt8) {progress : Progress n}
    (visited : Visited text progress)
    (running : exhausted budget (firsts.foldl (visit text budget) progress).work = false) :
    Visited text (firsts.foldl (visit text budget) progress) ∧
      ∀ first, first ∈ firsts ∨ progress.sorted.contains first = true →
        (firsts.foldl (visit text budget) progress).sorted.contains first = true := by
  induction firsts generalizing progress with
  | nil => exact ⟨visited, fun first present => present.resolve_left List.not_mem_nil⟩
  | cons first rest ih =>
    rw [List.foldl_cons] at running ⊢
    have going : exhausted budget (visit text budget progress first).work = false := by
      by_contra spent
      rw [Bool.not_eq_false] at spent
      rw [foldl_visit_spent rest spent, spent] at running
      cases running
    obtain ⟨next, sorted⟩ := visit_visited visited first going
    obtain ⟨result, known⟩ := ih next running
    refine ⟨result, fun other present => known other ?_⟩
    rw [sorted, ByteSet.contains_insert]
    rcases present with member | earlier
    · rcases List.mem_cons.mp member with rfl | inside
      · exact .inr (by simp)
      · exact .inl inside
    · exact .inr (by simp [earlier])

theorem mem_visitOrder (sizes : Vector Nat 256) (byte : UInt8) : byte ∈ visitOrder sizes := by
  refine (Shell.sort_exchanged _ _ _ _ _ _ _).perm.toList.mem_iff.mpr ?_
  rw [Vector.mem_toList_iff, Vector.mem_ofFn]
  exact ⟨⟨byte.toNat, UInt8.toNat_lt byte⟩, UInt8.ofNat_toNat⟩

/-- How far a whole sort comes. -/
def finished (text : Text n) (budget : Option Nat) : Progress n :=
  (visitOrder (rowSizes (collect text))).foldl (visit text budget)
    ⟨collect text, Vector.replicate n 0, {}, 0⟩

theorem sort_eq (text : Text n) (budget : Option Nat) :
    sort text budget = (listed (finished text budget).table, (finished text budget).work) := rfl

theorem visited_collect (text : Text n) :
    Visited text ⟨collect text, Vector.replicate n 0, {}, 0⟩ := by
  refine ⟨collect_filed text, fun first second present => ?_, fun i j same less => ?_⟩
  · simp at present
  · simp [Vector.get_eq_getElem] at less

/-- A sort within its budget lists all rotations, in the order of their words. -/
theorem sort_spec (text : Text n) (budget : Option Nat)
    (running : exhausted budget (sort text budget).2 = false) :
    (sort text budget).1.Perm (List.finRange n) ∧ Ordered text (sort text budget).1 := by
  have whole := sort_eq text budget
  generalize sort text budget = result at whole running ⊢
  obtain ⟨order, work⟩ := result
  dsimp only at running ⊢
  rw [Prod.mk.injEq] at whole
  rw [whole.2, finished] at running
  rw [whole.1]
  obtain ⟨visited, known⟩ :=
    foldl_visit (visitOrder (rowSizes (collect text))) (visited_collect text) running
  rw [← finished] at visited known
  refine ⟨visited.filed.listed_perm, visited.filed.ordered_listed fun first second => ?_⟩
  have member := mem_visitOrder (rowSizes (collect text)) first
  exact visited.ordered first second (.inl (known first (.inl member)))

end BlockSort.Rotation

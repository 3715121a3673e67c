import BlockSort.Proofs.Rotation.Sorting
import BlockSort.SortedBlock

namespace BlockSort

namespace Shell

variable {α : Type} {n cost gap first : Nat} {exceeds : α → α → Nat → Bool × Nat}
variable {stop : Nat → Bool}

theorem sink_le (costs : ∀ a b work, work + cost ≤ (exceeds a b work).2) (items : Vector α n)
    (work place : Nat) (bound : place < n) :
    work ≤ (sink exceeds gap first items work place bound).2 := by
  fun_induction sink exceeds gap first items work place bound with
  | case1 items work place bound room next found ih =>
    have spent := costs items[place - gap] items[place] work
    rw [found] at spent
    omega
  | case2 items work place bound room next found =>
    have spent := costs items[place - gap] items[place] work
    rw [found] at spent
    omega
  | case3 => exact Nat.le_refl _

theorem sink_costs (costs : ∀ a b work, work + cost ≤ (exceeds a b work).2) (positive : 0 < gap)
    (items : Vector α n) (work place : Nat) (bound : place < n) (room : first + gap ≤ place) :
    work + cost ≤ (sink exceeds gap first items work place bound).2 := by
  have spent := costs items[place - gap] items[place] work
  rw [sink, dif_pos ⟨positive, room⟩]
  split
  · rename_i next found
    rw [found] at spent
    exact spent.trans (sink_le costs _ next _ _)
  · rename_i next found
    rw [found] at spent
    exact spent

theorem pass_costs (costs : ∀ a b work, work + cost ≤ (exceeds a b work).2) (positive : 0 < gap)
    (count place : Nat) (fits : place + count ≤ n) (items : Vector α n) (work : Nat)
    (room : first + gap ≤ place) :
    stop (pass exceeds stop gap first count place fits items work).2 = true ∨
      work + count * cost ≤ (pass exceeds stop gap first count place fits items work).2 := by
  induction count generalizing place items work with
  | zero => exact .inr (by simp [pass])
  | succ count ih =>
    have spent := sink_costs costs positive items work place (by omega) room
    rw [pass]
    split
    rename_i moved left result
    rw [result] at spent
    by_cases stopped : stop left = true
    · rw [if_pos stopped]
      exact .inl stopped
    · rw [if_neg stopped]
      refine (ih (place + 1) (by omega) moved left (by omega)).imp_right fun rest => ?_
      rw [Nat.succ_mul]
      omega

theorem sortBy_costs (costs : ∀ a b work, work + cost ≤ (exceeds a b work).2) (size : Nat)
    (fits : first + size ≤ n) (gaps : List Nat) (positive : ∀ gap ∈ gaps, 0 < gap)
    (items : Vector α n) (work : Nat) :
    stop (sortBy exceeds stop first size fits gaps items work).2 = true ∨
      work + (gaps.map (size - ·)).sum * cost ≤
        (sortBy exceeds stop first size fits gaps items work).2 := by
  fun_induction sortBy exceeds stop first size fits gaps items work with
  | case1 => exact .inr (by simp)
  | case2 gap gaps items work stopped => exact .inl stopped
  | case3 gap gaps items work going narrow moved left result ih =>
    have passed := @pass_costs α n cost gap first exceeds stop costs
      (positive gap List.mem_cons_self) (size - gap) (first + gap) (by omega) items work
      (Nat.le_refl _)
    rw [result] at passed
    rcases passed with stopped | spent
    · refine .inl ?_
      cases gaps with
      | nil => exact stopped
      | cons next rest => simp [sortBy, stopped]
    · refine (ih fun gap member => positive gap (List.mem_cons_of_mem _ member)).imp_right
        fun rest => ?_
      rw [List.map_cons, List.sum_cons, Nat.add_mul]
      omega
  | case4 gap gaps items work going wide ih =>
    have zero : size - gap = 0 := by omega
    rw [List.map_cons, List.sum_cons, zero, Nat.zero_add]
    exact ih fun gap member => positive gap (List.mem_cons_of_mem _ member)

/-- A sort that is not stopped compares every item but the first at least once. -/
theorem sort_costs (costs : ∀ a b work, work + cost ≤ (exceeds a b work).2) {size : Nat}
    (several : 1 < size) (fits : first + size ≤ n) (items : Vector α n) (work : Nat) :
    stop (sort exceeds stop first size fits items work).2 = true ∨
      work + (size - 1) * cost ≤ (sort exceeds stop first size fits items work).2 := by
  refine (sortBy_costs costs size fits (gaps size) (fun gap => pos_of_mem_gaps) items
    work).imp_right fun spent => Nat.le_trans ?_ spent
  have last : 1 ∈ gaps size := List.mem_of_getLast? (gaps_getLast several)
  exact Nat.add_le_add_left (Nat.mul_le_mul_right cost
    (List.le_sum_of_mem (List.mem_map_of_mem last))) work

end Shell

variable {n m lo hi limit : Nat} [Occupied n]

/-- A text of one byte, over and over. -/
def Text.Uniform (text : Text n) : Prop := ∀ i j, text.byteAt i = text.byteAt j

namespace Comparer

variable {comparer : Comparer n} {text : Text n}

theorem compareBytes_uniform (uniform : text.Uniform) (count i j : Nat) :
    compareBytes text count i j = .eq := by
  induction count generalizing i j with
  | zero => rfl
  | succ count ih =>
    have same : compare (text.byteAt i) (text.byteAt j) = .eq := by
      rw [uniform i j]
      exact Std.ReflCmp.compare_self
    rw [compareBytes, same, ih]

omit [Occupied n] in
theorem rankAt_replicate (i : Nat) : rankAt (Vector.replicate n 0) i = 0 := by
  rw [rankAt]
  split_ifs <;> simp

theorem compareRanked_uniform (uniform : text.Uniform) (count i j : Nat) :
    compareRanked text (Vector.replicate n 0) count i j = .eq := by
  induction count generalizing i j with
  | zero => rfl
  | succ count ih =>
    have same : compare (text.byteAt i) (text.byteAt j) = .eq := by
      rw [uniform i j]
      exact Std.ReflCmp.compare_self
    have level : compare (rankAt (Vector.replicate n 0) i) (rankAt (Vector.replicate n 0) j) =
        .eq := by
      rw [rankAt_replicate, rankAt_replicate]
      rfl
    rw [compareRanked, same, level, ih]

theorem compareRounds_uniform (uniform : text.Uniform) (rounds i j work : Nat) :
    compareRounds text (Vector.replicate n 0) rounds i j work = (.eq, work + rounds) := by
  induction rounds generalizing i j work with
  | zero => rfl
  | succ rounds ih =>
    rw [compareRounds, compareRanked_uniform uniform, ih, Nat.add_assoc, Nat.add_comm 1]

/-- Equal rotations are compared all the way round. -/
theorem exceeds_uniform (uniform : comparer.text.Uniform)
    (unranked : comparer.ranks = Vector.replicate n 0) (depth : Nat) (p q : Fin n) (work : Nat) :
    comparer.exceeds depth p q work = (false, work + (n + 2) / 4) := by
  rw [exceeds, compareFrom, compareBytes_uniform uniform, unranked, compareRounds_uniform uniform]

end Comparer

namespace Bucket

open BlockSort.Partition

variable {comparer : Comparer n}

omit [Occupied n] in
theorem equalCount_uniform {key : Fin n → UInt8} {pivot : UInt8} (lo_le_hi : lo ≤ hi)
    (fits : hi ≤ m) (items : Vector (Fin n) m) (same : ∀ item, key item = pivot) :
    (ofRange key pivot items lo hi lo_le_hi fits).equalCount = hi - lo := by
  obtain ⟨-, zones⟩ := ofRange_spec key pivot items lo_le_hi fits
  generalize ofRange key pivot items lo hi lo_le_hi fits = partition at zones ⊢
  have first := partition.lo_le_low
  have lower := partition.low_le_middle
  have upper := partition.middle_le_high
  have last := partition.high_le_hi
  have below : partition.low = partition.middle := by
    by_contra apart
    have less : key _ < pivot := zones.below partition.low (by omega) (Nat.le_refl _) (by omega)
    rw [same] at less
    exact absurd less (UInt8.lt_irrefl pivot)
  have above : partition.middle = partition.high := by
    by_contra apart
    have greater : pivot < key _ :=
      zones.above partition.middle (by omega) (Nat.le_refl _) (by omega)
    rw [same] at greater
    exact absurd greater (UInt8.lt_irrefl pivot)
  rw [equalCount]
  omega

theorem sortRange_uniform (uniform : comparer.text.Uniform)
    (unranked : comparer.ranks = Vector.replicate n 0) (budget : comparer.budget = some limit)
    (depth : Nat) (lo_le_hi : lo ≤ hi) (fits : hi ≤ m) (items : Vector (Fin n) m) (work : Nat)
    (long : smallRange < hi - lo) (costly : limit < (hi - lo - 1) * ((n + 2) / 4)) :
    comparer.overspent (sortRange comparer lo hi depth lo_le_hi fits items work).2 = true := by
  fun_induction sortRange comparer lo hi depth lo_le_hi fits items work with
  | case1 lo hi depth lo_le_hi fits items work spent => exact spent
  | case2 lo hi depth lo_le_hi fits items work going shallow key pivot partition all ih =>
    exact ih long costly
  | case3 lo hi depth lo_le_hi fits items work going shallow key pivot partition several =>
    refine absurd (equalCount_uniform lo_le_hi fits items fun item => ?_) several
    rcases median_mem (key items[lo]) (key items[hi - 1]) (key items[(lo + (hi - 1)) / 2]) with
      found | found | found <;> exact (uniform _ _).trans found.symm
  | case4 lo hi depth lo_le_hi fits items work going shallow key pivot partition several missing =>
    exact absurd (equalCount_pos key (by omega) fits items) missing
  | case5 lo hi depth lo_le_hi fits items work going deep =>
    have costs : ∀ (p q : Fin n) (work : Nat),
        work + (n + 2) / 4 ≤ (comparer.exceeds depth p q work).2 := fun p q work => by
      rw [Comparer.exceeds_uniform uniform unranked]
    refine (Shell.sort_costs costs (by rw [smallRange] at long; omega) (by omega) items work).elim
      id fun spent => ?_
    rw [Comparer.overspent, budget]
    exact decide_eq_true (by omega)

/-- A bucket of equal rotations takes more work than is allowed if comparing them all does. -/
theorem sort_uniform (uniform : comparer.text.Uniform)
    (unranked : comparer.ranks = Vector.replicate n 0) (budget : comparer.budget = some limit)
    {positions : List (Fin n)} (long : smallRange < positions.length)
    (costly : limit < (positions.length - 1) * ((n + 2) / 4)) (work : Nat) :
    comparer.overspent (sort comparer positions work).2 = true := by
  match positions with
  | [] | [_] => simp [smallRange] at long
  | first :: second :: rest =>
    exact sortRange_uniform uniform unranked budget 2 (Nat.zero_le _) (Nat.le_refl _)
      (first :: second :: rest).toArray.toVector work (by simpa using long) (by simpa using costly)

end Bucket

namespace Rotation

variable {text : Text n} {byte first : UInt8}

theorem Filed.uniform {table : PairTable (List (Fin n))} (filed : Filed text table)
    (uniform : ∀ i, text.byteAt i = byte) :
    (table.get byte byte).Perm (List.finRange n) ∧
      ∀ first second, first ≠ byte ∨ second ≠ byte → table.get first second = [] := by
  refine ⟨(List.perm_ext_iff_of_nodup (filed.nodup byte byte) (List.nodup_finRange n)).mpr
    fun position => ?_, fun first second other => ?_⟩
  · rw [filed.mem]
    exact iff_of_true ⟨(Text.byteAt_fin text position).symm.trans (uniform _), uniform _⟩
      (List.mem_finRange position)
  · refine List.eq_nil_iff_forall_not_mem.mpr fun position member => ?_
    have leads := (filed.mem first second position).mp member
    rcases other with different | different
    · exact different (leads.first.symm.trans ((Text.byteAt_fin text position).symm.trans (uniform _)))
    · exact different (leads.second.symm.trans (uniform _))

theorem foldl_sortBucket_idle {comparer : Comparer n} (sorted : ByteSet) (seconds : List UInt8)
    (uniform : ∀ i, comparer.text.byteAt i = byte)
    (empty : ∀ second ∈ seconds, first ≠ byte ∨ second ≠ byte)
    {state : PairTable (List (Fin n)) × Nat} (filed : Filed comparer.text state.1) :
    (seconds.foldl (sortBucket comparer sorted first) state).2 = state.2 ∧
      Filed comparer.text (seconds.foldl (sortBucket comparer sorted first) state).1 := by
  induction seconds generalizing state with
  | nil => exact ⟨rfl, filed⟩
  | cons second rest ih =>
    have idle := (filed.uniform uniform).2 first second (empty second List.mem_cons_self)
    have step : (sortBucket comparer sorted first state second).2 = state.2 ∧
        Filed comparer.text (sortBucket comparer sorted first state second).1 := by
      rw [sortBucket, idle]
      split
      · exact ⟨rfl, filed⟩
      · exact ⟨rfl, filed.set (.of_eq idle.symm)⟩
    obtain ⟨work, after⟩ := ih (fun second member => empty second (List.mem_cons_of_mem _ member))
      step.2
    exact ⟨work.trans step.1, after⟩

/-- A sort that has visited other bytes only. -/
structure Unvisited (text : Text n) (byte : UInt8) (progress : Progress n) : Prop where
  visited : Visited text progress
  work : progress.work = 0
  ranks : progress.ranks = Vector.replicate n 0
  unsorted : progress.sorted.contains byte = false

variable {progress : Progress n}

theorem Unvisited.visit (unvisited : Unvisited text byte progress)
    (uniform : ∀ i, text.byteAt i = byte) (other : first ≠ byte) :
    Unvisited text byte (visit text (some limit) progress first) := by
  obtain ⟨table, ranks, sorted, work⟩ := progress
  obtain ⟨visited, rfl, rfl, unsorted⟩ := unvisited
  obtain ⟨idle, filed⟩ := @foldl_sortBucket_idle n _ byte first
    ⟨text, Vector.replicate n 0, some limit⟩ sorted allBytes uniform (fun _ _ => .inl other)
    (table, 0) visited.filed
  rw [← sortRow_eq] at idle filed
  have row : (((sortRow ⟨text, Vector.replicate n 0, some limit⟩ sorted first table 0).1.row
      first).flatten) = [] := by
    refine List.eq_nil_iff_forall_not_mem.mpr fun position member => ?_
    have leads := (filed.mem_row first position).mp member
    exact other (leads.symm.trans ((Text.byteAt_fin text position).symm.trans (uniform _)))
  have running : exhausted (some limit)
      (Rotation.visit text (some limit) ⟨table, Vector.replicate n 0, sorted, 0⟩ first).work =
      false := by
    simp only [Rotation.visit]
    split <;> simp [idle, exhausted]
  obtain ⟨after, insert⟩ := visit_visited visited first running
  have spent : Comparer.overspent ⟨text, Vector.replicate n 0, some limit⟩
      (sortRow ⟨text, Vector.replicate n 0, some limit⟩ sorted first table 0).2 = false := by
    simp [idle, Comparer.overspent]
  refine ⟨after, ?_, ?_, ?_⟩
  · simp [Rotation.visit, idle, Comparer.overspent]
  · simp [Rotation.visit, spent, row, recordRanks]
  · rw [insert, ByteSet.contains_insert]
    simpa [other] using unsorted

theorem Unvisited.foldl (unvisited : Unvisited text byte progress)
    (uniform : ∀ i, text.byteAt i = byte) {firsts : List UInt8} (others : byte ∉ firsts) :
    Unvisited text byte (firsts.foldl (Rotation.visit text (some limit)) progress) := by
  induction firsts generalizing progress with
  | nil => exact unvisited
  | cons first rest ih =>
    obtain ⟨other, later⟩ := not_or.mp (mt List.mem_cons.mpr others)
    have next : Unvisited text byte (Rotation.visit text (some limit) progress first) :=
      unvisited.visit uniform (Ne.symm other)
    rw [List.foldl_cons]
    exact ih next later

/-- Sorting the only row takes more work than is allowed. -/
theorem Unvisited.spent (unvisited : Unvisited text byte progress)
    (uniform : ∀ i, text.byteAt i = byte) (long : Bucket.smallRange < n)
    (costly : limit < (n - 1) * ((n + 2) / 4)) :
    exhausted (some limit) (Rotation.visit text (some limit) progress byte).work = true := by
  obtain ⟨table, ranks, sorted, work⟩ := progress
  obtain ⟨visited, rfl, rfl, unsorted⟩ := unvisited
  obtain ⟨front, back, split, absent⟩ := List.eq_append_cons_of_mem (mem_allBytes byte)
  have row : Comparer.overspent ⟨text, Vector.replicate n 0, some limit⟩
      (sortRow ⟨text, Vector.replicate n 0, some limit⟩ sorted byte table 0).2 = true := by
    obtain ⟨idle, filed⟩ := @foldl_sortBucket_idle n _ byte byte
      ⟨text, Vector.replicate n 0, some limit⟩ sorted front uniform
      (fun second member => .inr (fun same => absent (same ▸ member))) (table, 0) visited.filed
    rw [sortRow_eq, split, List.foldl_append, List.foldl_cons]
    generalize front.foldl (sortBucket ⟨text, Vector.replicate n 0, some limit⟩ sorted byte)
      (table, 0) = state at idle filed
    have size : (state.1.get byte byte).length = n :=
      (filed.uniform uniform).1.length_eq.trans (List.length_finRange)
    have spent := @Bucket.sort_uniform n limit _ ⟨text, Vector.replicate n 0, some limit⟩
      (fun i j => (uniform i).trans (uniform j).symm) rfl rfl _ (long.trans_eq size.symm)
      (by rwa [size]) state.2
    have going : Comparer.overspent ⟨text, Vector.replicate n 0, some limit⟩ state.2 = false := by
      rw [idle]
      simp [Comparer.overspent]
    have step : sortBucket ⟨text, Vector.replicate n 0, some limit⟩ sorted byte state byte =
        (state.1.set byte byte _, _) := if_neg (by simp [unsorted, going])
    rw [step, foldl_sortBucket_spent _ _ _ _ _ spent]
    exact spent
  cases result : sortRow ⟨text, Vector.replicate n 0, some limit⟩ sorted byte table 0 with
  | mk filled left =>
    rw [result] at row
    simp only [Rotation.visit, result, row, if_true]
    exact row

theorem sort_uniform (uniform : ∀ i, text.byteAt i = byte) (long : Bucket.smallRange < n)
    (costly : limit < (n - 1) * ((n + 2) / 4)) : limit < (sort text (some limit)).2 := by
  have start : Unvisited text byte ⟨collect text, Vector.replicate n 0, {}, 0⟩ :=
    ⟨visited_collect text, rfl, rfl, ByteSet.contains_empty byte⟩
  have member := mem_visitOrder (rowSizes (collect text)) byte
  rw [sort_eq, finished]
  generalize visitOrder (rowSizes (collect text)) = order at member
  obtain ⟨front, back, rfl, absent⟩ := List.eq_append_cons_of_mem member
  have before : Unvisited text byte (front.foldl (Rotation.visit text (some limit))
      ⟨collect text, Vector.replicate n 0, {}, 0⟩) := start.foldl uniform absent
  have spent := before.spent uniform long costly
  rw [List.foldl_append, List.foldl_cons, foldl_visit_spent _ spent]
  generalize Rotation.visit text (some limit) _ byte = final at spent ⊢
  exact of_decide_eq_true spent

end Rotation

/-- A block of more than a few equal bytes is always perturbed. -/
theorem Block.sort_uniform {block : Block} {byte : UInt8} {size : Nat}
    (uniform : block.bytes = Array.replicate size byte) (long : 122 ≤ size) :
    block.sort.block = block.perturb := by
  have bytes : block.bytes.size = size := by rw [uniform, Array.size_replicate]
  have : Occupied block.bytes.size := ⟨by omega⟩
  have same (i : Nat) : Text.byteAt block.bytes.toVector i = byte := by
    simp only [Text.byteAt, Array.toVector, Vector.getElem_mk, uniform, Array.getElem_replicate,
      dite_eq_ite, ite_self]
  have costly : SortedBlock.workPerByte * (block.size - 1) <
      (block.bytes.size - 1) * ((block.bytes.size + 2) / 4) := by
    rw [Block.size, SortedBlock.workPerByte, Nat.mul_comm]
    exact Nat.mul_lt_mul_of_pos_left (by omega) (by omega)
  have spent := Rotation.sort_uniform same (by rw [Bucket.smallRange]; omega) costly
  have occupied : ¬ block.bytes.size = 0 := by omega
  have run : block.sortRotations (some (SortedBlock.workPerByte * (block.size - 1))) =
      Rotation.sort block.bytes.toVector (some (SortedBlock.workPerByte * (block.size - 1))) :=
    dif_neg occupied
  rw [Block.sort, run]
  split
  rename_i order work result
  rw [result] at spent
  rw [if_pos spent]

end BlockSort

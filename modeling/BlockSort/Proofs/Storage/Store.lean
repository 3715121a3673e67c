import BlockSort.Proofs.Blocks
import BlockSort.Proofs.Storage.Visit
import BlockSort.Storage.BlockStore

namespace BlockSort

namespace Cells

variable {α : Type}

theorem putAll_toArray (first old last items : List α) (place : Nat)
    (here : place = first.length) (same : old.length = items.length) :
    putAll (first ++ old ++ last).toArray place items =
      some (first ++ items ++ last).toArray := by
  induction items generalizing first old place with
  | nil =>
    rw [List.length_eq_zero_iff.mp same]
    rfl
  | cons item rest ih =>
    obtain ⟨stale, old, rfl⟩ := List.exists_cons_of_length_eq_add_one same
    have step := put_toArray first (old ++ last) stale item here
    have next := ih (first ++ [item]) old (place + 1) (by simp [here]) (by simpa using same)
    rw [putAll, List.append_assoc, List.cons_append, step]
    simpa using next

theorem front_toArray (first last : List α) {count : Nat} (here : count = first.length) :
    front (first ++ last).toArray count = some first := by
  subst here
  simp [front]

end Cells

namespace BlockStore

theorem perturbFrom_spec {first last : List UInt8} (bytes : List UInt8) {place : Nat}
    (here : place + 1 = first.length) (clock : Perturbation) (present : ByteSet) :
    perturbFrom bytes.length place clock (first ++ bytes ++ last).toArray present =
      some ((first ++ Perturbation.flipAll clock bytes ++ last).toArray,
        (Perturbation.flipAll clock bytes).foldl ByteSet.insert present) := by
  induction bytes generalizing first place clock present with
  | nil => rfl
  | cons byte rest ih =>
    rcases told : clock.advance with ⟨flip, next⟩
    have onward (item : UInt8) := @ih (first ++ [item]) (place + 1) (by simp [here]) next
    have read (item : UInt8) : (first ++ item :: (rest ++ last)).toArray[place + 1]? = some item :=
      Cells.getElem?_toArray here
    rw [List.length_cons, perturbFrom, Perturbation.flipAll, told, List.append_assoc,
      List.cons_append]
    cases flip with
    | true =>
      have changed : Cells.update (first ++ byte :: (rest ++ last)).toArray (place + 1)
          (some <| · ^^^ 1) = some (first ++ (byte ^^^ 1) :: (rest ++ last)).toArray := by
        rw [Cells.update, read]
        exact Cells.put_toArray first (rest ++ last) byte (byte ^^^ 1) here
      have result := onward (byte ^^^ 1) (present.insert (byte ^^^ 1))
      simp only [if_true, Option.bind_eq_bind, changed, Option.bind_some, read]
      simpa using result
    | false =>
      have result := onward byte (present.insert byte)
      simp only [Bool.false_eq_true, if_false, Option.bind_eq_bind, Option.bind_some, read]
      simpa using result

/-- The first bytes are repeated past the end. -/
theorem mirror_spec {first : UInt8} {bytes : List UInt8} (nonempty : bytes ≠ []) (count : Nat)
    {done old last : List UInt8} (room : old.length = count) :
    mirror bytes.length count done.length (first :: bytes ++ (done ++ (old ++ last))).toArray =
      some (first :: bytes ++ (done ++ ((List.range' done.length count).map fun place =>
        bytes.getD (place % bytes.length) 0) ++ last)).toArray := by
  induction count generalizing done old with
  | zero =>
    rw [List.length_eq_zero_iff.mp room]
    simp [mirror]
  | succ count ih =>
    obtain ⟨stale, old, rfl⟩ := List.exists_cons_of_length_eq_add_one room
    have inside := Nat.mod_lt done.length (List.length_pos_iff.mpr nonempty)
    have read : (first :: bytes ++ (done ++ (stale :: old ++ last))).toArray[
        done.length % bytes.length + 1]? =
          some (bytes.getD (done.length % bytes.length) 0) := by
      simp [inside, List.getElem?_append_left]
    have written : Cells.put (first :: bytes ++ (done ++ (stale :: old ++ last))).toArray
        (bytes.length + done.length + 1) (bytes.getD (done.length % bytes.length) 0) =
          some (first :: bytes ++ (done ++ [bytes.getD (done.length % bytes.length) 0] ++
            (old ++ last))).toArray := by
      have place : bytes.length + done.length + 1 = (first :: bytes ++ done).length := by simp
      have step := Cells.put_toArray (first :: bytes ++ done) (old ++ last) stale
        (bytes.getD (done.length % bytes.length) 0) place
      simpa using step
    have next := @ih (done ++ [bytes.getD (done.length % bytes.length) 0]) old
      (by simpa using room)
    rw [mirror, read]
    simp only [Option.bind_eq_bind, Option.bind_some, written]
    rw [List.length_append, List.length_singleton] at next
    rw [next, List.range'_succ, List.map_cons]
    simp

variable {n : Nat} [Occupied n]

theorem byteAt_getD (text : Text n) (i : Nat) : text.byteAt i = text.toList.getD (i % n) 0 := by
  have bound := Nat.mod_lt i (Occupied.positive : 0 < n)
  rw [← Text.byteAt_mod, Text.byteAt_of_lt text bound]
  simp [List.getD, bound]

/-- Bytes are made ready to be read cyclically, whatever stands before and behind them. -/
theorem prepare_spec (text : Text n) (first : UInt8) {back : List UInt8}
    (room : Block.margin ≤ back.length) :
    ∃ last behind, prepare n (first :: text.toList ++ back).toArray =
        some (last :: text.toList ++ behind).toArray ∧
      behind.length = back.length ∧ Cyclic text (last :: text.toList ++ behind).toArray := by
  have positive : 0 < n := Occupied.positive
  have length : text.toList.length = n := text.length_toList
  have occupied : text.toList ≠ [] := List.ne_nil_of_length_pos (by omega)
  have mirrored := @mirror_spec first _ occupied Block.margin [] (back.take Block.margin)
    (back.drop Block.margin) (by simp [room])
  rw [List.take_append_drop, List.nil_append, List.nil_append, length, List.length_nil,
    ← List.range_eq_range'] at mirrored
  generalize behindIs : (List.range Block.margin).map (fun place => text.toList.getD (place % n) 0) ++
    back.drop Block.margin = behind at mirrored
  have inText (front : UInt8) (i : Nat) (inside : i < n) :
      (front :: text.toList ++ behind).toArray[i + 1]? = some (text.byteAt i) := by
    rw [Text.byteAt_of_lt text inside, List.getElem?_toArray, List.cons_append,
      List.getElem?_cons_succ, List.getElem?_append_left (by omega)]
    simp [inside]
  have lastAt : (first :: text.toList ++ behind).toArray[n]? = some (text.byteAt (n - 1)) := by
    have found := inText first (n - 1) (by omega)
    rwa [Nat.sub_add_cancel positive] at found
  refine ⟨text.byteAt (n - 1), behind, ?_, ?_, ?_, fun i near => ?_⟩
  · rw [prepare, mirrored]
    simp only [Option.bind_eq_bind, Option.bind_some, lastAt]
    exact Cells.put_toArray [] _ _ _ rfl
  · rw [← behindIs]
    simp
    omega
  · simp
  · by_cases inside : i < n
    · exact inText _ i inside
    · have same : (i - n) % n = i % n := (Nat.mod_eq_sub_mod (Nat.not_lt.mp inside)).symm
      rw [List.getElem?_toArray, List.cons_append, List.getElem?_cons_succ,
        List.getElem?_append_right (by omega), length, ← behindIs,
        List.getElem?_append_left (by simp; omega), List.getElem?_map, List.getElem?_range (by omega),
        Option.map_some, same, byteAt_getD]

omit [Occupied n] in
theorem clearRanks_spec {ranks : Array Nat} (room : n + Block.margin ≤ ranks.size) :
    ∃ after, clearRanks n ranks = some after ∧ after.size = ranks.size ∧
      ∀ i < n + Block.margin, after[i]? = some 0 := by
  have cut := Cells.putAll_toArray [] (ranks.toList.take (n + Block.margin))
    (ranks.toList.drop (n + Block.margin)) (List.replicate (n + Block.margin) 0) 0 rfl
    (by simp [room])
  rw [List.nil_append, List.take_append_drop, Array.toArray_toList] at cut
  refine ⟨_, cut, ?_, fun i near => ?_⟩
  · simp
    omega
  · simp [List.getElem?_append_left, near]

/-- A store shows a block: it holds the block's bytes after a first place, and has room for what a
sort puts behind them. -/
structure Shows (store : BlockStore) (block : Block) : Prop where
  slots : ∃ first back, store.slots = (first :: block.bytes.toList ++ back).toArray
  extent : store.slots.size = block.allowed + Block.margin + 1 + Block.margin
  room : block.bytes.size ≤ block.allowed + 5
  size : store.size = block.bytes.size
  present : store.present = block.present
  crc : store.crc = block.crc
  allowed : store.allowed = block.allowed
  perturbed : store.perturbed = block.perturbed

variable {store : BlockStore} {block : Block}

theorem ofSize_shows {size : Nat} (wide : Block.margin ≤ size) :
    (ofSize size).Shows (.ofSize size) := by
  refine ⟨⟨0, List.replicate (size + Block.margin) 0, ?_⟩, ?_, Nat.zero_le _, rfl, rfl, rfl, rfl,
    rfl⟩
  · rw [ofSize, ← List.toArray_replicate, Nat.add_right_comm, List.replicate_succ]
    rfl
  · simp only [ofSize, Block.ofSize, Array.size_replicate]
    omega

theorem Shows.cleared (shows : store.Shows block) : store.cleared.Shows block.cleared := by
  obtain ⟨first, back, slots⟩ := shows.slots
  refine ⟨⟨first, block.bytes.toList ++ back, ?_⟩, shows.extent, Nat.zero_le _, rfl, rfl, rfl,
    shows.allowed, rfl⟩
  simp [BlockStore.cleared, Block.cleared, slots]

/-- A store takes a run if the block does, and refuses it if the block is full. -/
theorem Shows.offer (shows : store.Shows block) (run : Run) :
    ∃ after, store.offer run = some (!block.isFull, after) ∧
      after.Shows (if block.isFull then block else block.append run) := by
  obtain ⟨slots, size, present, crc, allowed, perturbed⟩ := store
  have kept := shows
  obtain ⟨⟨first, back, slots⟩, extent, small, rfl, rfl, rfl, rfl, rfl⟩ := shows
  dsimp only at slots extent
  subst slots
  have few := run.length_encode_le
  have fullness : block.isFull = decide (block.allowed < block.bytes.size) := rfl
  rw [BlockStore.offer, fullness]
  by_cases full : block.allowed < block.bytes.size
  · rw [if_pos full, decide_eq_true full]
    exact ⟨_, rfl, kept⟩
  · have wide : run.encode.length ≤ back.length := by
      simp [Block.margin] at extent
      omega
    have put := Cells.putAll_toArray (first :: block.bytes.toList) (back.take run.encode.length)
      (back.drop run.encode.length) run.encode (block.bytes.size + 1) (by simp) (by simp [wide])
    rw [List.append_assoc, List.take_append_drop] at put
    rw [if_neg full, decide_eq_false full]
    simp only [put, Option.bind_eq_bind, Option.bind_some]
    refine ⟨_, rfl, ⟨first, back.drop run.encode.length, ?_⟩, ?_, ?_, ?_, rfl, rfl, rfl, rfl⟩
    · simp [Block.bytes_append]
    · have same : (block.append run).allowed = block.allowed := rfl
      simp only [Bool.false_eq_true, if_false, same, ← extent]
      simp
      omega
    · have grown := Block.size_append block run
      have same : (block.append run).allowed = block.allowed := rfl
      simp only [Block.size] at grown
      simp only [Bool.false_eq_true, if_false, same]
      omega
    · simp only [Bool.false_eq_true, if_false]
      rw [← @Array.length_toList _ (block.append run).bytes, Block.bytes_append]
      simp

end BlockStore

/-- The arrays of a sort for blocks of a size. -/
structure SortSpace.Sized (space : SortSpace) (size : Nat) : Prop where
  order : space.order.size = size
  starts : space.starts.size = Rotation.pairCount + 1
  ranks : space.ranks.size = size + Block.margin + 1

/-- What a sort does in a store and its space: it shows the sorted block, the bytes before its
rotations stand at their places, and the front of the order is that of the rotations. -/
structure SortedBlock.StoredIn (sorted : SortedBlock) (store : BlockStore) (space : SortSpace) :
    Prop where
  shows : store.Shows sorted.block
  last : ∀ position : Fin sorted.block.bytes.size, store.slots[position.val]? =
    some (Text.lastByte sorted.block.bytes.toVector position)
  order : ∃ rest, space.order = (sorted.order.map Fin.val ++ rest).toArray

namespace BlockStore

variable {store : BlockStore} {block : Block}

/-- A block in a store, between a first place and those behind. -/
def held (block : Block) (first : UInt8) (back : List UInt8) : BlockStore :=
  ⟨(first :: block.bytes.toList ++ back).toArray, block.bytes.size, block.present, block.crc,
    block.allowed, block.perturbed⟩

variable {first last : UInt8} {back behind : List UInt8}

theorem Shows.held (shows : store.Shows block) :
    ∃ first back, store = held block first back ∧
      block.bytes.size + back.length = block.allowed + Block.margin + Block.margin := by
  obtain ⟨slots, count, present, crc, allowed, perturbed⟩ := store
  obtain ⟨⟨first, back, slots⟩, extent, -, rfl, rfl, rfl, rfl, rfl⟩ := shows
  dsimp only at slots extent
  subst slots
  refine ⟨first, back, rfl, ?_⟩
  simp at extent
  omega

theorem held_shows (room : block.bytes.size ≤ block.allowed + 5)
    (extent : block.bytes.size + back.length = block.allowed + Block.margin + Block.margin) :
    (held block first back).Shows block := by
  refine ⟨⟨first, back, rfl⟩, ?_, room, rfl, rfl, rfl, rfl, rfl⟩
  simp [held]
  omega

/-- One sort of a block's bytes: they are made ready, ranks are forgotten, and the rotations are
sorted. -/
structure SortedOnce (block : Block) (first : UInt8) (back : List UInt8) (space : SortSpace)
    (size : Nat) (budget : Option Nat) (last : UInt8) (behind : List UInt8) (ranks : Array Nat)
    (after : SortSpace) : Prop where
  prepared : prepare block.bytes.size (first :: block.bytes.toList ++ back).toArray =
    some (last :: block.bytes.toList ++ behind).toArray
  length : behind.length = back.length
  cleared : clearRanks block.bytes.size space.ranks = some ranks
  sorted : SortSpace.sortRotations (last :: block.bytes.toList ++ behind).toArray block.bytes.size
    budget { space with ranks } = some (after, (block.sortRotations budget).2)
  before : ∀ position : Fin block.bytes.size,
    (last :: block.bytes.toList ++ behind).toArray[position.val]? =
      some (Text.lastByte block.bytes.toVector position)
  order : ∃ rest, after.order =
    ((block.sortRotations budget).1.map Fin.val ++ rest).toArray
  sized : after.Sized size

theorem sortOnce_spec (occupied : block.bytes.size ≠ 0) (room : Block.margin ≤ back.length)
    {space : SortSpace} {size : Nat} (sized : space.Sized size)
    (wide : block.bytes.size + 1 ≤ size) (small : block.bytes.size < SortSpace.mark)
    (budget : Option Nat) :
    ∃ last behind ranks after,
      SortedOnce block first back space size budget last behind ranks after := by
  have : Occupied block.bytes.size := ⟨Nat.pos_of_ne_zero occupied⟩
  obtain ⟨last, behind, prepared, same, cyclic⟩ :=
    prepare_spec block.bytes.toVector first room
  obtain ⟨ranks, cleared, extent, zero⟩ := clearRanks_spec (show
    block.bytes.size + Block.margin ≤ space.ranks.size by rw [sized.ranks]; omega)
  obtain ⟨after, sorted, order, total, starts, kept⟩ :=
    @SortSpace.sortRotations_spec _ _ _ _ cyclic small budget { space with ranks }
      (by simp only [sized.order]; omega) sized.starts zero
  have rotations : block.sortRotations budget = Rotation.sort block.bytes.toVector budget := by
    rw [Block.sortRotations, dif_neg occupied]
  refine ⟨last, behind, ranks, after, prepared, same, cleared, ?_, cyclic.before, ?_,
    total.trans sized.order, starts, (kept.trans extent).trans sized.ranks⟩
  · rw [rotations]
    exact sorted
  · rw [rotations]
    exact ⟨_, order⟩

theorem origin_spec {n : Nat} {order : List (Fin n)} (perm : order.Perm (List.finRange n))
    (occupied : n ≠ 0) :
    (order.map Fin.val).findIdx? (· = 0) = some (order.findIdx (·.val = 0)) := by
  have first : (⟨0, Nat.pos_of_ne_zero occupied⟩ : Fin n) ∈ order :=
    perm.mem_iff.mpr (List.mem_finRange _)
  rw [List.findIdx?_map, List.findIdx?_eq_some_iff_findIdx_eq]
  exact ⟨List.findIdx_lt_length.mpr ⟨_, first, by simp⟩, rfl⟩

theorem sort_within {limit : Nat} (is : limit = SortedBlock.workPerByte * (block.size - 1))
    (within : ¬limit < (block.sortRotations (some limit)).2) :
    block.sort = ⟨block, (block.sortRotations (some limit)).1, none⟩ := by
  subst is
  rw [Block.sort]
  exact if_neg within

theorem sort_overrun {limit : Nat} (is : limit = SortedBlock.workPerByte * (block.size - 1))
    (exceeded : limit < (block.sortRotations (some limit)).2) :
    block.sort = ⟨block.perturb, (block.perturb.sortRotations none).1,
      some ⟨(block.sortRotations (some limit)).2, limit⟩⟩ := by
  subst is
  rw [Block.sort]
  exact if_pos exceeded

section Sorts

variable {space left after : SortSpace} {ranks ranks' : Array Nat} {size limit : Nat}
variable {budget : Option Nat} {last' : UInt8} {behind' : List UInt8}

theorem SortedOnce.front
    (once : SortedOnce block first back space size budget last behind ranks left)
    (perm : (block.sortRotations budget).1.Perm (List.finRange block.bytes.size)) :
    Cells.front left.order block.bytes.size =
      some ((block.sortRotations budget).1.map Fin.val) := by
  obtain ⟨rest, order⟩ := once.order
  rw [order]
  exact Cells.front_toArray _ _ (by rw [List.length_map, perm.length_eq, List.length_finRange])

theorem minus_one (occupied : block.bytes.size ≠ 0) :
    Cells.minus block.bytes.size 1 = some (block.bytes.size - 1) :=
  if_pos (Nat.pos_of_ne_zero occupied)

theorem SortedOnce.within
    (once : SortedOnce block first back space size (some limit) last behind ranks left)
    (occupied : block.bytes.size ≠ 0)
    (is : SortedBlock.workPerByte * (block.bytes.size - 1) = limit)
    (kept : ¬limit < (block.sortRotations (some limit)).2) :
    (held block first back).sort space =
      some ((block.sortRotations (some limit)).1.findIdx (·.val = 0), none,
        held block last behind, left) := by
  have perm := (Block.sortRotations_spec block occupied (some limit) (decide_eq_false kept)).1
  rw [BlockStore.sort]
  simp only [held, minus_one occupied, Option.bind_eq_bind, Option.bind_some, is, once.prepared,
    once.cleared, once.sorted, if_neg kept, once.front perm, origin_spec perm occupied]
  rfl

theorem perturb_size : block.perturb.bytes.size = block.bytes.size := Perturbation.size_apply _

theorem perturbFrom_eq : perturbFrom block.bytes.size 0 .initial
    (last :: block.bytes.toList ++ behind).toArray {} =
      some ((last :: block.perturb.bytes.toList ++ behind).toArray, block.perturb.present) := by
  have flipped := @perturbFrom_spec [last] behind block.bytes.toList 0 rfl .initial {}
  rwa [← Perturbation.apply_eq, Array.length_toList, Array.foldl_toList] at flipped

/-- A sort that exceeds its limit. The bytes are perturbed and sorted again, in the arrays that the
first sort left. -/
theorem SortedOnce.twice
    (once : SortedOnce block first back space size (some limit) last behind ranks left)
    (again : SortedOnce block.perturb last behind left size none last' behind' ranks' after)
    (occupied : block.bytes.size ≠ 0)
    (is : SortedBlock.workPerByte * (block.bytes.size - 1) = limit)
    (exceeded : limit < (block.sortRotations (some limit)).2) :
    (held block first back).sort space =
      some ((block.perturb.sortRotations none).1.findIdx (·.val = 0),
        some ⟨(block.sortRotations (some limit)).2, limit⟩, held block.perturb last' behind',
        after) := by
  have perm := (Block.sortRotations_spec block.perturb (by rwa [perturb_size]) none rfl).1
  have front : Cells.front after.order block.bytes.size =
      some ((block.perturb.sortRotations none).1.map Fin.val) :=
    (congrArg (Cells.front after.order) perturb_size).symm.trans (again.front perm)
  have found := origin_spec perm (by rwa [perturb_size])
  have prepared := again.prepared
  have cleared := again.cleared
  have sorted := again.sorted
  generalize (block.perturb.sortRotations none).2 = work at sorted
  rw [BlockStore.sort]
  simp only [held, minus_one occupied, Option.bind_eq_bind, Option.bind_some, is, once.prepared,
    once.cleared, once.sorted, if_pos exceeded]
  rw [perturb_size] at prepared cleared sorted
  simp only [perturbFrom_eq, prepared, cleared, sorted, front, found, Option.bind_some,
    perturb_size]
  rfl

/-- A store sorts its block as the block is sorted, whatever earlier sorts have left in the
space. -/
theorem Shows.sort (shows : store.Shows block) (occupied : block.bytes.size ≠ 0)
    (sized : space.Sized size) (wide : block.allowed + Block.margin = size)
    (small : block.allowed + 5 < SortSpace.mark) :
    ∃ after left,
      store.sort space = some (block.sort.origin, block.sort.overrun, after, left) ∧
        block.sort.StoredIn after left ∧ left.Sized size := by
  have room := shows.room
  obtain ⟨first, back, rfl, extent⟩ := shows.held
  have margin : Block.margin = 20 := rfl
  generalize limitIs : SortedBlock.workPerByte * (block.bytes.size - 1) = limit
  obtain ⟨last, behind, ranks, left, once⟩ :=
    @sortOnce_spec block first back occupied (by omega) space size sized (by omega) (by omega)
      (some limit)
  have length := once.length
  by_cases exceeded : limit < (block.sortRotations (some limit)).2
  · have same := @perturb_size block
    obtain ⟨last', behind', ranks', after, again⟩ :=
      @sortOnce_spec block.perturb last behind (by rwa [same]) (by omega) left size once.sized
        (by omega) (by omega) none
    have length' := again.length
    have allowed : block.perturb.allowed = block.allowed := rfl
    rw [sort_overrun limitIs.symm exceeded]
    exact ⟨_, after, once.twice again occupied limitIs exceeded,
      ⟨held_shows (same.trans_le room) (by omega), again.before,
        again.order⟩, again.sized⟩
  · rw [sort_within limitIs.symm exceeded]
    exact ⟨_, left, once.within occupied limitIs exceeded,
      ⟨held_shows room (by omega), once.before, once.order⟩, once.sized⟩

end Sorts

end BlockStore

end BlockSort

import BlockSort.Proofs.Rotation.Rotated
import BlockSort.Proofs.Storage.Isolation

namespace BlockSort

namespace Block

theorem sortRotations_ordered (block : Block) {budget : Option Nat}
    (running : Rotation.exhausted budget (block.sortRotations budget).2 = false) :
    (block.sortRotations budget).1.Pairwise fun one other : Fin block.bytes.size =>
      block.bytes.toList.rotate one ≤ block.bytes.toList.rotate other := by
  by_cases empty : block.bytes.size = 0
  · simp [sortRotations, empty]
  · have : Occupied block.bytes.size := ⟨Nat.pos_of_ne_zero empty⟩
    rw [sortRotations, dif_neg empty] at running ⊢
    exact (Rotation.sort_spec block.bytes.toVector budget running).2.imp Text.rotate_le_iff.mpr

theorem sort_ordered (block : Block) :
    block.sort.order.Pairwise fun one other : Fin block.sort.block.bytes.size =>
      block.sort.block.bytes.toList.rotate one ≤ block.sort.block.bytes.toList.rotate other := by
  obtain ⟨sorted, budget, overrun, -, running, same⟩ := block.sort_cases
  rw [same]
  exact sorted.sortRotations_ordered running

/-- A sort leaves the bytes as they are, or perturbs them and says so. -/
theorem sort_bytes (block : Block) :
    (block.sort.block.perturbed = block.perturbed ∧
        block.sort.block.bytes.toList = block.bytes.toList) ∨
      (block.sort.block.perturbed = true ∧
        block.sort.block.bytes.toList = block.bytes.toList.mapIdx fun place byte =>
          byte ^^^ if Perturbation.flipAt place then 1 else 0) := by
  obtain ⟨sorted, budget, overrun, rfl | rfl, -, same⟩ := block.sort_cases
  · rw [same]
    exact .inl ⟨rfl, rfl⟩
  · rw [same]
    refine .inr ⟨rfl, (Perturbation.toList_apply block.bytes).trans ?_⟩
    congr 1
    funext place byte
    split
    · rfl
    · exact UInt8.xor_zero.symm

end Block

namespace SortedBlock.StoredIn

variable {sorted : SortedBlock} {store : BlockStore} {sorting : SortSpace}

/-- The bytes before rotations, in any order that sorts them, give back the block from every row in
which it is not rotated. -/
theorem unrotate (stored : sorted.StoredIn store sorting) (occupied : store.size ≠ 0)
    {order : List Nat} (perm : order.Perm (List.range store.size))
    (ordered : order.Pairwise fun one other => store.bytes.rotate one ≤ store.bytes.rotate other) :
    ∃ column, order.mapM (store.slots[·]?) = some column ∧
      ∀ row position, order[row]? = some position → store.bytes.rotate position = store.bytes →
        Decoder.unrotate column row = store.bytes := by
  have bytes := stored.shows.bytes
  have size := stored.shows.size
  rw [size] at occupied perm
  rw [bytes] at ordered ⊢
  have : Occupied sorted.block.bytes.size := ⟨Nat.pos_of_ne_zero occupied⟩
  have inside : ∀ position ∈ order, position < sorted.block.bytes.size := fun position member =>
    List.mem_range.mp (perm.mem_iff.mp member)
  lift order to List (Fin sorted.block.bytes.size) using inside with rows
  rw [← List.map_coe_finRange_eq_range, List.map_perm_map_iff Fin.val_injective] at perm
  rw [List.pairwise_map] at ordered
  refine ⟨Decoder.lastColumn sorted.block.bytes.toVector rows, ?_,
    fun row position found same => ?_⟩
  · rw [List.mapM_map]
    exact mapM_of_forall _ fun position _ => stored.last position
  · rw [List.getElem?_map, Option.map_eq_some_iff] at found
    obtain ⟨position, found, rfl⟩ := found
    obtain ⟨bound, found⟩ := List.getElem?_eq_some_iff.mp found
    have word : Text.word sorted.block.bytes.toVector position.val =
        Text.word sorted.block.bytes.toVector 0 :=
      Text.rotate_eq_iff.mp (same.trans (List.rotate_zero _).symm)
    refine Decoder.unrotate_from perm (ordered.imp Text.rotate_le_iff.mp) ?_ ?_
    · simpa [perm.length_eq] using bound
    · rwa [Decoder.rotationAt, List.getD_eq_getElem?_getD, List.getElem?_eq_getElem bound,
        Option.getD_some, found]

end SortedBlock.StoredIn

namespace BlockStore

/-- A store for blocks of a size, whichever block it holds and whatever else is in its slots. -/
structure Sized (store : BlockStore) (size : Nat) : Prop where
  large : Block.margin ≤ size
  slots : store.slots.size = size + 1 + Block.margin
  allowed : store.allowed = size - Block.margin
  fits : store.size ≤ store.allowed + 5

/-- The block that a store holds. -/
def block (store : BlockStore) : Block :=
  ⟨store.allowed, store.bytes.toArray, store.present, store.crc, store.perturbed⟩

/-- Adds runs in order, except for those that are refused. -/
def fill : List Run → BlockStore → Option BlockStore
  | [], store => some store
  | run :: rest, store => do fill rest (← store.offer run).2

variable {store : BlockStore} {block : Block} {size : Nat}

theorem Sized.cleared (sized : store.Sized size) : store.cleared.Sized size :=
  ⟨sized.large, sized.slots, sized.allowed, Nat.zero_le _⟩

theorem Sized.shows (sized : store.Sized size) : store.Shows store.block := by
  obtain ⟨slots, count, present, crc, allowed, perturbed⟩ := store
  obtain ⟨large, extent, rfl, fits⟩ := sized
  dsimp only at extent fits
  obtain ⟨first, rest, split⟩ : ∃ first rest, slots.toList = first :: rest :=
    List.exists_cons_of_length_eq_add_one (n := size + Block.margin) (by simp; omega)
  have length : rest.length = size + Block.margin := by
    have total := congrArg List.length split
    rw [Array.length_toList, List.length_cons] at total
    omega
  have number : (rest.take count).toArray.size = count := by
    rw [List.size_toArray, List.length_take, length]
    simp only [Block.margin] at large fits ⊢
    omega
  simp only [BlockStore.block, bytes, split, List.drop_one, List.tail_cons]
  refine ⟨⟨first, rest.drop count, ?_⟩, ?_, by rwa [number], number.symm, rfl, rfl, rfl, rfl⟩
  · rw [List.cons_append, List.take_append_drop, ← split, Array.toArray_toList]
  · simp only [extent]
    omega

theorem Shows.sized (shows : store.Shows block) (large : Block.margin ≤ size)
    (allowed : block.allowed = size - Block.margin) : store.Sized size := by
  refine ⟨large, ?_, shows.allowed.trans allowed, ?_⟩
  · rw [shows.extent, allowed]
    omega
  · rw [shows.size, shows.allowed]
    exact shows.room

/-- Runs never overfill a store. -/
theorem Sized.fill (sized : store.Sized size) (runs : List Run) :
    ∃ built, store.fill runs = some built ∧ built.Sized size ∧
      built.perturbed = store.perturbed := by
  induction runs generalizing store with
  | nil => exact ⟨store, rfl, sized, rfl⟩
  | cons run rest ih =>
    obtain ⟨after, offered, shows⟩ := sized.shows.offer run
    have kept : (if store.block.isFull then store.block else store.block.append run).allowed =
          store.allowed ∧
        (if store.block.isFull then store.block else store.block.append run).perturbed =
          store.perturbed := by
      split <;> exact ⟨rfl, rfl⟩
    obtain ⟨built, filled, result, same⟩ :=
      ih (shows.sized sized.large (kept.1.trans sized.allowed))
    refine ⟨built, ?_, result, same.trans (shows.perturbed.trans kept.2)⟩
    rw [BlockStore.fill, offered]
    exact filled

/-- What a sort leaves of a block in its storage, and in the space of the sort. -/
structure Sorted (before : BlockStore) (origin : Nat) (after : BlockStore) (left : SortSpace) :
    Prop where
  size : after.size = before.size
  crc : after.crc = before.crc
  length : after.bytes.length = after.size
  last : after.slots[0]? = after.slots[after.size]?
  perm : (left.order.toList.take before.size).Perm (List.range before.size)
  ordered : (left.order.toList.take before.size).Pairwise fun one other =>
    after.bytes.rotate one ≤ after.bytes.rotate other
  origin : ∀ row, (left.order.toList.take before.size)[row]? = some 0 ↔ row = origin
  bytes : (after.perturbed = before.perturbed ∧ after.bytes = before.bytes) ∨
    (after.perturbed = true ∧ after.bytes = before.bytes.mapIdx fun place byte =>
      byte ^^^ if Perturbation.flipAt place then 1 else 0)

variable {after : BlockStore} {left : SortSpace} {space : SortSpace}

theorem Shows.slot (shows : store.Shows block) {place : Nat} (inside : place < block.bytes.size) :
    store.slots[place + 1]? = some block.bytes[place] := by
  obtain ⟨first, back, slots⟩ := shows.slots
  rw [slots, List.getElem?_toArray, List.cons_append, List.getElem?_cons_succ,
    List.getElem?_append_left (by simpa using inside)]
  simp [inside]

theorem Shows.front (shows : store.Shows block) (occupied : block.bytes.size ≠ 0)
    (stored : block.sort.StoredIn after left) :
    left.order.toList.take store.size = block.sort.order.map Fin.val := by
  obtain ⟨rest, order⟩ := stored.order
  have count : (block.sort.order.map Fin.val).length = store.size := by
    rw [List.length_map, (Block.sort_perm occupied).length_eq, List.length_finRange,
      block.sort_size, shows.size]
  rw [order, ← count]
  simp

/-- What the sort of a block says is found in its storage. -/
theorem Shows.sorted (shows : store.Shows block) (occupied : block.bytes.size ≠ 0)
    (stored : block.sort.StoredIn after left) : store.Sorted block.sort.origin after left := by
  have count := block.sort_size
  have perm := Block.sort_perm occupied
  have front := shows.front occupied stored
  refine ⟨?_, ?_, ?_, ?_, ?_, ?_, fun row => ?_, ?_⟩
  · rw [stored.shows.size, count, shows.size]
  · rw [stored.shows.crc, Block.sort_crc, shows.crc]
  · rw [stored.shows.bytes, stored.shows.size, Array.length_toList]
  · have first := stored.last ⟨0, by omega⟩
    have last := stored.shows.slot (show block.sort.block.bytes.size - 1 < _ by omega)
    rw [Nat.sub_add_cancel (by omega)] at last
    rw [stored.shows.size, last]
    exact first
  · rw [front, shows.size, ← count, ← List.map_coe_finRange_eq_range]
    exact perm.map Fin.val
  · rw [front, stored.shows.bytes, List.pairwise_map]
    exact block.sort_ordered
  · have found := origin_spec perm (by rwa [count])
    obtain ⟨inside, zero, -⟩ := List.findIdx?_eq_some_iff_getElem.mp found
    rw [decide_eq_true_eq] at zero
    have distinct : (block.sort.order.map Fin.val).Nodup :=
      (perm.nodup_iff.mpr (List.nodup_finRange _)).map Fin.val_injective
    rw [front]
    constructor
    · intro here
      obtain ⟨bound, here⟩ := List.getElem?_eq_some_iff.mp here
      exact distinct.getElem_inj_iff.mp (here.trans zero.symm)
    · rintro rfl
      exact List.getElem?_eq_some_iff.mpr ⟨inside, zero⟩
  · rw [stored.shows.perturbed, stored.shows.bytes, shows.perturbed, shows.bytes]
    exact block.sort_bytes

/-- A sort comes to an end, whatever earlier ones have left in the space. -/
theorem Sized.sort (stored : store.Sized size) (occupied : store.size ≠ 0)
    (small : size < SortSpace.mark) (sized : space.Sized size) :
    ∃ after left,
      store.sort space = some (store.block.sort.origin, store.block.sort.overrun, after, left) ∧
        store.block.sort.StoredIn after left := by
  have shows := stored.shows
  have whole : store.block.allowed + Block.margin = size := by
    rw [← shows.allowed, stored.allowed, Nat.sub_add_cancel stored.large]
  obtain ⟨after, left, run, result, -⟩ := shows.sort (by rwa [← shows.size]) sized whole
    (by rw [Block.margin] at whole; omega)
  exact ⟨after, left, run, result⟩

/-- A block of any runs is sorted, whatever its store and the space of the sort have held before.
The order then lists every rotation once, and no rotation is less than one before it; the block
that is not rotated is where the sort says. Size and checksum are kept, and so are the bytes, except
those that a perturbation has flipped. -/
theorem sort_rotations (small : size ≤ 900000) (stored : store.Sized size)
    (sized : space.Sized size) (runs : List Run) :
    ∃ built, store.cleared.fill runs = some built ∧ built.perturbed = false ∧
      (built.size ≠ 0 → ∃ origin overrun after left,
        built.sort space = some (origin, overrun, after, left) ∧
          built.Sorted origin after left) := by
  obtain ⟨built, filled, kept, raw⟩ := stored.cleared.fill runs
  refine ⟨built, filled, raw, fun occupied => ?_⟩
  obtain ⟨after, left, run, result⟩ := kept.sort occupied
    (Nat.lt_of_le_of_lt small (by decide)) sized
  exact ⟨_, _, after, left, run, kept.shows.sorted (by rwa [← kept.shows.size]) result⟩

/-- Two equal halves, in a store and a space that are full of other things. -/
theorem sort_rotations_periodic :
    let store : BlockStore := { slots := Array.replicate 61 7, size := 9, allowed := 20 }
    let space : SortSpace :=
      ⟨Array.replicate 40 5, Array.replicate 65537 9, Array.replicate 61 3, [⟨0, 9, 2⟩]⟩
    ∃ built origin overrun after left,
      store.cleared.fill [⟨97, 1⟩, ⟨98, 1⟩, ⟨97, 1⟩, ⟨98, 1⟩] = some built ∧
      built.bytes = [97, 98, 97, 98] ∧ built.perturbed = false ∧
      built.sort space = some (origin, overrun, after, left) ∧
      built.Sorted origin after left := by
  intro store space
  obtain ⟨built, filled, raw, sorts⟩ := @sort_rotations store 40 space (by decide)
    ⟨by decide, Array.size_replicate .., rfl, by decide⟩
    ⟨Array.size_replicate .., Array.size_replicate .., Array.size_replicate ..⟩
    [⟨97, 1⟩, ⟨98, 1⟩, ⟨97, 1⟩, ⟨98, 1⟩]
  have bytes : built.bytes = [97, 98, 97, 98] := by
    have read : (store.cleared.fill [⟨97, 1⟩, ⟨98, 1⟩, ⟨97, 1⟩, ⟨98, 1⟩]).map BlockStore.bytes =
        some [97, 98, 97, 98] := by decide +kernel
    rwa [filled, Option.map_some, Option.some.injEq] at read
  obtain ⟨origin, overrun, after, left, run, sorted⟩ := sorts (by
    intro empty
    rw [BlockStore.bytes, empty] at bytes
    cases bytes)
  exact ⟨built, origin, overrun, after, left, filled, bytes, raw, run, sorted⟩

/-- The last bytes of the rotations are those before them, and from these the sorted block is
regained by following links, from the place that the sort gives. The same holds for every other
order that sorts the rotations, and for every row of it that is equal to the block. -/
theorem sort_invertible (small : size < SortSpace.mark) (stored : store.Sized size)
    (occupied : store.size ≠ 0) (sized : space.Sized size) :
    ∃ origin overrun after left column,
      store.sort space = some (origin, overrun, after, left) ∧
      (left.order.toList.take after.size).mapM (after.slots[·]?) = some column ∧
      Decoder.unrotate column origin = after.bytes ∧
      ∀ order : List Nat, order.Perm (List.range after.size) →
        (order.Pairwise fun one other => after.bytes.rotate one ≤ after.bytes.rotate other) →
        ∃ column, order.mapM (after.slots[·]?) = some column ∧
          ∀ row position, order[row]? = some position →
            after.bytes.rotate position = after.bytes →
            Decoder.unrotate column row = after.bytes := by
  obtain ⟨after, left, run, result⟩ := stored.sort occupied small sized
  have sorted := stored.shows.sorted (by rwa [← stored.shows.size]) result
  rw [← sorted.size] at occupied
  have anyOrder {order : List Nat} (perm : order.Perm (List.range after.size)) ordered :=
    result.unrotate occupied perm ordered
  have perm := sorted.perm
  have ordered := sorted.ordered
  have origin := (sorted.origin _).mpr rfl
  rw [← sorted.size] at perm ordered origin
  obtain ⟨column, read, rows⟩ := anyOrder perm ordered
  exact ⟨_, _, after, left, column, run, read, rows _ 0 origin (List.rotate_zero _),
    fun order perm ordered => anyOrder perm ordered⟩

/-- Two equal halves, so that the block is found in two rows. -/
theorem sort_invertible_periodic :
    let store : BlockStore :=
      { slots := #[0, 97, 98, 97, 98] ++ Array.replicate 56 7, size := 4, allowed := 20 }
    store.bytes = [97, 98, 97, 98] ∧
    ∃ origin overrun after left column,
      store.sort (Workspace.ofSize 40).sorting = some (origin, overrun, after, left) ∧
      (left.order.toList.take after.size).mapM (after.slots[·]?) = some column ∧
      Decoder.unrotate column origin = after.bytes ∧
      ∀ order : List Nat, order.Perm (List.range after.size) →
        (order.Pairwise fun one other => after.bytes.rotate one ≤ after.bytes.rotate other) →
        ∃ column, order.mapM (after.slots[·]?) = some column ∧
          ∀ row position, order[row]? = some position →
            after.bytes.rotate position = after.bytes →
            Decoder.unrotate column row = after.bytes :=
  ⟨by decide, sort_invertible (by decide) ⟨by decide, by decide, rfl, by decide⟩ (by decide)
    (Workspace.ofSize_sized 40).sorting⟩

end BlockStore

end BlockSort

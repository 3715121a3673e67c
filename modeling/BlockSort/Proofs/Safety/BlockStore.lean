import BlockSort.Proofs.Inverse.Perturbation
import BlockSort.Proofs.Safety.SortSpace
import BlockSort.Proofs.Storage.Isolation

/-!
The sort of a block in its storage, watched. After any calls of a framer, whether they have
succeeded or not, a sort of its block has a result, and every access on the way to it is safe, also
when the block is perturbed and sorted once more.
-/
namespace BlockSort

namespace Watched

def putAll {α : Type} (cells : Array α) (place : Nat) : List α → Watched (Array α)
  | [] => return cells
  | item :: rest => do putAll (← put cells place item) (place + 1) rest

def mirror (size : Nat) : (count place : Nat) → Array UInt8 → Watched (Array UInt8)
  | 0, _, slots => return slots
  | count + 1, place, slots => do
    let copied ← byte slots size (place % size + 1)
    mirror size count (place + 1) (← put slots (size + place + 1) copied)

def prepare (size : Nat) (slots : Array UInt8) : Watched (Array UInt8) := do
  let slots ← mirror size Block.margin 0 slots
  put slots 0 (← byte slots size size)

def clearRanks (size : Nat) (ranks : Array Nat) : Watched (Array Nat) :=
  putAll ranks 0 (List.replicate (size + Block.margin) 0)

/-- How many bytes are left of a step of a perturbation, the next one included. -/
def left (clock : Perturbation) : Nat :=
  if clock.remaining = 0 then Perturbation.steps.get clock.next else clock.remaining

def perturbFrom (size : Nat) : (count place : Nat) → Perturbation → Array UInt8 → ByteSet →
    Watched (Array UInt8 × ByteSet)
  | 0, _, _, slots, present => return (slots, present)
  | count + 1, place, clock, slots, present => do
    note (.difference (left clock) 1)
    let (flip, clock) := clock.advance
    let slots ← if flip then update slots (place + 1) (some <| · ^^^ 1) else pure slots
    perturbFrom size count (place + 1) clock slots
      (present.insert (← byte slots size (place + 1)))

/-- Finds the place of the unrotated block in the order. -/
def origin (order : Array Nat) (size : Nat) : Watched Nat := do
  let places ← front order size
  ⟨[], places.findIdx? (· = 0)⟩

def sort (store : BlockStore) (space : SortSpace) :
    Watched (Nat × Option Overrun × BlockStore × SortSpace) := do
  let last ← minus store.size 1
  let limit := SortedBlock.workPerByte * last
  let ⟨slots, size, present, crc, allowed, perturbed⟩ := store
  let slots ← prepare size slots
  let ranks ← clearRanks size space.ranks
  let (space, work) ← sortRotations slots size (some limit) { space with ranks }
  if limit < work then
    let (slots, present) ← perturbFrom size size 0 .initial slots {}
    let slots ← prepare size slots
    let ranks ← clearRanks size space.ranks
    let (space, _) ← sortRotations slots size none { space with ranks }
    let origin ← origin space.order size
    return (origin, some ⟨work, limit⟩, ⟨slots, size, present, crc, allowed, true⟩, space)
  else
    let origin ← origin space.order size
    return (origin, none, ⟨slots, size, present, crc, allowed, perturbed⟩, space)

section Value

theorem value_putAll {α : Type} (cells : Array α) (place : Nat) (items : List α) :
    (putAll cells place items).value = Cells.putAll cells place items := by
  induction items generalizing cells place with
  | nil => rfl
  | cons item rest ih =>
    rw [putAll, Cells.putAll]
    simp only [value_bind, value_put, ih]
    rfl

theorem value_mirror (size count place : Nat) (slots : Array UInt8) :
    (mirror size count place slots).value = BlockStore.mirror size count place slots := by
  induction count generalizing place slots with
  | zero => rfl
  | succ count ih =>
    rw [mirror, BlockStore.mirror]
    simp only [value_bind, value_byte, value_put, ih]
    rfl

theorem value_prepare (size : Nat) (slots : Array UInt8) :
    (prepare size slots).value = BlockStore.prepare size slots := by
  rw [prepare, BlockStore.prepare]
  simp only [value_bind, value_mirror, value_byte, value_put]
  rfl

theorem value_perturbFrom (size count place : Nat) (clock : Perturbation) (slots : Array UInt8)
    (present : ByteSet) :
    (perturbFrom size count place clock slots present).value =
      BlockStore.perturbFrom count place clock slots present := by
  induction count generalizing place clock slots present with
  | zero => rfl
  | succ count ih =>
    rw [perturbFrom, BlockStore.perturbFrom, value_bind, value_note, Option.bind_some]
    rcases clock.advance with ⟨flip, clock⟩
    cases flip with
    | true =>
      simp only [if_true, value_bind, value_update, value_byte, ih]
      rfl
    | false =>
      simp only [Bool.false_eq_true, if_false, value_bind, value_pure, value_byte, ih]
      rfl

theorem value_origin (order : Array Nat) (size : Nat) :
    (origin order size).value = (Cells.front order size).bind (·.findIdx? (· = 0)) := by
  rw [origin, value_bind, value_front]
  rfl

/-- The watched sort is the sort. -/
theorem value_sort (store : BlockStore) (space : SortSpace) :
    (sort store space).value = store.sort space := by
  obtain ⟨slots, size, present, crc, allowed, perturbed⟩ := store
  rw [sort, BlockStore.sort]
  simp only [value_bind, value_minus, value_prepare, clearRanks, value_putAll,
    value_sortRotations]
  refine Option.bind_congr fun last _ => Option.bind_congr fun prepared _ =>
    Option.bind_congr fun ranks _ => Option.bind_congr fun sorted _ => ?_
  obtain ⟨space, work⟩ := sorted
  dsimp only
  split
  all_goals
    simp only [value_bind, value_perturbFrom, value_prepare, value_putAll, value_sortRotations,
      value_origin, value_pure, Option.bind_assoc]
    rfl

end Value

section Safe

theorem putAll_safe {α : Type} {cells after : Array α} {place : Nat} {items : List α}
    (done : Cells.putAll cells place items = some after) :
    Performs (putAll cells place items) after := by
  induction items generalizing cells place with
  | nil =>
    exact .given done
  | cons item rest ih =>
    obtain ⟨written, writing, done⟩ := Option.bind_eq_some_iff.mp done
    exact (Performs.put writing).bind (ih done)

theorem mirror_safe {size : Nat} (occupied : 0 < size) {count place : Nat}
    {slots after : Array UInt8} (done : BlockStore.mirror size count place slots = some after) :
    Performs (mirror size count place slots) after := by
  induction count generalizing place slots with
  | zero =>
    exact .given done
  | succ count ih =>
    obtain ⟨copied, read, done⟩ := Option.bind_eq_some_iff.mp done
    obtain ⟨written, writing, done⟩ := Option.bind_eq_some_iff.mp done
    exact (Performs.inner read (Nat.mod_lt place occupied)).bind
      ((Performs.put writing).bind (ih done))

theorem prepare_safe {size : Nat} (occupied : 0 < size) {slots after : Array UInt8}
    (done : BlockStore.prepare size slots = some after) :
    Performs (prepare size slots) after := by
  obtain ⟨mirrored, mirroring, done⟩ := Option.bind_eq_some_iff.mp done
  obtain ⟨last, read, done⟩ := Option.bind_eq_some_iff.mp done
  exact (mirror_safe occupied mirroring).bind
    ((Performs.inner read (Nat.le_refl size)).bind (.put done))

theorem one_le_left (clock : Perturbation) : 1 ≤ left clock := by
  rw [left]
  split
  · exact (Nat.le_succ 1).trans (Perturbation.two_le_steps _ (by simp [Vector.get_eq_getElem]))
  · exact Nat.pos_of_ne_zero ‹_›

theorem perturbFrom_safe {size count place : Nat} (inside : place + count ≤ size)
    {clock : Perturbation} {slots : Array UInt8} {present : ByteSet}
    {result : Array UInt8 × ByteSet}
    (done : BlockStore.perturbFrom count place clock slots present = some result) :
    Performs (perturbFrom size count place clock slots present) result ∧
      result.1.size = slots.size := by
  induction count generalizing place clock slots present with
  | zero =>
    cases done
    exact ⟨.pure _, rfl⟩
  | succ count ih =>
    rcases told : clock.advance with ⟨flip, next⟩
    rw [BlockStore.perturbFrom, told] at done
    rw [perturbFrom, told]
    have counted := Performs.note (.difference (left clock) 1) (one_le_left clock)
    cases flip with
    | true =>
      obtain ⟨flipped, flipping, done⟩ := Option.bind_eq_some_iff.mp done
      obtain ⟨read, found, done⟩ := Option.bind_eq_some_iff.mp done
      obtain ⟨rest, same⟩ := ih (by omega) done
      exact ⟨counted.bind ((Performs.update flipping).bind
        ((Performs.inner found (by omega)).bind rest)), same.trans (Cells.size_update flipping)⟩
    | false =>
      obtain ⟨read, found, done⟩ := Option.bind_eq_some_iff.mp done
      obtain ⟨rest, same⟩ := ih (by omega) done
      exact ⟨counted.bind ((Performs.pure _).bind
        ((Performs.inner found (by omega)).bind rest)), same⟩

theorem origin_safe {order : Array Nat} {size place : Nat}
    (done : (Cells.front order size).bind (·.findIdx? (· = 0)) = some place) :
    Performs (origin order size) place := by
  obtain ⟨places, read, found⟩ := Option.bind_eq_some_iff.mp done
  exact (Performs.front read).bind ⟨found, by simp⟩

end Safe

section Once

variable {n : Nat} [Occupied n] {text : Text n} {slots : Array UInt8}

theorem mirrored_of_cyclic (cyclic : Cyclic text slots) : Mirrored slots n := by
  intro place past near
  have positive : 0 < n := Occupied.positive
  have here := cyclic.bytes (place - 1) (by omega)
  have there := cyclic.bytes ((place - 1) % n) (by have := Nat.mod_lt (place - 1) positive; omega)
  rw [Nat.sub_add_cancel (by omega)] at here
  rw [here, there, Text.byteAt_mod]

theorem cyclic_readable (cyclic : Cyclic text slots) : Cyclic text (readable slots n) := by
  have same (place : Nat) (near : place < n + Block.margin + 1) :
      (readable slots n)[place]? = slots[place]? := by
    rw [readable, Array.getElem?_extract]
    simp [near]
  refine ⟨?_, fun i near => ?_⟩
  · rw [same 0 (by omega), cyclic.last]
  · rw [same (i + 1) (by omega), cyclic.bytes i near]

omit [Occupied n] in
theorem exists_text (wide : n + Block.margin + 1 ≤ slots.size) :
    ∃ (first : UInt8) (text : Text n) (back : List UInt8),
      slots = (first :: text.toList ++ back).toArray ∧ Block.margin ≤ back.length := by
  obtain ⟨listed⟩ := slots
  rw [List.size_toArray] at wide
  cases listed with
  | nil => simp at wide
  | cons first rest =>
    rw [List.length_cons] at wide
    refine ⟨first, ⟨(rest.take n).toArray, by simp; omega⟩, rest.drop n, ?_, ?_⟩
    · simp
    · rw [List.length_drop]
      omega

variable {space : SortSpace} {size : Nat} {budget : Option Nat} {prepared : Array UInt8}
  {ranks : Array Nat} {result : SortSpace × Nat}

/-- One sort of the bytes in a store is safe, with all that precedes it. -/
theorem sortOnce_safe (wide : n + Block.margin + 1 ≤ slots.size) (sized : space.Sized size)
    (fits : n ≤ size) (small : n < SortSpace.mark)
    (preparing : BlockStore.prepare n slots = some prepared)
    (clearing : BlockStore.clearRanks n space.ranks = some ranks)
    (sorting : SortSpace.sortRotations prepared n budget { space with ranks } = some result) :
    Performs (prepare n slots) prepared ∧ Performs (clearRanks n space.ranks) ranks ∧
      Performs (sortRotations prepared n budget { space with ranks }) result ∧
      prepared.size = slots.size ∧ result.1.Sized size := by
  have occupied : 0 < n := Occupied.positive
  obtain ⟨first, text, back, rfl, room⟩ := exists_text wide
  obtain ⟨last, behind, done, same, cyclic⟩ := BlockStore.prepare_spec text first room
  obtain rfl := Option.some.inj (preparing.symm.trans done)
  obtain ⟨zeros, done, extent, zero⟩ := @BlockStore.clearRanks_spec n space.ranks
    (by rw [sized.ranks]; omega)
  obtain rfl := Option.some.inj (clearing.symm.trans done)
  obtain ⟨after, run, -, order, starts, kept⟩ := @SortSpace.sortRotations_spec _ _ text _
    (cyclic_readable cyclic) small budget { space with ranks } (by simpa [sized.order] using fits)
    sized.starts zero
  have safe := sortRotations_safe (mirrored_of_cyclic cyclic) occupied
    (by simp [sized.starts, Rotation.pairCount]) run
  have again := safe.value
  rw [value_sortRotations, sorting] at again
  obtain rfl := Option.some.inj again
  refine ⟨prepare_safe occupied preparing, putAll_safe clearing, safe, ?_, order.trans sized.order,
    starts, (kept.trans extent).trans sized.ranks⟩
  simp [same]

end Once

theorem sort_performs {store : BlockStore} {space : SortSpace} {size : Nat}
    (occupied : store.size ≠ 0) (wide : store.size + Block.margin + 1 ≤ store.slots.size)
    (sized : space.Sized size) (fits : store.size ≤ size) (small : store.size < SortSpace.mark)
    {result : Nat × Option Overrun × BlockStore × SortSpace}
    (done : store.sort space = some result) : Performs (sort store space) result := by
  obtain ⟨slots, count, present, crc, allowed, perturbed⟩ := store
  dsimp only at occupied wide fits small
  have : Occupied count := ⟨Nat.pos_of_ne_zero occupied⟩
  obtain ⟨last, minus, done⟩ := Option.bind_eq_some_iff.mp done
  obtain ⟨prepared, preparing, done⟩ := Option.bind_eq_some_iff.mp done
  obtain ⟨ranks, clearing, done⟩ := Option.bind_eq_some_iff.mp done
  obtain ⟨⟨left, work⟩, sorting, done⟩ := Option.bind_eq_some_iff.mp done
  obtain ⟨one, two, three, extent, kept⟩ :=
    sortOnce_safe wide sized fits small preparing clearing sorting
  refine (Performs.minus minus).bind (one.bind (two.bind (three.bind ?_)))
  dsimp only at done kept ⊢
  refine .ite done (fun _ done => ?_) fun _ done => ?_
  · obtain ⟨⟨flipped, values⟩, flipping, done⟩ := Option.bind_eq_some_iff.mp done
    obtain ⟨ready, preparing, done⟩ := Option.bind_eq_some_iff.mp done
    obtain ⟨ranks, clearing, done⟩ := Option.bind_eq_some_iff.mp done
    obtain ⟨⟨left, work⟩, sorting, done⟩ := Option.bind_eq_some_iff.mp done
    obtain ⟨places, listed, done⟩ := Option.bind_eq_some_iff.mp done
    obtain ⟨place, found, done⟩ := Option.bind_eq_some_iff.mp done
    cases done
    obtain ⟨perturbing, same⟩ := perturbFrom_safe (Nat.zero_add count).le flipping
    dsimp only at same preparing done
    obtain ⟨one, two, three, -, -⟩ := sortOnce_safe (by omega) kept fits small preparing clearing
      sorting
    exact perturbing.bind (one.bind (two.bind (three.bind
      ((origin_safe (Option.bind_eq_some_iff.mpr ⟨_, listed, found⟩)).bind (.pure _)))))
  · obtain ⟨places, listed, done⟩ := Option.bind_eq_some_iff.mp done
    obtain ⟨place, found, done⟩ := Option.bind_eq_some_iff.mp done
    cases done
    exact (origin_safe (Option.bind_eq_some_iff.mpr ⟨_, listed, found⟩)).bind (.pure _)

end Watched

namespace Framer

/-- The sort of a block is safe in whatever state calls leave a framer, on whatever sinks they were
made and whether they succeeded or not. It has a result, and on the way to it no cell outside of an
array is read or written, no difference is negative, no range is sorted by insertion that is too
deep, and every byte that is read past the end of the block stands in the margin there and is the
one of the block at this position modulo its size. This includes the second sort of a block that was
perturbed. Watching a sort never changes it. -/
theorem sort_safe (level : Level) (history : List (Request × Channel)) :
    (∀ store space, (Watched.sort store space).value = store.sort space) ∧
    ∃ framer, visit history (ofLevel level) = some framer ∧ (framer.store.size ≠ 0 → ∃ result,
      framer.store.sort framer.workspace.sorting = some result ∧
      (Watched.sort framer.store framer.workspace.sorting).value = some result ∧
      ∀ access ∈ (Watched.sort framer.store framer.workspace.sorting).accesses, access.Safe) := by
  obtain ⟨framer, series, visited, shows, -⟩ := @visit_spec (fun _ => True) history
    (fun _ _ _ _ _ _ _ => trivial) _ _ (ofLevel_shows level) trivial
  refine ⟨Watched.value_sort, framer, visited, fun occupied => ?_⟩
  have size := shows.store.size
  have extent := shows.store.extent
  have room := shows.store.room
  have allowed := shows.allowed
  have limit := blockSize_le series.level
  obtain ⟨after, left, sorted, -⟩ := shows.sort (by rwa [← size])
  have mark : 900000 < SortSpace.mark := by decide
  have safe := Watched.sort_performs occupied (by simp only [Block.margin] at *; omega)
    shows.workspace.sorting (by simp only [Block.margin] at *; omega)
    (by simp only [Block.margin] at *; omega) sorted
  exact ⟨_, sorted, safe.value, safe.safe⟩

/-- A block of two bytes, so that the margin repeats it ten times. -/
theorem sort_safe_pair :
    ∃ framer, visit [(.run ⟨97, 2⟩, {})] (ofLevel .least) = some framer ∧ framer.store.size = 2 ∧
      ∃ result,
        framer.store.sort framer.workspace.sorting = some result ∧
        (Watched.sort framer.store framer.workspace.sorting).value = some result ∧
        ∀ access ∈ (Watched.sort framer.store framer.workspace.sorting).accesses,
          access.Safe := by
  have added : Press.add ⟨97, 2⟩ ⟨.ofLevel .least, {}⟩ =
      .ok () ⟨(Series.ofLevel .least).append ⟨97, 2⟩, {}⟩ := rfl
  obtain ⟨framer, served, shows⟩ : Reflects (serve (.run ⟨97, 2⟩) (ofLevel .least) {})
      (.ok () ⟨(Series.ofLevel .least).append ⟨97, 2⟩, {}⟩) :=
    added ▸ (ofLevel_shows .least).serve (.run ⟨97, 2⟩) {}
  have two : framer.store.size = 2 := shows.store.size.trans rfl
  obtain ⟨-, other, visited, safe⟩ := sort_safe .least [(.run ⟨97, 2⟩, {})]
  have same := visited
  simp only [visit, served, Option.bind_eq_bind, Option.bind_some, finalState,
    Option.some.injEq] at same
  subst same
  exact ⟨framer, visited, two, safe (by omega)⟩

end Framer

end BlockSort

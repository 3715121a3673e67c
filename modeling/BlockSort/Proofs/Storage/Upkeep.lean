import BlockSort.Proofs.Storage.Rotations

namespace BlockSort

/-- A sort flips the bytes of the perturbation if it says so, and no others. -/
theorem Block.sort_flips {block : Block} (raw : block.perturbed = false) :
    block.sort.block.bytes.toList = block.bytes.toList.mapIdx fun place byte =>
      byte ^^^ if block.sort.block.perturbed ∧ Perturbation.flipAt place then 1 else 0 := by
  rcases block.sort_bytes with ⟨kept, bytes⟩ | ⟨perturbed, bytes⟩
  · rw [kept, raw, bytes, eq_comm, List.mapIdx_eq_iff]
    simp
  · rw [perturbed, bytes]
    simp

namespace BlockStore

/-- A call on a block's storage. -/
inductive Request where
  | offer (run : Run)
  | clear
  | sort (space : SortSpace)

/-- A store with the runs that it has accepted since it was last cleared. -/
structure Course where
  store : BlockStore
  accepted : List Run := []
  /-- Whether the store was sorted since it was last cleared. -/
  sorted : Bool := false

namespace Course

/-- What a call does. It fails if it reads or writes where the arrays do not reach. -/
def serve (course : Course) : Request → Option Course
  | .offer run => do
    let (taken, store) ← course.store.offer run
    return { course with
      store, accepted := if taken then course.accepted ++ [run] else course.accepted }
  | .clear => some { store := course.store.cleared }
  | .sort space => do
    let (_, _, store, _) ← course.store.sort space
    return { course with store, sorted := true }

/-- Whether a call may be made: runs are not empty, only a store that holds something is sorted, in
a space for blocks of its size, and after a sort the store is cleared first. -/
def Allows (size : Nat) (course : Course) : Request → Prop
  | .offer run => course.sorted = false ∧ 0 < run.length
  | .clear => True
  | .sort space =>
    course.sorted = false ∧ course.store.size ≠ 0 ∧ size ≤ 900000 ∧ space.Sized size

/-- Whether calls may be made one after the other. -/
def Orderly (size : Nat) : Course → List Request → Prop
  | _, [] => True
  | course, request :: rest => course.Allows size request ∧
    ∀ next, course.serve request = some next → next.Orderly size rest

/-- Each part of a store is what the accepted runs make of it. -/
structure Represents (size : Nat) (course : Course) : Prop where
  length : course.store.bytes.length = course.store.size
  bytes : course.store.bytes = (course.accepted.flatMap Run.encode).mapIdx fun place byte =>
    byte ^^^ if course.store.perturbed ∧ Perturbation.flipAt place then 1 else 0
  present : ∀ byte, course.store.present.contains byte = true ↔ byte ∈ course.store.bytes
  crc : course.store.crc.value.toNat = Decoder.crc (course.accepted.flatMap Run.expand)
  fits : course.store.size ≤ size - 15

/-- A store shows the block of the accepted runs, or what a sort has made of it. -/
structure Tracks (size : Nat) (course : Course) (block : Block) : Prop where
  large : Block.margin ≤ size
  allowed : block.allowed = size - Block.margin
  holds : block.Holds course.accepted
  shows : course.store.Shows (if course.sorted then block.sort.block else block)
  occupied : course.sorted = true → block.bytes.size ≠ 0

variable {size : Nat} {course : Course} {block : Block}

theorem Tracks.ofSize (large : Block.margin ≤ size) :
    Tracks size { store := .ofSize size } (.ofSize size) :=
  ⟨large, rfl, Block.holds_nil _, ofSize_shows large, by simp⟩

namespace Tracks

/-- What a store shows keeps the checksum and the limit of the runs' block, and knows the values in
use; its bytes are those of the runs, but for flips. -/
theorem shown (tracks : Tracks size course block) :
    let shown := if course.sorted then block.sort.block else block
    shown.allowed = block.allowed ∧ shown.crc = block.crc ∧
      (∀ byte, shown.present.contains byte = true ↔ byte ∈ shown.bytes) ∧
      shown.bytes.toList = block.bytes.toList.mapIdx fun place byte =>
        byte ^^^ if shown.perturbed ∧ Perturbation.flipAt place then 1 else 0 := by
  have raw := tracks.holds.raw
  cases sorted : course.sorted with
  | false =>
    refine ⟨rfl, rfl, tracks.holds.present, ?_⟩
    rw [eq_comm, List.mapIdx_eq_iff]
    simp [raw]
  | true =>
    have occupied : block.isEmpty = false := by
      simpa [Block.isEmpty] using tracks.occupied sorted
    exact ⟨block.sort_allowed, block.sort_crc, (Block.sort_sorts tracks.holds occupied).present,
      Block.sort_flips raw⟩

theorem offer (tracks : Tracks size course block) (fresh : course.sorted = false) {run : Run}
    (positive : 0 < run.length) :
    ∃ next, course.serve (.offer run) = some next ∧
      Tracks size next (if block.isFull then block else block.append run) := by
  have shows := tracks.shows
  rw [fresh, if_neg Bool.false_ne_true] at shows
  obtain ⟨after, offered, shows⟩ := shows.offer run
  refine ⟨_, by rw [serve, offered]; rfl, ?_⟩
  by_cases full : block.isFull
  · simp only [full, if_true, Bool.not_true, Bool.false_eq_true, if_false] at shows ⊢
    exact ⟨tracks.large, tracks.allowed, tracks.holds, by simpa [fresh] using shows,
      by simp [fresh]⟩
  · simp only [full, if_false, Bool.not_false, if_true, Bool.false_eq_true] at shows ⊢
    exact ⟨tracks.large, tracks.allowed, tracks.holds.append positive, by simpa [fresh] using shows,
      by simp [fresh]⟩

theorem clear (tracks : Tracks size course block) :
    ∃ next, course.serve .clear = some next ∧ Tracks size next (.ofSize size) := by
  have shows := tracks.shows.cleared
  rw [Block.cleared, tracks.shown.1, tracks.allowed] at shows
  exact ⟨_, rfl, tracks.large, rfl, Block.holds_nil _, shows, by simp⟩

theorem sort (tracks : Tracks size course block) (fresh : course.sorted = false)
    (occupied : course.store.size ≠ 0) (small : size ≤ 900000) {space : SortSpace}
    (sized : space.Sized size) :
    ∃ next, course.serve (.sort space) = some next ∧ Tracks size next block := by
  have shows := tracks.shows
  rw [fresh, if_neg Bool.false_ne_true] at shows
  rw [shows.size] at occupied
  have whole : block.allowed + Block.margin = size := by
    rw [tracks.allowed, Nat.sub_add_cancel tracks.large]
  have bound : block.allowed + 5 < SortSpace.mark := by
    have mark : SortSpace.mark = 2097152 := by decide
    omega
  obtain ⟨after, left, run, result, -⟩ := shows.sort occupied sized whole bound
  refine ⟨{ course with store := after, sorted := true }, ?_, tracks.large, tracks.allowed,
    tracks.holds, result.shows, fun _ => occupied⟩
  rw [serve, run]
  rfl

theorem serve (tracks : Tracks size course block) {request : Request}
    (allows : course.Allows size request) :
    ∃ next after, course.serve request = some next ∧ Tracks size next after := by
  cases request with
  | offer run =>
    obtain ⟨next, served, kept⟩ := tracks.offer allows.1 allows.2
    exact ⟨next, _, served, kept⟩
  | clear =>
    obtain ⟨next, served, kept⟩ := tracks.clear
    exact ⟨next, _, served, kept⟩
  | sort space =>
    obtain ⟨fresh, occupied, small, sized⟩ := allows
    obtain ⟨next, served, kept⟩ := tracks.sort fresh occupied small sized
    exact ⟨next, _, served, kept⟩

theorem serveAll (tracks : Tracks size course block) {requests : List Request}
    (orderly : course.Orderly size requests) :
    ∃ after last, requests.foldlM Course.serve course = some after ∧ Tracks size after last := by
  induction requests generalizing course block with
  | nil => exact ⟨course, block, rfl, tracks⟩
  | cons request rest ih =>
    obtain ⟨next, between, served, kept⟩ := tracks.serve orderly.1
    obtain ⟨after, last, run, result⟩ := ih kept (orderly.2 next served)
    refine ⟨after, last, ?_, result⟩
    rw [List.foldlM_cons, served]
    exact run

theorem represents (tracks : Tracks size course block) : Represents size course := by
  obtain ⟨allowed, crc, present, flips⟩ := tracks.shown
  have large := tracks.large
  have shows := tracks.shows
  rw [Block.margin] at large
  refine ⟨?_, ?_, ?_, ?_, ?_⟩
  · rw [shows.bytes, shows.size, Array.length_toList]
  · rw [shows.bytes, shows.perturbed, flips, tracks.holds.bytes]
  · rw [shows.bytes, shows.present]
    simpa using present
  · rw [shows.crc, crc, tracks.holds.crc, Decoder.crc_eq, Crc.ofBytes]
  · have room := shows.room
    rw [← shows.size, allowed, tracks.allowed, Block.margin] at room
    omega

end Tracks

end Course

/-- A store takes or refuses any run, and refuses it exactly if it holds more than it is allowed
to. -/
theorem Shows.offer_refused {store : BlockStore} {block : Block} (shows : store.Shows block)
    (run : Run) :
    ∃ taken after, store.offer run = some (taken, after) ∧
      (taken = false ↔ store.allowed < store.size) ∧ (taken = false → after = store) := by
  by_cases full : store.allowed < store.size
  · exact ⟨false, store, if_pos full, by simp [full], fun _ => rfl⟩
  · obtain ⟨after, offered, -⟩ := shows.offer run
    have room : block.isFull = false := by
      rw [shows.allowed, shows.size] at full
      exact decide_eq_false full
    rw [room] at offered
    exact ⟨true, after, offered, by simp [full], by simp⟩

open Course in
/-- Whatever runs a block's storage is offered, and however often it is sorted and cleared, no call
fails, and its bytes, the values in use and the checksum are those of the runs that it has accepted
since it was last cleared. Only a perturbation flips bytes, and the storage then knows it. A run is
refused exactly if there is not enough room left, and then nothing is changed. -/
theorem serveAll_represents {size : Nat} (large : 20 ≤ size) {requests : List Request}
    (orderly : Orderly size { store := .ofSize size } requests) :
    ∃ after, requests.foldlM serve { store := .ofSize size } = some after ∧
      Represents size after ∧
      ∀ run, ∃ taken store, after.store.offer run = some (taken, store) ∧
        (taken = false ↔ size - 20 < after.store.size) ∧
        (taken = false → store = after.store) := by
  obtain ⟨after, last, served, tracks⟩ := (Tracks.ofSize large).serveAll orderly
  refine ⟨after, served, tracks.represents, fun run => ?_⟩
  have refused := tracks.shows.offer_refused run
  rwa [tracks.shows.allowed, tracks.shown.1, tracks.allowed] at refused

/-- A block with room for one run only, that refuses the next one, is sorted and is cleared. -/
theorem serveAll_represents_full :
    let requests : List Request := [.offer ⟨97, 9⟩, .offer ⟨98, 1⟩,
      .sort (Workspace.ofSize 20).sorting, .clear, .offer ⟨98, 1⟩]
    Course.Orderly 20 { store := .ofSize 20 } requests ∧
    ∃ after, requests.foldlM Course.serve { store := .ofSize 20 } = some after ∧
      after.Represents 20 ∧
      ∀ run, ∃ taken store, after.store.offer run = some (taken, store) ∧
        (taken = false ↔ 20 - 20 < after.store.size) ∧
        (taken = false → store = after.store) := by
  intro requests
  have orderly : Course.Orderly 20 { store := .ofSize 20 } requests := by
    have one : (Course.serve { store := .ofSize 20 } (.offer ⟨97, 9⟩)).map (·.sorted) =
        some false := by decide +kernel
    have two : ((Course.serve { store := .ofSize 20 } (.offer ⟨97, 9⟩)).bind
        (·.serve (.offer ⟨98, 1⟩))).map (fun course => (course.sorted, course.store.size)) =
          some (false, 5) := by decide +kernel
    refine ⟨⟨rfl, by decide⟩, fun first offered => ?_⟩
    rw [offered] at one two
    refine ⟨⟨Option.some.inj one, by decide⟩, fun second refused => ?_⟩
    rw [Option.bind_some, refused, Option.map_some, Option.some.injEq, Prod.mk.injEq] at two
    refine ⟨⟨two.1, by simp [two.2], by decide, (Workspace.ofSize_sized 20).sorting⟩,
      fun third sorted => ⟨trivial, fun fourth cleared => ?_⟩⟩
    rw [← Option.some.inj cleared]
    exact ⟨⟨rfl, by decide⟩, fun _ _ => trivial⟩
  exact ⟨orderly, serveAll_represents (by decide) orderly⟩

end BlockStore

end BlockSort

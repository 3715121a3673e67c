import BlockSort.Proofs.Blocks

namespace BlockSort.Run

/-- The bytes that runs take up in a block. -/
def room (runs : List Run) : Nat := (runs.flatMap encode).length

theorem room_append_le (runs : List Run) (run : Run) : room (runs ++ [run]) ≤ room runs + 5 := by
  have bound := run.length_encode_le
  rw [room, List.flatMap_append, List.length_append, List.flatMap_singleton]
  exact Nat.add_le_add_left bound _

/-- The groups in which runs enter blocks of an allowed size, the first of which holds the current
runs already. -/
def groups (allowed : Nat) : (current : List Run) → List Run → List (List Run)
  | current, [] => if current = [] then [] else [current]
  | current, run :: rest =>
    if allowed < room current then current :: groups allowed [run] rest
    else groups allowed (current ++ [run]) rest

/-- Runs in groups, of which each fits into a block and each but the last fills it. -/
structure Grouping (allowed : Nat) (runs : List Run) (groups : List (List Run)) : Prop where
  /-- Every run is in one group, and all are in order. -/
  whole : groups.flatten = runs
  occupied : ∀ group ∈ groups, group ≠ []
  bounded : ∀ group ∈ groups, room group ≤ allowed + 5
  filled : ∀ group ∈ groups.dropLast, allowed < room group

variable {allowed : Nat} {current runs : List Run} {groups : List (List Run)}

theorem Grouping.nil : Grouping allowed [] [] := ⟨rfl, by simp, by simp, by simp⟩

theorem Grouping.one (occupied : runs ≠ []) (bounded : room runs ≤ allowed + 5) :
    Grouping allowed runs [runs] :=
  ⟨List.flatten_singleton, by simpa using occupied, by simpa using bounded, by simp⟩

theorem Grouping.cons (full : allowed < room current) (bounded : room current ≤ allowed + 5)
    (others : Grouping allowed runs groups) :
    Grouping allowed (current ++ runs) (current :: groups) := by
  have occupied : current ≠ [] := by
    rintro rfl
    exact absurd full (Nat.not_lt_zero _)
  refine ⟨by rw [List.flatten_cons, others.whole],
    List.forall_mem_cons.mpr ⟨occupied, others.occupied⟩,
    List.forall_mem_cons.mpr ⟨bounded, others.bounded⟩, fun group member => ?_⟩
  cases groups with
  | nil => simp at member
  | cons next rest =>
    rcases List.mem_cons.mp member with rfl | later
    · exact full
    · exact others.filled group later

theorem grouping (allowed : Nat) (runs : List Run) (bounded : room current ≤ allowed + 5) :
    Grouping allowed (current ++ runs) (Run.groups allowed current runs) := by
  induction runs generalizing current with
  | nil =>
    rw [Run.groups, List.append_nil]
    split
    · rename_i empty
      exact empty ▸ .nil
    · rename_i occupied
      exact .one occupied bounded
  | cons run rest ih =>
    have alone : room [run] ≤ allowed + 5 := (room_append_le [] run).trans (by simp [room])
    rw [Run.groups]
    split
    · rename_i full
      exact (ih alone).cons full bounded
    · rename_i short
      have next := ih ((room_append_le current run).trans (by omega))
      rwa [List.append_assoc, List.singleton_append] at next

end BlockSort.Run

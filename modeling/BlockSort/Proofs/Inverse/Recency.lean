import BlockSort.Proofs.Decoder
import BlockSort.SymbolStream

namespace BlockSort

namespace Recency

variable {α : Type} [BEq α] {recent items : List α}

private theorem foldl_ranks (recent items : List α) (earlier : List Nat) :
    let pass := fun (state : List α × List Nat) item =>
      (touch state.1 item, state.1.idxOf item :: state.2)
    (items.foldl pass (recent, earlier)).2 = (items.foldl pass (recent, [])).2 ++ earlier := by
  induction items generalizing recent earlier with
  | nil => rfl
  | cons item rest ih =>
    simp only [List.foldl_cons] at ih ⊢
    rw [ih, ih _ [_], List.append_assoc, List.singleton_append]

@[simp]
theorem ranks_nil (recent : List α) : ranks recent [] = [] := rfl

theorem ranks_cons (recent : List α) (item : α) (rest : List α) :
    ranks recent (item :: rest) = recent.idxOf item :: ranks (touch recent item) rest := by
  refine (congrArg List.reverse (foldl_ranks (touch recent item) rest _)).trans ?_
  rw [List.reverse_append, List.reverse_singleton, List.singleton_append]
  rfl

@[simp]
theorem length_ranks (recent items : List α) : (ranks recent items).length = items.length := by
  induction items generalizing recent with
  | nil => rfl
  | cons item rest ih => simp [ranks_cons, ih]

variable [LawfulBEq α]

theorem mem_touch {item other : α} (known : item ∈ recent) : item ∈ touch recent other := by
  by_cases same : item = other
  · subst same
    exact List.mem_cons_self
  · exact List.mem_cons_of_mem _ ((List.mem_erase_of_ne same).mpr known)

theorem length_touch {item : α} (known : item ∈ recent) :
    (touch recent item).length = recent.length := by
  rw [touch, List.length_cons, List.length_erase_of_mem known]
  exact Nat.sub_add_cancel (List.length_pos_of_mem known)

theorem ranks_lt (known : ∀ item ∈ items, item ∈ recent) :
    ∀ rank ∈ ranks recent items, rank < recent.length := by
  induction items generalizing recent with
  | nil => simp
  | cons item rest ih =>
    have present := known item List.mem_cons_self
    rw [ranks_cons]
    intro rank member
    rcases List.mem_cons.mp member with rfl | later
    · exact List.idxOf_lt_length_of_mem present
    · rw [← length_touch present]
      exact ih (fun other inside => mem_touch (known other (List.mem_cons_of_mem _ inside))) rank
        later

end Recency

/-- The items are read back from their places, provided that all are in the list. -/
theorem Decoder.undoRecency_ranks {α : Type} [BEq α] [LawfulBEq α] {recent items : List α}
    (known : ∀ item ∈ items, item ∈ recent) :
    undoRecency recent (Recency.ranks recent items) = some items := by
  induction items generalizing recent with
  | nil => rfl
  | cons item rest ih =>
    have present := known item List.mem_cons_self
    have later : ∀ other ∈ rest, other ∈ Recency.touch recent item := fun other inside =>
      Recency.mem_touch (known other (List.mem_cons_of_mem _ inside))
    rw [Recency.ranks_cons, undoRecency]
    have found : recent[recent.idxOf item]? = some item := by
      rw [List.getElem?_eq_getElem (List.idxOf_lt_length_of_mem present), List.getElem_idxOf]
    have moved : item :: recent.eraseIdx (recent.idxOf item) = Recency.touch recent item := by
      rw [Recency.touch, List.erase_eq_eraseIdx_of_idxOf rfl]
    simp only [found]
    rw [moved, ih later, Option.map_some]

end BlockSort

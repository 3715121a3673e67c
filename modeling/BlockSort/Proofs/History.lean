import BlockSort.Proofs.Inverse.Member
import BlockSort.Proofs.Requests

namespace BlockSort

open Encoder (Request)

structure History where
  /-- The bytes of each complete member. -/
  members : List (List UInt8) := []
  /-- The bytes since then. -/
  current : List UInt8 := []

namespace History

def write (history : History) (bytes : List UInt8) : History :=
  { history with current := history.current ++ bytes }

/-- Completes a member for the current bytes. -/
def complete (history : History) : History := { members := history.members ++ [history.current] }

/-- Completes a member, unless there is nothing to put into it and it would not be the first. -/
def finish (history : History) : History :=
  if history.current.isEmpty && !history.members.isEmpty then history else history.complete

/-- Completes a member if there is anything to put into it. -/
def reset (history : History) : History :=
  if history.current.isEmpty then history else history.complete

def step (history : History) : Request → History
  | .write bytes | .sinkWrite bytes => history.write bytes
  | .writeByte byte => history.write [byte]
  | .sinkFlush => history
  | .finish => history.finish
  | .reset => history.reset

/-- The history after calls in order. -/
def after (requests : List Request) (history : History) : History := requests.foldl step history

theorem current_finish (history : History) : history.finish.current = [] := by
  rw [finish]
  split
  · rename_i idle
    simp only [Bool.and_eq_true, List.isEmpty_iff] at idle
    exact idle.1
  · rfl

theorem members_finish (history : History) : history.finish.members ≠ [] := by
  rw [finish]
  split
  · rename_i idle
    simp only [Bool.and_eq_true, Bool.not_eq_true', List.isEmpty_eq_false_iff] at idle
    exact idle.2
  · simp [complete]

/-- Once all members are complete, finishing changes nothing. -/
theorem finish_settled {history : History}
    (settled : history.current = [] ∧ history.members ≠ []) : history.finish = history := by
  rw [finish]
  exact if_pos (by simp [settled.1, settled.2])

end History

namespace Draft

/-- The bits of a complete member. -/
def memberBits (level : Level) (bytes : List UInt8) : List Bool :=
  Action.extend (fieldBits (memberFields level bytes)) .finish

/-- The bits that are written of a member that takes the given bytes. It has none before the
first byte. -/
def draftBits (level : Level) (bytes : List UInt8) : List Bool :=
  if bytes.isEmpty then []
  else fieldBits (Outline.headerFields level ++ (ofLevel level).pushFields bytes)

end Draft

namespace History

/-- All bits that are written for a history. -/
def bits (level : Level) (history : History) : List Bool :=
  history.members.flatMap (Draft.memberBits level) ++ Draft.draftBits level history.current

end History

/-- A stream of whole bytes is padded by the same bits, wherever it begins. -/
theorem Action.extend_finish_append {whole bits : List Bool} (aligned : whole.length % 8 = 0) :
    extend (whole ++ bits) .finish = whole ++ extend bits .finish := by
  rw [extend, extend, List.length_append, List.append_assoc]
  congr 4
  omega

theorem Action.length_extend_finish (bits : List Bool) : (extend bits .finish).length % 8 = 0 := by
  rw [extend, List.length_append, List.length_replicate]
  omega

theorem Action.extend_finish_of_aligned {bits : List Bool} (aligned : bits.length % 8 = 0) :
    extend bits .finish = bits := by
  rw [extend, aligned]
  simp

theorem History.aligned_members (level : Level) (members : List (List UInt8)) :
    (members.flatMap (Draft.memberBits level)).length % 8 = 0 := by
  induction members with
  | nil => rfl
  | cons segment rest ih =>
    have first := Action.length_extend_finish (fieldBits (Draft.memberFields level segment))
    rw [List.flatMap_cons, List.length_append, Draft.memberBits]
    omega

/-- The outline of an encoder that no fault has stopped agrees with the history of its calls. -/
structure Outline.Tracks (level : Level) (history : History) (outline : Outline) : Prop where
  setting : outline.level = level
  phase : match outline.phase with
    | .opened series runs =>
      history.current ≠ [] ∧ ⟨series, runs⟩ = (Draft.ofLevel level).push history.current
    | .fresh => history.current = []
    | .closed => history.current = [] ∧ history.members ≠ []
    | .broken => False
  count : outline.totals.members = 0 ↔ history.members = [] ∧ history.current = []

namespace Outline.Tracks

variable {level : Level} {history : History} {outline : Outline}

theorem fresh (level : Level) : Tracks level {} ⟨level, .fresh, {}⟩ := ⟨rfl, rfl, by simp⟩

/-- The draft is made of the current bytes, whether its member was begun or not. -/
theorem draft (tracks : outline.Tracks level history) :
    outline.draft = (Draft.ofLevel level).push history.current := by
  obtain ⟨setting, phase, _⟩ := tracks
  rw [Outline.draft]
  cases shape : outline.phase with
  | opened series runs =>
    rw [shape] at phase
    exact phase.2
  | fresh =>
    rw [shape] at phase
    simp only [setting, phase]
    rfl
  | closed =>
    rw [shape] at phase
    simp only [setting, phase.1]
    rfl
  | broken =>
    rw [shape] at phase
    exact phase.elim

theorem isOpen (tracks : outline.Tracks level history) :
    outline.isOpen = !history.current.isEmpty := by
  obtain ⟨_, phase, _⟩ := tracks
  rw [Outline.isOpen]
  cases shape : outline.phase with
  | opened series runs =>
    rw [shape] at phase
    simp [phase.1]
  | fresh =>
    rw [shape] at phase
    have empty : history.current = [] := phase
    simp [empty]
  | closed =>
    rw [shape] at phase
    simp [phase.1]
  | broken =>
    rw [shape] at phase
    exact phase.elim

theorem beginFields (tracks : outline.Tracks level history) :
    outline.beginFields =
      if history.current.isEmpty then Outline.headerFields level else [] := by
  have isOpen := tracks.isOpen
  rw [Outline.isOpen] at isOpen
  rw [Outline.beginFields, tracks.setting]
  cases shape : outline.phase <;> simp_all

theorem begins (tracks : outline.Tracks level history) :
    Draft.draftBits level history.current ++ fieldBits outline.beginFields =
      fieldBits (Outline.headerFields level ++
        (Draft.ofLevel level).pushFields history.current) := by
  rw [tracks.beginFields, Draft.draftBits]
  cases empty : history.current.isEmpty with
  | true =>
    rw [List.isEmpty_iff.mp empty, if_pos rfl, if_pos rfl]
    simp [Draft.pushFields, RunBuilder.pushAll_nil, Series.takeAllFields]
  | false => simp

theorem mustEnd (tracks : outline.Tracks level history) :
    outline.mustEnd = !(history.current.isEmpty && !history.members.isEmpty) := by
  obtain ⟨_, phase, count⟩ := tracks
  rw [Outline.mustEnd]
  cases shape : outline.phase with
  | opened series runs =>
    rw [shape] at phase
    simp [phase.1]
  | fresh =>
    rw [shape] at phase
    have empty : history.current = [] := phase
    cases held : history.members <;> simp_all
  | closed =>
    rw [shape] at phase
    simp [phase.1, phase.2]
  | broken =>
    rw [shape] at phase
    exact phase.elim

theorem begun (tracks : outline.Tracks level history) :
    outline.begun.level = level ∧ outline.begun.totals.members ≠ 0 := by
  obtain ⟨setting, phase, count⟩ := tracks
  rw [Outline.begun]
  cases shape : outline.phase with
  | opened series runs =>
    rw [shape] at phase
    exact ⟨setting, fun idle => phase.1 (count.mp idle).2⟩
  | fresh => exact ⟨setting, Nat.succ_ne_zero _⟩
  | closed => exact ⟨setting, Nat.succ_ne_zero _⟩
  | broken => exact ⟨setting, Nat.succ_ne_zero _⟩

theorem write (tracks : outline.Tracks level history) (bytes : List UInt8) :
    (outline.write bytes).Tracks level (history.write bytes) := by
  rw [Outline.write, History.write]
  cases empty : bytes.isEmpty with
  | true =>
    rw [if_pos rfl, List.isEmpty_iff.mp empty, List.append_nil]
    exact tracks
  | false =>
    have nonempty : bytes ≠ [] := by simpa using empty
    rw [if_neg (by simp)]
    refine ⟨tracks.begun.1, ⟨by simp [nonempty], ?_⟩, iff_of_false tracks.begun.2 (by simp [nonempty])⟩
    rw [tracks.draft, ← Draft.push_append]

theorem ended (tracks : outline.Tracks level history) :
    outline.ended.Tracks level history.complete := by
  rw [Outline.ended, History.complete]
  exact ⟨tracks.begun.1, ⟨rfl, by simp⟩, iff_of_false tracks.begun.2 (by simp)⟩

theorem finish (tracks : outline.Tracks level history) :
    outline.finish.Tracks level history.finish := by
  rw [Outline.finish, tracks.mustEnd, History.finish]
  cases idle : history.current.isEmpty && !history.members.isEmpty with
  | false =>
    simp only [Bool.not_false, Bool.false_eq_true, if_true, if_false]
    exact tracks.ended
  | true =>
    simp only [Bool.not_true, Bool.false_eq_true, if_true, if_false]
    obtain ⟨setting, phase, count⟩ := tracks
    cases shape : outline.phase with
    | fresh =>
      rw [shape] at phase
      have begun : history.members ≠ [] := by
        rintro vacant
        simp [vacant] at idle
      exact ⟨setting, ⟨phase, begun⟩, count⟩
    | opened series runs => exact ⟨setting, phase, count⟩
    | closed => exact ⟨setting, phase, count⟩
    | broken => exact ⟨setting, phase, count⟩

/-- Between members the next one may begin at any time. -/
theorem renewed (tracks : outline.Tracks level history) (empty : history.current = []) :
    Tracks level history { outline with phase := .fresh } :=
  ⟨tracks.setting, empty, tracks.count⟩

theorem reset (tracks : outline.Tracks level history) :
    outline.reset.Tracks level history.reset := by
  rw [Outline.reset, tracks.isOpen, History.reset]
  cases empty : history.current.isEmpty with
  | false =>
    simp only [Bool.not_false, Bool.false_eq_true, if_true, if_false]
    exact tracks.ended.renewed rfl
  | true =>
    simp only [Bool.not_true, Bool.false_eq_true, if_true, if_false]
    exact tracks.renewed (List.isEmpty_iff.mp empty)

/-- The outline after a call agrees with the history after it. -/
theorem step (tracks : outline.Tracks level history) (request : Request) :
    (request.next outline).Tracks level (history.step request) := by
  cases request with
  | write bytes => exact tracks.write bytes
  | writeByte byte => exact tracks.write [byte]
  | sinkWrite bytes => exact tracks.write bytes
  | sinkFlush => exact tracks
  | finish => exact tracks.finish
  | reset => exact tracks.reset

end Outline.Tracks

end BlockSort

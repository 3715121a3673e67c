import BlockSort.Compressor.Script
import BlockSort.Proofs.Delivery

/-!
What driving a compressor comes to, whatever compressor it is. Its calls are kept with their
answers; each is given what the calls before it have left of the input, and the first call that is
done or fails is the last.
-/
namespace BlockSort.Compressor

open StreamCompressor (producedBy isDone)

/-- A call of a driven compressor, and its answer. -/
structure Turn where
  input : List UInt8
  room : Nat
  demand : Demand
  answer : Except Fault Delivery

namespace Turn

/-- How much of its input a call takes. -/
def consumed (turn : Turn) : Nat :=
  match turn.answer with
  | .ok delivery => delivery.consumed
  | .error _ => 0

def produced (turn : Turn) : List UInt8 := producedBy turn.answer

/-- Whether a call tells that there is more to come. -/
def GoesOn (turn : Turn) : Prop :=
  ∃ delivery, turn.answer = .ok delivery ∧ delivery.status ≠ .done

end Turn

variable {σ : Type}

/-- A compressor never takes more than it is given, nor does it produce more than there is room
for. -/
def Modest (compressor : Compressor σ) : Prop :=
  ∀ input room demand state delivery after,
    compressor input room demand state = .ok delivery after →
    delivery.consumed ≤ input.length ∧ delivery.produced.length ≤ room

/-- A compressor that keeps its calls with their answers. -/
def recorded (compressor : Compressor σ) : Compressor (σ × List Turn) :=
  fun input room demand (state, turns) =>
    match compressor input room demand state with
    | .ok delivery after => .ok delivery (after, turns ++ [⟨input, room, demand, .ok delivery⟩])
    | .error fault after => .error fault (after, turns ++ [⟨input, room, demand, .error fault⟩])

/-- A result together with the calls that led to it. -/
def keep {α : Type} (turns : List Turn) :
    EStateM.Result Fault σ α → EStateM.Result Fault (σ × List Turn) α
  | .ok value state => .ok value (state, turns)
  | .error fault state => .error fault (state, turns)

/-- What the calls are given: the input from where the calls before have left it, and a demand to
finish once there is none. -/
structure Driven (input : List UInt8) (turns : List Turn) : Prop where
  given : ∀ place turn, turns[place]? = some turn →
    turn.input = input.drop ((turns.take place).map Turn.consumed).sum
  within : (turns.map Turn.consumed).sum ≤ input.length
  room : ∀ turn ∈ turns, turn.room = 32768
  demand : ∀ turn ∈ turns, turn.demand = if turn.input = [] then .finish else .none
  demands : ∃ early late,
    turns.map Turn.demand = List.replicate early .none ++ List.replicate late .finish

/-- How calls end: with the first that is done, with the first that fails, or not yet. -/
def Ends (calls : Nat) (turns : List Turn) :
    EStateM.Result Fault σ (Option (List UInt8)) → Prop
  | .ok (some output) _ => output = turns.flatMap Turn.produced ∧
    ∃ earlier last, turns = earlier ++ [last] ∧ (∀ turn ∈ earlier, turn.GoesOn) ∧
      isDone last.answer = true
  | .ok none _ => turns.length = calls ∧ ∀ turn ∈ turns, turn.GoesOn
  | .error fault _ => ∃ earlier last, turns = earlier ++ [last] ∧
      (∀ turn ∈ earlier, turn.GoesOn) ∧ last.answer = .error fault

/-- Whether calls have come to an end. -/
def Ended : EStateM.Result Fault σ (Option (List UInt8)) → Prop
  | .ok none _ => False
  | _ => True

variable {compressor : Compressor σ} {calls : Nat} {input : List UInt8} {state : σ}

/-- A result with the output of an earlier call before its own. -/
def prepend (bytes : List UInt8) :
    EStateM.Result Fault σ (Option (List UInt8)) → EStateM.Result Fault σ (Option (List UInt8))
  | .ok output state => .ok (output.map (bytes ++ ·)) state
  | .error fault state => .error fault state

theorem driveAfter_output (compressor : Compressor σ) (calls : Nat) (input output : List UInt8)
    (state : σ) : compressor.driveAfter calls input output state =
      prepend output.reverse (compressor.drive calls input state) := by
  rw [drive]
  induction calls generalizing input output state with
  | zero => rfl
  | succ calls ih =>
    rw [driveAfter, driveAfter]
    cases compressor input driveRoom (if input.isEmpty then .finish else .none) state with
    | error fault after => rfl
    | ok delivery after =>
      simp only
      split
      · simp [prepend]
      · rw [ih _ (delivery.produced.reverseAux output), ih _ (delivery.produced.reverseAux [])]
        cases compressor.driveAfter calls (input.drop delivery.consumed) [] after with
        | error fault last => rfl
        | ok rest last => cases rest <;> simp [prepend]

theorem drive_succ (compressor : Compressor σ) (calls : Nat) (input : List UInt8) (state : σ) :
    compressor.drive (calls + 1) input state =
      match compressor input driveRoom (if input.isEmpty then .finish else .none) state with
      | .ok delivery after =>
        if delivery.status = .done then .ok (some delivery.produced) after
        else prepend delivery.produced
          (compressor.drive calls (input.drop delivery.consumed) after)
      | .error fault after => .error fault after := by
  rw [drive, driveAfter]
  cases compressor input driveRoom (if input.isEmpty then .finish else .none) state with
  | error fault after => rfl
  | ok delivery after =>
    simp only [driveAfter_output, List.reverseAux_eq, List.append_nil, List.reverse_reverse]

variable {delivery : Delivery} {after : σ}

theorem drive_of_done (answered : compressor input driveRoom
      (if input.isEmpty then .finish else .none) state = .ok delivery after)
    (done : delivery.status = .done) :
    compressor.drive (calls + 1) input state = .ok (some delivery.produced) after := by
  rw [drive_succ, answered]
  exact if_pos done

/-- After a call that is not done, the others go on with the rest of the input. -/
theorem drive_of_undone (answered : compressor input driveRoom
      (if input.isEmpty then .finish else .none) state = .ok delivery after)
    (undone : delivery.status ≠ .done) :
    compressor.drive (calls + 1) input state = prepend delivery.produced
      (compressor.drive calls (input.drop delivery.consumed) after) := by
  rw [drive_succ, answered]
  exact if_neg undone

theorem drive_of_error {fault : Fault} (failed : compressor input driveRoom
      (if input.isEmpty then .finish else .none) state = .error fault after) :
    compressor.drive (calls + 1) input state = .error fault after := by
  rw [drive_succ, failed]

theorem ended_prepend {bytes : List UInt8}
    {result : EStateM.Result Fault σ (Option (List UInt8))} :
    Ended (prepend bytes result) ↔ Ended result := by
  match result with
  | .error _ _ | .ok none _ | .ok (some _) _ => rfl

/-- Once calls have come to an end, more of them make no difference. -/
theorem drive_add (ended : Ended (compressor.drive calls input state)) (more : Nat) :
    compressor.drive (calls + more) input state = compressor.drive calls input state := by
  induction calls generalizing input state with
  | zero => exact absurd ended id
  | succ calls ih =>
    rw [Nat.add_right_comm]
    cases answered :
        compressor input driveRoom (if input.isEmpty then .finish else .none) state with
    | error fault after => rw [drive_of_error answered, drive_of_error answered]
    | ok delivery after =>
      by_cases done : delivery.status = .done
      · rw [drive_of_done answered done, drive_of_done answered done]
      · rw [drive_of_undone answered done] at ended
        rw [drive_of_undone answered done, drive_of_undone answered done,
          ih (ended_prepend.mp ended)]

theorem Driven.nil (input : List UInt8) : Driven input [] :=
  ⟨by simp, by simp, by simp, by simp, 0, 0, rfl⟩

theorem Driven.cons {turn : Turn} {rest : List Turn} (given : turn.input = input)
    (within : turn.consumed ≤ input.length) (room : turn.room = 32768)
    (demand : turn.demand = if turn.input = [] then .finish else .none)
    (others : Driven (input.drop turn.consumed) rest) : Driven input (turn :: rest) := by
  refine ⟨fun place other found => ?_, ?_, List.forall_mem_cons.mpr ⟨room, others.room⟩,
    List.forall_mem_cons.mpr ⟨demand, others.demand⟩, ?_⟩
  · cases place with
    | zero =>
      obtain rfl : turn = other := by simpa using found
      simpa using given
    | succ place =>
      rw [others.given place other (by simpa using found), List.drop_drop]
      simp
  · have more := others.within
    rw [List.length_drop] at more
    rw [List.map_cons, List.sum_cons]
    omega
  · obtain ⟨early, late, demands⟩ := others.demands
    by_cases vacant : input = []
    · -- once the input is used up, it stays so
      have all : ∀ other ∈ rest, other.demand = .finish := by
        intro other member
        obtain ⟨place, found⟩ := List.getElem?_of_mem member
        rw [others.demand other member, others.given place other found, vacant]
        simp
      refine ⟨0, rest.length + 1, ?_⟩
      rw [List.map_cons, demand, given, if_pos vacant, List.replicate_zero, List.nil_append,
        List.replicate_succ, List.map_congr_left all, List.map_const']
    · exact ⟨early + 1, late, by rw [List.map_cons, demand, given, if_neg vacant, demands,
        List.replicate_succ, List.cons_append]⟩

theorem Ends.cons {turn : Turn} {delivery : Delivery} (answered : turn.answer = .ok delivery)
    (undone : delivery.status ≠ .done) {rest : List Turn}
    {result : EStateM.Result Fault σ (Option (List UInt8))} (ends : Ends calls rest result) :
    Ends (calls + 1) (turn :: rest) (prepend delivery.produced result) := by
  have first : turn.GoesOn := ⟨delivery, answered, undone⟩
  have bytes : turn.produced = delivery.produced := by
    rw [Turn.produced, answered]
    rfl
  match result with
  | .error fault after =>
    obtain ⟨earlier, last, rfl, others, failed⟩ := ends
    exact ⟨turn :: earlier, last, rfl, List.forall_mem_cons.mpr ⟨first, others⟩, failed⟩
  | .ok none after => exact ⟨congrArg (· + 1) ends.1, List.forall_mem_cons.mpr ⟨first, ends.2⟩⟩
  | .ok (some output) after =>
    obtain ⟨rfl, earlier, last, rfl, others, done⟩ := ends
    exact ⟨by rw [List.flatMap_cons, bytes], turn :: earlier, last, rfl,
      List.forall_mem_cons.mpr ⟨first, others⟩, done⟩

theorem keep_prepend (turns : List Turn) (bytes : List UInt8)
    (result : EStateM.Result Fault σ (Option (List UInt8))) :
    keep turns (prepend bytes result) = prepend bytes (keep turns result) := by
  cases result <;> rfl

theorem recorded_ok {room : Nat} {demand : Demand} (before : List Turn)
    (answered : compressor input room demand state = .ok delivery after) :
    compressor.recorded input room demand (state, before) =
      .ok delivery (after, before ++ [⟨input, room, demand, .ok delivery⟩]) := by
  rw [recorded, answered]

theorem recorded_error {room : Nat} {demand : Demand} {fault : Fault} (before : List Turn)
    (failed : compressor input room demand state = .error fault after) :
    compressor.recorded input room demand (state, before) =
      .error fault (after, before ++ [⟨input, room, demand, .error fault⟩]) := by
  rw [recorded, failed]

/-- Calls that are kept are those of the drive itself, and it ends as they tell. -/
theorem drive_recorded (modest : compressor.Modest) (calls : Nat) (input : List UInt8) (state : σ)
    (before : List Turn) :
    ∃ turns, compressor.recorded.drive calls input (state, before) =
        keep (before ++ turns) (compressor.drive calls input state) ∧
      Driven input turns ∧ Ends calls turns (compressor.drive calls input state) := by
  induction calls generalizing input state before with
  | zero => exact ⟨[], by rw [List.append_nil]; rfl, .nil input, rfl, by simp⟩
  | succ calls ih =>
    have demanded : (if input.isEmpty then Demand.finish else .none) =
        if input = [] then .finish else .none := by
      simp
    cases answered :
        compressor input driveRoom (if input.isEmpty then .finish else .none) state with
    | error fault after =>
      have kept := recorded_error before answered
      rw [drive_of_error answered, drive_of_error kept]
      refine ⟨[⟨input, driveRoom, _, .error fault⟩], rfl,
        .cons rfl (Nat.zero_le _) rfl demanded (.nil _), ?_⟩
      exact ⟨[], _, rfl, by simp, rfl⟩
    | ok delivery after =>
      have few := (modest _ _ _ _ _ _ answered).1
      have kept := recorded_ok before answered
      by_cases done : delivery.status = .done
      · rw [drive_of_done answered done, drive_of_done kept done]
        refine ⟨[⟨input, driveRoom, _, .ok delivery⟩], rfl,
          .cons rfl few rfl demanded (.nil _), ?_⟩
        exact ⟨by simp [Turn.produced, producedBy], [], _, rfl, by simp, by simp [isDone, done]⟩
      · obtain ⟨turns, run, driven, ends⟩ := ih (input.drop delivery.consumed) after
          (before ++ [⟨input, driveRoom, if input.isEmpty then .finish else .none, .ok delivery⟩])
        rw [drive_of_undone answered done, drive_of_undone kept done, run, List.append_assoc,
          ← keep_prepend]
        exact ⟨_, rfl, .cons rfl few rfl demanded driven, .cons rfl done ends⟩

end BlockSort.Compressor

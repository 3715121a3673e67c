import BlockSort.Proofs.Checksum

namespace BlockSort.Crc

/-- A call on a checksum in progress. -/
inductive Request where
  | push (byte : UInt8)
  | pushCopies (byte : UInt8) (count : Nat)
  | pushAll (bytes : List UInt8)
  | reset

/-- Answers a call. -/
def serve (crc : Crc) : Request → Crc
  | .push byte => crc.push byte
  | .pushCopies byte count => crc.pushCopies byte count
  | .pushAll bytes => crc.pushAll bytes
  | .reset => {}

/-- What a call makes of the bytes that were fed since the last reset. -/
def Request.feed (fed : List UInt8) : Request → List UInt8
  | .push byte => fed ++ [byte]
  | .pushCopies byte count => fed ++ List.replicate count byte
  | .pushAll bytes => fed ++ bytes
  | .reset => []

theorem serve_pushAll (fed : List UInt8) (request : Request) :
    (pushAll {} fed).serve request = pushAll {} (request.feed fed) := by
  cases request with
  | push byte => exact (pushAll_append {} fed [byte]).symm
  | pushCopies byte count =>
    rw [serve, pushCopies_eq]
    exact (pushAll_append {} fed (List.replicate count byte)).symm
  | pushAll bytes => exact (pushAll_append {} fed bytes).symm
  | reset => rfl

theorem foldl_serve (requests : List Request) (fed : List UInt8) :
    requests.foldl serve (pushAll {} fed) = pushAll {} (requests.foldl Request.feed fed) := by
  induction requests generalizing fed with
  | nil => rfl
  | cons request rest ih => rw [List.foldl_cons, List.foldl_cons, serve_pushAll, ih]

/-- After any calls the value is the checksum, bit by bit, of the bytes that were fed since the last
reset; so any other calls that feed the same bytes give the same value. -/
theorem serveAll_value (requests : List Request) :
    let fed := requests.foldl Request.feed []
    let value := (requests.foldl serve {}).value
    value.toNat = Decoder.crc fed ∧ value = ofBytes fed ∧
      ∀ others : List Request, others.foldl Request.feed [] = fed →
        (others.foldl serve {}).value = value := by
  intro fed value
  have whole : value = ofBytes fed := congrArg Crc.value (foldl_serve requests [])
  refine ⟨?_, whole, ?_⟩
  · rw [whole, Decoder.crc_eq]
  · intro others same
    rw [whole, ← same]
    exact congrArg Crc.value (foldl_serve others [])

/-- Five bytes after a reset, in calls of every kind and in one. -/
theorem serveAll_value_after_reset :
    ([.push 9, .reset, .pushCopies 7 3, .pushAll [1, 2]].foldl serve {}).value =
      ([.pushAll [7, 7, 7, 1, 2]].foldl serve {}).value :=
  (serveAll_value [.pushAll [7, 7, 7, 1, 2]]).2.2
    [.push 9, .reset, .pushCopies 7 3, .pushAll [1, 2]] rfl

end BlockSort.Crc

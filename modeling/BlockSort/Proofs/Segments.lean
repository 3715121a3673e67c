import BlockSort.Proofs.Progress

/-!
What a sink holds when the calls of an encoder are over. It is the concatenation of the compressed
forms of the members in their history, so it does not depend on how their bytes were handed over.
-/
namespace BlockSort

/-- The compressed forms of byte strings, one after another. -/
def compressAll (level : Level) : List (List UInt8) → Except Fault (List UInt8)
  | [] => .ok []
  | segment :: rest => do
    let first ← compress segment level
    let others ← compressAll level rest
    return first.toList ++ others

namespace Encoder

theorem compressAll_bits (level : Level) (segments : List (List UInt8)) :
    ∃ output, compressAll level segments = .ok output ∧
      Bits.ofBytes output = segments.flatMap (Draft.memberBits level) := by
  induction segments with
  | nil => exact ⟨[], rfl, rfl⟩
  | cons segment rest ih =>
    obtain ⟨first, compressed, bits⟩ := compress_bits segment level
    obtain ⟨others, done, further⟩ := ih
    refine ⟨first.toList ++ others, ?_, ?_⟩
    · rw [compressAll, compressed, done]
      rfl
    · rw [Bits.ofBytes_append, bits, further, List.flatMap_cons]

namespace Reached

variable {level : Level} {earlier taken : List UInt8} {history : History} {encoder : Encoder}

theorem output (reached : Reached level earlier taken history encoder)
    (empty : history.current = []) :
    ∃ output, compressAll level history.members = .ok output ∧
      taken ++ encoder.sink.data.toList = earlier ++ output := by
  obtain ⟨output, compressed, bits⟩ := compressAll_bits level history.members
  refine ⟨output, compressed, Bits.ofBytes_injective ?_⟩
  rw [reached.whole empty, Bits.ofBytes_append, bits]

/-- What the sink has is the beginning of what it would have if the encoder were closed. -/
theorem part (reached : Reached level earlier taken history encoder) :
    ∃ output, compressAll level history.finish.members = .ok output ∧
      taken ++ encoder.sink.data.toList <+: earlier ++ output := by
  obtain ⟨after, _, closed, grown⟩ := reached.close
  obtain ⟨output, compressed, bytes⟩ := closed.output history.current_finish
  exact ⟨output, compressed, bytes ▸ (List.prefix_append_right_inj taken).mpr grown⟩

end Reached

/-- The calls of a new encoder all succeed, and its sink finally has the compressed forms of the
members that they make, whatever it held before. At any time it has a beginning of this, and as
long as no member is open it has the complete ones and nothing else. -/
theorem serveAll_segments (level : Level) (held : Array UInt8) (requests : List Request) :
    ∃ encoder closed output,
      serveAll requests (ofSink level { data := held }) =
        (requests.map Request.success, encoder) ∧
      close encoder = .ok () closed ∧
      compressAll level (History.after requests {}).finish.members = .ok output ∧
      closed.sink.data.toList = held.toList ++ output ∧
      ∀ first, first <+: requests → ∃ middle,
        serveAll first (ofSink level { data := held }) = (first.map Request.success, middle) ∧
        middle.sink.data.toList <+: held.toList ++ output ∧
        ((History.after first {}).current = [] → ∃ part,
          compressAll level (History.after first {}).members = .ok part ∧
          middle.sink.data.toList = held.toList ++ part) := by
  have start := Reached.start level (⟨rfl, rfl⟩ : ({ data := held } : Sink).Accepting)
  obtain ⟨encoder, served, reached, _⟩ := start.serveAll requests
  obtain ⟨closed, success, final, grown⟩ := reached.close
  obtain ⟨output, compressed, bytes⟩ := final.output (History.current_finish _)
  rw [List.nil_append] at bytes
  refine ⟨encoder, closed, output, served, success, compressed, bytes, ?_⟩
  rintro first ⟨rest, rfl⟩
  obtain ⟨middle, answered, between, _⟩ := start.serveAll first
  obtain ⟨last, others, _, further⟩ := between.serveAll rest
  have same : last = encoder := by
    have both := serveAll_append first rest (ofSink level { data := held })
    rw [served, answered, others] at both
    exact (congrArg Prod.snd both).symm
  refine ⟨middle, answered, ?_, fun empty => ?_⟩
  · rw [← bytes]
    exact (same ▸ further).trans grown
  · obtain ⟨part, whole, exact⟩ := between.output empty
    exact ⟨part, whole, exact⟩

end Encoder

end BlockSort

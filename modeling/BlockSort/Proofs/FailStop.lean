import BlockSort.Proofs.Progress
import BlockSort.Proofs.Refusal

/-!
An encoder at a sink that may refuse requests, next to one at a sink that takes everything. They
stay alike until the first refusal, which the call that meets it reports; after that the encoder is
stopped, and what its sink holds is a beginning of the other's output.
-/
namespace BlockSort

namespace Encoder

theorem serve_of_broken {encoder : Encoder} (broken : encoder.isBroken = true)
    (request : Request) : serve request encoder = (request.failure .broken, encoder) := by
  rw [serve_eq, operation_of_broken broken]

theorem serveAll_of_broken {encoder : Encoder} (broken : encoder.isBroken = true)
    (requests : List Request) :
    serveAll requests encoder = (requests.map (·.failure .broken), encoder) := by
  induction requests with
  | nil => rfl
  | cons request rest ih => simp only [serveAll, serve_of_broken broken, ih, List.map_cons]

/-- An encoder and one that was called in the same way, but has a sink that takes everything. -/
structure Beside (level : Level) (earlier : List UInt8) (history : History)
    (actual ideal : Encoder) : Prop where
  reached : Reached level earlier [] history ideal
  outline : actual.outline = ideal.outline
  alike : actual.writer.Alike ideal.writer

/-- How an operation ends if it brings the other encoder to `ideal`. -/
inductive Fares (level : Level) (earlier : List UInt8) (history : History) (before : Sink)
    (ideal : Encoder) (failure : Encoder → Prop) : EStateM.Result Fault Encoder Unit → Prop
  | accepted {after : Encoder} (replies : before.Accepted after.sink)
      (beside : Beside level earlier history after ideal) :
      Fares level earlier history before ideal failure (.ok () after)
  | refused {after : Encoder} {error : SinkError} (replies : before.Refused after.sink error)
      (data : after.sink.data.toList <+: ideal.sink.data.toList) (stopped : failure after) :
      Fares level earlier history before ideal failure (.error (.sink error) after)

namespace Beside

variable {level : Level} {earlier : List UInt8} {history next : History} {actual ideal : Encoder}

/-- A new encoder for any sink, next to one for the same sink without replies. -/
theorem start (level : Level) (sink : Sink) :
    Beside level sink.data.toList {} (ofSink level sink) (ofSink level sink.willing) :=
  ⟨Reached.start level sink.willing_accepting, rfl, ⟨rfl, rfl, rfl, rfl, rfl⟩⟩

theorem usable (beside : Beside level earlier history actual ideal) :
    actual.isBroken = false := by
  have same : actual.phase = ideal.phase := congrArg Outline.phase beside.outline
  have usable := beside.reached.usable
  rw [isBroken] at usable ⊢
  rwa [same]

/-- An operation follows the same plan at both sinks. -/
theorem follow {operation : EStateM Fault Encoder Unit} {actions : List Action}
    {outline : Outline} {failure other : Encoder → Prop}
    (beside : Beside level earlier history actual ideal)
    (ours : Follows writer operation actual actions (fun after => after.outline = outline) failure)
    (theirs : Follows writer operation ideal actions (fun after => after.outline = outline) other)
    (tracks : outline.Tracks level next) (leads : History.Leads level history next actions) :
    ∃ last, operation ideal = .ok () last ∧ Reached level earlier [] next last ∧
      ideal.sink.data.toList <+: last.sink.data.toList ∧
      Fares level earlier next actual.sink last failure (operation actual) := by
  obtain ⟨last, success, kept, done, reached, grown⟩ :=
    beside.reached.follow theirs tracks leads
  refine ⟨last, success, reached, grown, ?_⟩
  have fares := BitWriter.perform_fares beside.reached.accepting beside.reached.tidy beside.alike
    leads.narrow done
  rw [Follows] at ours
  cases result : BitWriter.perform actions actual.writer with
  | ok _ written =>
    simp only [result] at ours fares
    obtain ⟨after, ended, rfl, same⟩ := ours
    rw [ended]
    cases fares with
    | accepted replies alike => exact .accepted replies ⟨reached, same.trans kept.symm, alike⟩
  | error fault written =>
    simp only [result] at ours fares
    obtain ⟨after, ended, rfl, stopped⟩ := ours
    rw [ended]
    cases fares with
    | refused replies data => exact .refused replies data stopped

theorem operation (beside : Beside level earlier history actual ideal) (request : Request) :
    ∃ last, request.operation ideal = .ok () last ∧
      Reached level earlier [] (history.step request) last ∧
      ideal.sink.data.toList <+: last.sink.data.toList ∧
      Fares level earlier (history.step request) actual.sink last
        (fun after => after.isBroken = true) (request.operation actual) := by
  have ours := follows_operation beside.usable request
  rw [beside.outline] at ours
  exact beside.follow ours (follows_operation beside.reached.usable request)
    (beside.reached.tracks.step request) (beside.reached.tracks.leads_step request)

theorem close (beside : Beside level earlier history actual ideal) :
    ∃ last, Encoder.close ideal = .ok () last ∧
      Reached level earlier [] history.finish last ∧
      ideal.sink.data.toList <+: last.sink.data.toList ∧
      Fares level earlier history.finish actual.sink last (fun _ => True)
        (Encoder.close actual) := by
  have ours := follows_close beside.usable
  rw [beside.outline] at ours
  exact beside.follow ours (follows_close beside.reached.usable) beside.reached.tracks.finish
    (beside.reached.tracks.leads_finish.trans (.finish history.current_finish))

end Beside

/-- A run that stops: the sink refuses a request of the last of these calls, which reports this,
and none before. -/
structure Stops (served : List Request) (request : Request) (before after : Encoder)
    (error : SinkError) : Prop where
  answers : serveAll (served ++ [request]) before =
    (served.map Request.success ++ [request.failure (.sink error)], after)
  replies : before.sink.Refused after.sink error
  broken : after.isBroken = true

theorem Stops.serveAll {served : List Request} {request : Request} {before after : Encoder}
    {error : SinkError} (stops : Stops served request before after error)
    (further : List Request) :
    Encoder.serveAll (served ++ request :: further) before =
      (served.map Request.success ++
        request.failure (.sink error) :: further.map (·.failure .broken), after) := by
  rw [List.append_cons, serveAll_append, stops.answers]
  simp only [serveAll_of_broken stops.broken, List.append_assoc, List.singleton_append]

/-- Calls in order either all succeed, or stop at one of them. -/
theorem Beside.serveAll {level : Level} {earlier : List UInt8} {history : History}
    {actual ideal : Encoder} (beside : Beside level earlier history actual ideal)
    (requests : List Request) :
    ∃ last, Encoder.serveAll requests ideal = (requests.map Request.success, last) ∧
      ideal.sink.data.toList <+: last.sink.data.toList ∧
      ((∃ after, Encoder.serveAll requests actual = (requests.map Request.success, after) ∧
          actual.sink.Accepted after.sink ∧
          Beside level earlier (History.after requests history) after last) ∨
        ∃ served request rest error after, requests = served ++ request :: rest ∧
          Stops served request actual after error ∧
          after.sink.data.toList <+: last.sink.data.toList) := by
  induction requests generalizing history actual ideal with
  | nil =>
    exact ⟨ideal, rfl, List.prefix_refl _, .inl ⟨actual, rfl, .refl _, beside⟩⟩
  | cons request others ih =>
    obtain ⟨middle, success, reached, grown, fares⟩ := beside.operation request
    have theirs : serve request ideal = (request.success, middle) := by rw [serve_eq, success]
    cases result : request.operation actual with
    | ok _ after =>
      rw [result] at fares
      obtain ⟨replies, next⟩ := fares
      have ours : serve request actual = (request.success, after) := by rw [serve_eq, result]
      obtain ⟨last, answered, further, runs⟩ := ih next
      refine ⟨last, by simp only [Encoder.serveAll, theirs, answered, List.map_cons],
        grown.trans further, ?_⟩
      rcases runs with ⟨final, all, accepted, along⟩ |
        ⟨served, failing, rest, error, final, shape, stops, part⟩
      · exact .inl ⟨final, by simp only [Encoder.serveAll, ours, all, List.map_cons],
          replies.trans accepted, along⟩
      · refine .inr ⟨request :: served, failing, rest, error, final, by rw [shape]; rfl, ?_, part⟩
        refine ⟨?_, replies.refused stops.replies, stops.broken⟩
        simp only [List.cons_append, Encoder.serveAll, ours, stops.answers, List.map_cons]
    | error fault after =>
      rw [result] at fares
      obtain ⟨last, answered, _, further⟩ := reached.serveAll others
      refine ⟨last, by simp only [Encoder.serveAll, theirs, answered, List.map_cons],
        grown.trans further, .inr ?_⟩
      cases fares with
      | @refused _ error replies data stopped =>
        have ours : serve request actual = (request.failure (.sink error), after) := by
          rw [serve_eq, result]
        refine ⟨[], request, others, error, after, rfl, ⟨?_, replies, stopped⟩,
          data.trans further⟩
        simp only [List.nil_append, Encoder.serveAll, ours, List.map_nil]

/-- A sink's refusals are all that stops an encoder, and nothing follows them. The encoder at a
sink without replies serves all calls; at any other sink either they all succeed, with the same
bytes for the sink, or the first that does not reports what the sink refused it with. From then on
every call is turned away without a request to the sink, which holds a beginning of those bytes. -/
theorem serveAll_failStop (level : Level) (sink : Sink) (requests : List Request) :
    ∃ ideal last,
      serveAll requests (ofSink level sink.willing) = (requests.map Request.success, ideal) ∧
      close ideal = .ok () last ∧
      ideal.sink.data.toList <+: last.sink.data.toList ∧
      ((∃ actual,
          serveAll requests (ofSink level sink) = (requests.map Request.success, actual) ∧
          sink.Accepted actual.sink ∧
          actual.sink.data = ideal.sink.data ∧
          actual.isBroken = false ∧
          ((∃ closed, close actual = .ok () closed ∧ sink.Accepted closed.sink ∧
              closed.sink.data = last.sink.data) ∨
            ∃ error closed, close actual = .error (.sink error) closed ∧
              sink.Refused closed.sink error ∧
              closed.sink.data.toList <+: last.sink.data.toList)) ∨
        ∃ served request rest error actual,
          requests = served ++ request :: rest ∧
          (∀ further, serveAll (served ++ request :: further) (ofSink level sink) =
            (served.map Request.success ++
              request.failure (.sink error) :: further.map (·.failure .broken), actual)) ∧
          sink.Refused actual.sink error ∧
          actual.sink.data.toList <+: ideal.sink.data.toList ∧
          actual.isBroken = true ∧
          close actual = .error .broken actual) := by
  obtain ⟨ideal, theirs, _, runs⟩ := (Beside.start level sink).serveAll requests
  rcases runs with ⟨actual, ours, accepted, beside⟩ |
    ⟨served, request, rest, error, actual, shape, stops, part⟩
  · obtain ⟨last, success, _, grown, fares⟩ := beside.close
    refine ⟨ideal, last, theirs, success, grown, .inl ⟨actual, ours, accepted, beside.alike.data,
      beside.usable, ?_⟩⟩
    cases result : close actual with
    | ok _ closed =>
      rw [result] at fares
      obtain ⟨replies, along⟩ := fares
      exact .inl ⟨closed, rfl, accepted.trans replies, along.alike.data⟩
    | error fault closed =>
      rw [result] at fares
      cases fares with
      | refused replies data => exact .inr ⟨_, closed, rfl, accepted.refused replies, data⟩
  · obtain ⟨_, again, reached, _⟩ :=
      (Reached.start level sink.willing_accepting).serveAll requests
    rw [theirs] at again
    injection again with _ same
    obtain ⟨last, success, _, grown⟩ := (same ▸ reached).close
    exact ⟨ideal, last, theirs, success, grown, .inr ⟨served, request, rest, error, actual, shape,
      stops.serveAll, stops.replies, part, stops.broken, close_of_broken stops.broken⟩⟩

end Encoder

end BlockSort

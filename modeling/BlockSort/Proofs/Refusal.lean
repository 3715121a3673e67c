import BlockSort.Proofs.Actions

namespace BlockSort

/-- The error with which a reply ends a write, if it does. An interrupted write is repeated. -/
def WriteReply.failure? : WriteReply → Option SinkError
  | .take limit => if limit = 0 then some .noProgress else none
  | .refuse error => if error.kind = .interrupted then none else some error

namespace Sink

/-- The same sink, but it takes everything. -/
def willing (sink : Sink) : Sink := { sink with writeReplies := [], flushReplies := [] }

theorem willing_accepting (sink : Sink) : sink.willing.Accepting := ⟨rfl, rfl⟩

/-- A sink after requests of which none failed. -/
structure Accepted (before after : Sink) : Prop where
  writes : ∃ given, before.writeReplies = given ++ after.writeReplies ∧
    ∀ reply ∈ given, reply.failure? = none
  flushes : ∃ given, before.flushReplies = given ++ after.flushReplies ∧
    ∀ reply ∈ given, reply = none

/-- A sink after requests of which the last failed, and no other. -/
inductive Refused (before after : Sink) (error : SinkError) : Prop
  | write {middle : Sink} {reply : WriteReply} (accepted : before.Accepted middle)
      (next : middle.writeReplies = reply :: after.writeReplies)
      (failure : reply.failure? = some error) (kept : middle.flushReplies = after.flushReplies)
  | flush {middle : Sink} (accepted : before.Accepted middle)
      (next : middle.flushReplies = some error :: after.flushReplies)
      (kept : middle.writeReplies = after.writeReplies)

theorem Accepted.refl (sink : Sink) : sink.Accepted sink :=
  ⟨⟨[], rfl, by simp⟩, ⟨[], rfl, by simp⟩⟩

theorem Accepted.trans {before middle after : Sink} (one : before.Accepted middle)
    (two : middle.Accepted after) : before.Accepted after := by
  obtain ⟨⟨first, writes, fine⟩, ⟨second, flushes, spared⟩⟩ := one
  obtain ⟨⟨third, others, good⟩, ⟨fourth, further, nothing⟩⟩ := two
  refine ⟨⟨first ++ third, ?_, fun reply member => ?_⟩,
    ⟨second ++ fourth, ?_, fun reply member => ?_⟩⟩
  · rw [writes, others, List.append_assoc]
  · exact (List.mem_append.mp member).elim (fine reply) (good reply)
  · rw [flushes, further, List.append_assoc]
  · exact (List.mem_append.mp member).elim (spared reply) (nothing reply)

theorem Accepted.refused {before middle after : Sink} {error : SinkError}
    (one : before.Accepted middle) (two : middle.Refused after error) :
    before.Refused after error := by
  cases two with
  | write accepted next failure kept => exact .write (one.trans accepted) next failure kept
  | flush accepted next kept => exact .flush (one.trans accepted) next kept

theorem accepted_answered {sink : Sink} {reply : WriteReply} {rest : List WriteReply}
    (taken : Array UInt8) (next : sink.writeReplies = reply :: rest)
    (fine : reply.failure? = none) : sink.Accepted (sink.answered taken rest) :=
  ⟨⟨[reply], next, by simpa using fine⟩, ⟨[], rfl, by simp⟩⟩

/-- How an operation ends at a sink, if `whole` is what it would finally hold of a sink that takes
everything. -/
inductive Fares (before : Sink) (whole : List UInt8) : EStateM.Result SinkError Sink Unit → Prop
  | accepted {after : Sink} (replies : before.Accepted after) (data : after.data.toList = whole) :
      Fares before whole (.ok () after)
  | refused {after : Sink} {error : SinkError} (replies : before.Refused after error)
      (data : after.data.toList <+: whole) : Fares before whole (.error error after)

theorem Fares.after {before middle : Sink} {whole : List UInt8}
    {result : EStateM.Result SinkError Sink Unit} (fares : middle.Fares whole result)
    (accepted : before.Accepted middle) : before.Fares whole result := by
  cases fares with
  | accepted replies data => exact .accepted (accepted.trans replies) data
  | refused replies data => exact .refused (accepted.refused replies) data

/-- However many requests it takes, either all bytes arrive or those before a failing reply. -/
theorem deliver_fares (bytes : Array UInt8) (replies : List WriteReply) {sink : Sink}
    (script : sink.writeReplies = replies) :
    sink.Fares (sink.data.toList ++ bytes.toList) (deliver bytes replies sink) := by
  induction replies generalizing bytes sink with
  | nil =>
    refine .accepted ⟨⟨[], ?_, by simp⟩, ⟨[], rfl, by simp⟩⟩ ?_
    · exact script
    · simp [answered]
  | cons reply rest ih =>
    cases reply with
    | refuse error =>
      rw [deliver]
      split
      · rename_i interrupted
        have again := accepted_answered #[] script (by simp [WriteReply.failure?, interrupted])
        have left : (sink.answered #[] rest).writeReplies = rest := rfl
        have fares := ih bytes left
        simp only [answered, Array.append_empty] at fares
        exact fares.after again
      · rename_i failing
        exact .refused (.write (.refl sink) script (by simp [WriteReply.failure?, failing]) rfl)
          (by simp [answered])
    | take limit =>
      rw [deliver]
      split
      · rename_i nothing
        exact .refused (.write (.refl sink) script (by simp [WriteReply.failure?, nothing]) rfl)
          (by simp [answered])
      · rename_i nonzero
        have fine : (WriteReply.take limit).failure? = none := by
          simp [WriteReply.failure?, nonzero]
        split
        · exact .accepted (accepted_answered bytes script fine) (by simp [answered])
        · have step := accepted_answered (bytes.extract 0 limit) script fine
          have left : (sink.answered (bytes.extract 0 limit) rest).writeReplies = rest := rfl
          have fares := ih (bytes.extract limit bytes.size) left
          have same : (sink.answered (bytes.extract 0 limit) rest).data.toList ++
              (bytes.extract limit bytes.size).toList = sink.data.toList ++ bytes.toList := by
            simp only [answered, Array.toList_append, Array.toList_extract, List.append_assoc]
            simp [List.extract_eq_take_drop, List.take_of_length_le]
          rw [same] at fares
          exact fares.after step

theorem writeAll_fares (bytes : Array UInt8) (sink : Sink) :
    sink.Fares (sink.data.toList ++ bytes.toList) (writeAll bytes sink) := by
  rw [writeAll]
  split
  · rename_i empty
    have vacant : bytes = #[] := by simpa using empty
    exact .accepted (.refl sink) (by simp [vacant])
  · exact deliver_fares bytes _ rfl

theorem flush_fares (sink : Sink) : sink.Fares sink.data.toList (flush sink) := by
  rw [flush]
  cases script : sink.flushReplies with
  | nil => exact .accepted ⟨⟨[], rfl, by simp⟩, ⟨[], script, by simp⟩⟩ rfl
  | cons reply rest =>
    cases reply with
    | none => exact .accepted ⟨⟨[], rfl, by simp⟩, ⟨[none], script, by simp⟩⟩ rfl
    | some error => exact .refused (.flush (.refl sink) script rfl) (List.prefix_refl _)

end Sink

namespace BitWriter

/-- Two writers that differ in the replies of their sinks only. -/
structure Alike (actual ideal : BitWriter) : Prop where
  register : actual.register = ideal.register
  held : actual.held = ideal.held
  ready : actual.ready = ideal.ready
  completed : actual.completed = ideal.completed
  data : actual.sink.data = ideal.sink.data

/-- How an operation of a writer ends, if another one that is alike but has a sink that takes
everything ends it as `ideal`. -/
inductive Fares (before : Sink) (ideal : BitWriter) :
    EStateM.Result Fault BitWriter Unit → Prop
  | accepted {after : BitWriter} (replies : before.Accepted after.sink)
      (alike : after.Alike ideal) : Fares before ideal (.ok () after)
  | refused {after : BitWriter} {error : SinkError} (replies : before.Refused after.sink error)
      (data : after.sink.data.toList <+: ideal.sink.data.toList) :
      Fares before ideal (.error (.sink error) after)

theorem Fares.after {before : Sink} {middle ideal : BitWriter}
    {result : EStateM.Result Fault BitWriter Unit} (fares : Fares middle.sink ideal result)
    (accepted : before.Accepted middle.sink) : Fares before ideal result := by
  cases fares with
  | accepted replies alike => exact .accepted (accepted.trans replies) alike
  | refused replies data => exact .refused (accepted.refused replies) data

section

variable {actual ideal after : BitWriter}

theorem Alike.moveBytes (alike : actual.Alike ideal) (count : Nat) :
    (moveBytes count actual).Alike (moveBytes count ideal) := by
  induction count generalizing actual ideal with
  | zero => exact alike
  | succ count ih =>
    obtain ⟨register, held, ready, completed, data⟩ := alike
    exact ih ⟨by rw [register], by rw [held], by rw [register, ready], by rw [completed], data⟩

theorem Alike.packed (alike : actual.Alike ideal) (field : Field) :
    (actual.packed field).Alike (ideal.packed field) := by
  have loaded : (actual.load field).Alike (ideal.load field) := by
    obtain ⟨register, held, ready, completed, data⟩ := alike
    exact ⟨by simp only [load, register, held], by simp only [load, held], ready, completed, data⟩
  rw [BitWriter.packed, BitWriter.packed, loaded.held]
  exact loaded.moveBytes _

theorem Alike.pad (alike : actual.Alike ideal) : (pad actual).Alike (pad ideal) := by
  rw [BitWriter.pad, BitWriter.pad, alike.held]
  split
  · exact alike
  · obtain ⟨register, held, ready, completed, data⟩ := alike
    have filled : ({ actual with held := 8 } : BitWriter).Alike { ideal with held := 8 } :=
      ⟨register, rfl, ready, completed, data⟩
    exact filled.moveBytes 1

theorem release_fares (accepting : ideal.sink.Accepting) (alike : actual.Alike ideal)
    (done : release ideal = .ok () after) : Fares actual.sink after (release actual) := by
  obtain ⟨sink, taken, _, data⟩ := writeAll_accepting accepting ideal.ready
  simp only [release_eq ideal, taken, EStateM.Result.ok.injEq, true_and] at done
  subst done
  have whole : actual.sink.data.toList ++ actual.ready.toList = sink.data.toList := by
    rw [data, alike.data, alike.ready, Array.toList_append]
  have fares := Sink.writeAll_fares actual.ready actual.sink
  rw [whole] at fares
  rw [release_eq]
  cases result : Sink.writeAll actual.ready actual.sink with
  | ok _ other =>
    rw [result] at fares
    cases fares with
    | accepted replies same =>
      exact .accepted replies ⟨alike.register, alike.held, rfl, alike.completed,
        Array.toList_inj.mp same⟩
  | error error other =>
    rw [result] at fares
    cases fares with
    | refused replies part => exact .refused replies part

theorem onFlush_fares {before : Sink} (replies : before.Accepted actual.sink)
    (alike : actual.Alike ideal) :
    Fares before ideal
      (match Sink.flush actual.sink with
      | .ok _ sink => .ok () { actual with sink }
      | .error error sink => .error (.sink error) { actual with sink }) := by
  have fares := Sink.flush_fares actual.sink
  cases result : Sink.flush actual.sink with
  | ok _ sink =>
    rw [result] at fares
    cases fares with
    | accepted others data =>
      exact .accepted (replies.trans others) ⟨alike.register, alike.held, alike.ready,
        alike.completed, (Array.toList_inj.mp data).trans alike.data⟩
  | error error sink =>
    rw [result] at fares
    cases fares with
    | refused others data =>
      exact .refused (replies.refused others) (alike.data ▸ data)

theorem put_fares (accepting : ideal.sink.Accepting) (alike : actual.Alike ideal) {field : Field}
    (narrow : (Action.put field).Narrow) (done : act (.put field) ideal = .ok () after) :
    Fares actual.sink after (act (.put field) actual) := by
  have packed := alike.packed field
  rw [act, put_eq narrow] at done ⊢
  rw [packed.ready]
  by_cases empty : field.width = 0
  · simp only [if_pos empty, EStateM.Result.ok.injEq, true_and] at done ⊢
    exact .accepted (.refl _) (done ▸ alike)
  · rw [if_neg empty] at done ⊢
    rw [← packed_sink actual field]
    by_cases full : releaseSize ≤ (ideal.packed field).ready.size
    · rw [if_pos full] at done ⊢
      exact release_fares (by rwa [packed_sink]) packed done
    · simp only [if_neg full, EStateM.Result.ok.injEq, true_and] at done ⊢
      exact .accepted (.refl _) (done ▸ packed)

theorem flush_fares (accepting : ideal.sink.Accepting) (alike : actual.Alike ideal)
    (done : act .flush ideal = .ok () after) :
    Fares actual.sink after (act .flush actual) := by
  rw [act, flush_eq] at done ⊢
  cases released : release ideal with
  | error fault middle => simp [released] at done
  | ok _ middle =>
    have fares := release_fares accepting alike released
    have kept := Sink.flush_fares middle.sink
    cases flushed : Sink.flush middle.sink with
    | error error sink => simp [released, flushed] at done
    | ok _ sink =>
      simp only [released, flushed, EStateM.Result.ok.injEq, true_and] at done
      subst done
      rw [flushed] at kept
      obtain ⟨_, same⟩ := kept
      cases result : release actual with
      | error fault first =>
        rw [result] at fares
        cases fares with
        | refused replies part => exact .refused replies (same ▸ part)
      | ok _ first =>
        rw [result] at fares
        obtain ⟨replies, alike⟩ := fares
        refine onFlush_fares replies ⟨alike.register, alike.held, alike.ready, alike.completed, ?_⟩
        rw [alike.data, Array.toList_inj.mp same]

theorem act_fares (accepting : ideal.sink.Accepting) (alike : actual.Alike ideal)
    {action : Action} (narrow : action.Narrow) (done : act action ideal = .ok () after) :
    Fares actual.sink after (act action actual) := by
  cases action with
  | put field => exact put_fares accepting alike narrow done
  | flush => exact flush_fares accepting alike done
  | finish =>
    rw [act, finish_eq] at done ⊢
    rw [← pad_sink actual]
    exact release_fares (by rwa [pad_sink]) alike.pad done

/-- Carrying out actions at a sink that may refuse: either all of them are, with the same outcome
as at one that takes everything, or the sink ends them by refusing. -/
theorem perform_fares {actions : List Action} (accepting : ideal.sink.Accepting)
    (tidy : ideal.Tidy) (alike : actual.Alike ideal)
    (narrow : ∀ action ∈ actions, action.Narrow) (done : perform actions ideal = .ok () after) :
    Fares actual.sink after (perform actions actual) := by
  induction actions generalizing actual ideal with
  | nil =>
    simp only [perform, EStateM.Result.ok.injEq, true_and] at done
    exact .accepted (.refl _) (done ▸ alike)
  | cons action rest ih =>
    have others : ∀ action ∈ rest, action.Narrow := fun other member =>
      narrow other (List.mem_cons_of_mem _ member)
    obtain ⟨middle, acted, wrote⟩ := act_accepting accepting tidy (narrow action (by simp))
    simp only [perform, acted] at done
    have fares := act_fares accepting alike (narrow action (by simp)) acted
    rw [perform]
    cases result : act action actual with
    | ok _ first =>
      rw [result] at fares
      cases fares with
      | accepted replies same =>
        exact (ih wrote.accepting wrote.tidy same others done).after replies
    | error fault first =>
      rw [result] at fares
      cases fares with
      | refused replies part =>
        -- what the sink holds by then is still a beginning when the other writer has gone on
        obtain ⟨last, performed, further⟩ := perform_accepting wrote.accepting wrote.tidy others
        rw [performed] at done
        injection done with _ same
        exact .refused replies (part.trans (same ▸ further.grown))

end

end BitWriter

end BlockSort

import BlockSort.Proofs.Storage.Isolation
import BlockSort.Storage.StoredEncoder

/-!
What a framer writes is never cut off. The numbers that are found of a block in its storage are
bounded by the size of blocks, the tables by the length of codes, so that every value fits into its
field and every field into one write.
-/
namespace BlockSort

/-- A block as it stands in the storage when all of it is coded. -/
structure Layout where
  origin : Nat
  /-- The bytes as they were sorted. -/
  store : BlockStore
  alphabet : Nat
  /-- The number of tables in use. -/
  tables : Nat
  space : CodingSpace
  emissions : List Emission

namespace Layout

/-- What is asked of the writer for the block. -/
def actions (layout : Layout) : List Action :=
  ((Framer.blockFields layout.store layout.origin).map .put ++
    layout.store.present.mapFields.map .put) ++ layout.emissions.flatMap Emission.actions

/-- The numbers that are found of a block are within their bounds, and so are the codes and their
lengths at all places of the tables in use. -/
structure Bounded (layout : Layout) : Prop where
  origin : layout.origin < layout.store.size
  size : layout.store.size ≤ 899985
  symbols : layout.space.symbols.size ≤ layout.store.size + 1
  selectors : layout.space.selectors.size ≤ 18000
  tables : 2 ≤ layout.tables ∧ layout.tables ≤ 6
  selected : ∀ selector ∈ layout.space.selectors, selector < layout.tables
  codes : ∀ table < layout.tables, ∀ symbol < layout.alphabet, ∃ field,
    layout.space.symbolField table symbol = some field ∧ 1 ≤ field.width ∧ field.width ≤ 20 ∧
      field.value.toNat < 2 ^ field.width

end Layout

namespace Framer

/-- Sorts and codes the block of a framer, as it does to write it. -/
def layOut (framer : Framer) : Option Layout := do
  let (origin, _, store, sorting) ← framer.store.sort framer.workspace.sorting
  let ⟨sorting, coding⟩ := Workspace.beginCoding ⟨sorting, framer.workspace.coding⟩
  let (alphabet, coding) ← coding.generate store sorting.order
  let (emissions, summary, coding) ← coding.code alphabet
  return ⟨origin, store, alphabet, summary.tables, coding, emissions⟩

/-- What a framer asks of the writer for its block, if it holds anything. -/
def blockActions (framer : Framer) : Option (List Action) :=
  if framer.store.size = 0 then some [] else framer.layOut.map Layout.actions

/-- What a framer asks of the writer at a call. -/
def actions (framer : Framer) : Request → Option (List Action)
  | .start => some (framer.headerFields.map .put)
  | .run _ => if framer.store.allowed < framer.store.size then framer.blockActions else some []
  | .endBlock => framer.blockActions
  | .endStream =>
    some ((Mark.trailer.map Field.byte ++ Field.word framer.combined).map .put ++ [.finish])

/-- A call ends as its actions do: it has carried all of them out, or stops with the fault of the
first that fails. -/
def Performs (outcome : Outcome) (actions : List Action) (writer : BitWriter) : Prop :=
  match BitWriter.perform actions writer with
  | .ok _ written => ∃ after, outcome = some (.ok () after) ∧ after.channel.writer = written
  | .error fault written =>
    ∃ after, outcome = some (.error fault after) ∧ after.channel.writer = written

namespace Call

/-- Whatever a call writes goes out as it is. Its block, if there is one, is within the bounds; the
call carries out its actions, and nothing of a value in them is cut off. -/
structure Exact (call : Call) : Prop where
  bounded : call.framer.store.size ≠ 0 →
    ∃ layout, call.framer.layOut = some layout ∧ layout.Bounded
  written : ∃ actions, call.framer.actions call.request = some actions ∧
    (∀ field, .put field ∈ actions → field.Exact ∧ field.masked = field.value) ∧
    Performs (serve call.request call.framer call.channel) actions call.channel.writer

end Call

end Framer

theorem CodingSpace.Chosen.codes_bounded {space : CodingSpace} {stream : SymbolStream}
    {choice : Coding.Choice stream.alphabet} (chosen : space.Chosen stream choice)
    (codes : Begins space.codes (codeFronts choice.tables))
    (complete : ∀ table ∈ choice.tables, PrefixCode.Complete Coding.longestCode table.toList) :
    ∀ table < choice.tables.length, ∀ symbol < stream.alphabet, ∃ field,
      space.symbolField table symbol = some field ∧ 1 ≤ field.width ∧ field.width ≤ 20 ∧
        field.value.toNat < 2 ^ field.width := by
  intro table inside symbol known
  have whole := complete _ (List.getElem_mem inside)
  have exact := Coding.codeFields_exact whole ⟨symbol, known⟩
  exact ⟨_, symbolField_spec chosen codes (List.getElem?_eq_getElem inside) ⟨symbol, known⟩,
    exact.positive, Coding.codeFields_width_le whole _, exact.fits⟩

theorem SortedBlock.coded_bounded {sorted : SortedBlock}
    (perm : sorted.order.Perm (List.finRange sorted.block.bytes.size))
    (occupied : sorted.block.bytes.size ≠ 0) (small : sorted.block.bytes.size ≤ 899985)
    {store : BlockStore} (size : store.size = sorted.block.bytes.size) {space : CodingSpace}
    {stream : SymbolStream} (is : stream = .ofColumn sorted.block.present sorted.column)
    (chosen : space.Chosen stream (CodedStream.ofSymbols stream).choice)
    (codes : CodingSpace.Begins space.codes
      (CodingSpace.codeFronts (CodedStream.ofSymbols stream).choice.tables)) :
    Layout.Bounded ⟨sorted.origin, store, stream.alphabet, (Framer.summaryOf sorted).tables, space,
      sorted.coded.emissions⟩ := by
  have sound := SortedBlock.choice_sound perm (by omega)
  have length := SortedBlock.length_symbols_le perm
  have groups := SortedBlock.length_selectors_lt perm (by omega)
  have same : sorted.coded = CodedStream.ofSymbols stream := by rw [is, SortedBlock.coded]
  have tables : (Framer.summaryOf sorted).tables =
      (CodedStream.ofSymbols stream).choice.tables.length := by rw [Framer.summaryOf, same]
  rw [same] at sound groups
  rw [← is] at length
  refine ⟨?_, ?_, ?_, ?_, ?_, ?_, ?_⟩
  · exact (SortedBlock.origin_lt perm occupied).trans_eq size.symm
  · exact size.trans_le small
  · rw [size]
    exact chosen.counts.size_symbols.trans_le length
  · dsimp only
    rw [chosen.selectors, List.size_toArray]
    rw [Coding.groupSize] at groups
    omega
  · dsimp only
    rw [tables]
    exact sound.tables
  · dsimp only
    rw [chosen.selectors, tables]
    intro selector member
    exact sound.selected selector (List.mem_toArray.mp member)
  · dsimp only
    rw [tables]
    exact chosen.codes_bounded codes sound.complete

namespace Framer

variable {framer : Framer} {series : Series}

/-- A block is laid out within its bounds, and its layout is what is written of it. -/
theorem Shows.layOut (shows : framer.Shows series) (occupied : series.block.bytes.size ≠ 0) :
    ∃ layout, framer.layOut = some layout ∧ layout.Bounded ∧
      layout.actions =
        (series.block.sort.headerFields ++ series.block.sort.coded.fields).map .put := by
  obtain ⟨store, sorting, sort, stored, -, perm, covers, small⟩ := shows.sort occupied
  have full : series.block.sort.block.bytes.size ≠ 0 := by rwa [Block.sort_size]
  have sized := shows.workspace.coding
  rw [Framer.layOut]
  generalize series.block.sort = sorted at *
  obtain ⟨order, starts, ranks, pending⟩ := sorting
  generalize framer.workspace.coding = coding at sized ⊢
  obtain ⟨symbols, counts, lengths, codes, selectors, selectorRanks⟩ := coding
  have same : sorted.StoredIn store ⟨order, starts, symbols, pending⟩ :=
    ⟨stored.shows, stored.last, stored.order⟩
  have fresh : CodingSpace.Sized ⟨#[], counts, lengths, codes, selectors, selectorRanks⟩ :=
    ⟨sized.counts, sized.lengths, sized.codes⟩
  obtain ⟨generated, coded, generate, -, code, chosen, begin⟩ :=
    coded_spec same perm covers (by omega) fresh
  have bounded := SortedBlock.coded_bounded perm full small stored.shows.size rfl chosen begin
  refine ⟨_, ?_, bounded, ?_⟩
  · simp only [sort, Option.bind_eq_bind, Option.bind_some, Workspace.beginCoding, generate, code]
    rfl
  · rw [Layout.actions, CodedStream.emissions_actions, blockFields, stored.shows.crc,
      stored.shows.perturbed, stored.shows.present, ← List.map_append, ← List.map_append,
      SortedBlock.headerFields]

theorem Shows.actions (shows : framer.Shows series) (request : Request) :
    framer.actions request = some (series.plan request) := by
  have size : framer.store.size = series.block.bytes.size := shows.store.size
  have block : framer.blockActions = some (series.blockFields.map .put) := by
    rw [blockActions, Series.blockFields, size]
    by_cases empty : series.block.bytes.size = 0
    · have vacant : series.block.isEmpty = true := by simpa [Block.isEmpty] using empty
      rw [if_pos empty, if_pos vacant, List.map_nil]
    · have occupied : series.block.isEmpty = false := by simpa [Block.isEmpty] using empty
      obtain ⟨layout, laidOut, -, same⟩ := shows.layOut empty
      rw [if_neg empty, laidOut, occupied, if_neg Bool.false_ne_true, Option.map_some, same]
  cases request with
  | start => rw [Framer.actions, Series.plan, headerFields, Series.headerFields, shows.level]
  | endBlock => exact block
  | endStream => rw [Framer.actions, Series.plan, shows.combined]
  | run run =>
    have same : series.block.isFull = decide (framer.store.allowed < framer.store.size) := by
      rw [Block.isFull, shows.store.allowed, shows.store.size, Block.size]
    rw [Framer.actions, block, Series.plan, Series.takeFields, same]
    by_cases full : framer.store.allowed < framer.store.size
    · simp [full]
    · simp [full]

/-- A call carries out its plan, or stops where the writer does. -/
theorem Shows.performs (shows : framer.Shows series) (request : Request) (channel : Channel) :
    Performs (Framer.serve request framer channel) (series.plan request) channel.writer := by
  have follows := Series.follows_pressed request ⟨series, channel⟩
  have served := shows.serve request channel
  simp only [Follows, Press.writer] at follows
  rw [Performs]
  cases performed : BitWriter.perform (series.plan request) channel.writer with
  | ok _ written =>
    rw [performed] at follows
    obtain ⟨press, success, same, -⟩ := follows
    rw [success] at served
    obtain ⟨after, result, -⟩ := served
    exact ⟨⟨after, press.channel⟩, result, same⟩
  | error fault written =>
    rw [performed] at follows
    obtain ⟨press, failed, same, -⟩ := follows
    rw [failed] at served
    obtain ⟨after, result, -⟩ := served
    exact ⟨⟨after, press.channel⟩, result, same⟩

theorem Shows.call_exact (shows : framer.Shows series) (request : Request) (channel : Channel) :
    Call.Exact ⟨request, framer, channel⟩ where
  bounded occupied := by
    have full : series.block.bytes.size ≠ 0 := shows.store.size ▸ occupied
    obtain ⟨layout, laidOut, bounded, -⟩ := shows.layOut full
    exact ⟨layout, laidOut, bounded⟩
  written := by
    refine ⟨_, shows.actions request, fun field asked => ?_, shows.performs request channel⟩
    have exact := shows.plan_exact request asked
    exact ⟨exact, exact.masked⟩

end Framer

end BlockSort

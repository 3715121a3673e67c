import BlockSort.Proofs.Conduct
import BlockSort.Proofs.Storage.Coding
import BlockSort.Proofs.Tally
import BlockSort.Storage.Framer

namespace BlockSort

namespace Block

variable {block : Block}

/-- Every value that occurs is in use. -/
def Covers (block : Block) : Prop := ∀ byte ∈ block.bytes, block.present.contains byte = true

theorem covers_cleared (block : Block) : block.cleared.Covers := by simp [Covers, cleared]

theorem Covers.append (covers : block.Covers) (run : Run) : (block.append run).Covers := by
  intro byte member
  rw [← Array.mem_toList_iff, bytes_append, List.mem_append] at member
  rw [contains_append]
  rcases member with before | added
  · exact .inr (covers byte (Array.mem_toList_iff.mp before))
  · by_cases positive : 0 < run.length
    · exact .inl ((Run.mem_encode positive byte).mp added)
    · have zero : run.length = 0 := by simpa using positive
      simp [Run.encode, zero] at added

theorem Covers.sort (covers : block.Covers) : block.sort.block.Covers := by
  obtain ⟨sorted, budget, overrun, rfl | rfl, -, same⟩ := block.sort_cases
  · rwa [same]
  · rw [same]
    exact fun byte => (block.contains_perturb byte).mpr

theorem sort_perm (occupied : block.bytes.size ≠ 0) :
    block.sort.order.Perm (List.finRange block.sort.block.bytes.size) := by
  have twice : block.perturb.bytes.size = block.bytes.size := Perturbation.size_apply _
  obtain ⟨sorted, budget, overrun, which, running, same⟩ := block.sort_cases
  have filled : sorted.bytes.size ≠ 0 := by
    rcases which with rfl | rfl
    · exact occupied
    · rwa [twice]
  rw [same]
  exact (sorted.sortRotations_spec filled budget running).1

theorem sort_size (block : Block) : block.sort.block.bytes.size = block.bytes.size := by
  obtain ⟨sorted, budget, overrun, rfl | rfl, -, same⟩ := block.sort_cases
  · rw [same]
  · rw [same]
    exact Perturbation.size_apply _

theorem sort_allowed (block : Block) : block.sort.block.allowed = block.allowed := by
  obtain ⟨sorted, budget, overrun, rfl | rfl, -, same⟩ := block.sort_cases <;> rw [same]
  rfl

theorem sort_crc (block : Block) : block.sort.block.crc = block.crc := by
  obtain ⟨sorted, budget, overrun, rfl | rfl, -, same⟩ := block.sort_cases <;> rw [same]
  rfl

end Block

namespace SortedBlock

variable {sorted : SortedBlock}

theorem mem_present (covers : sorted.block.Covers) :
    ∀ byte ∈ sorted.column, byte ∈ sorted.block.present.toList := by
  intro byte member
  obtain ⟨position, -, rfl⟩ := List.mem_map.mp member
  exact (ByteSet.mem_toList _ _).mpr (covers _ (Array.getElem_mem _))

end SortedBlock

theorem BitWriter.putAll_append (first second : List Field) (writer : BitWriter) :
    putAll (first ++ second) writer =
      match putAll first writer with
      | .ok _ writer => putAll second writer
      | .error fault writer => .error fault writer := by
  rw [← perform_puts, List.map_append, perform_append, perform_puts]
  cases putAll first writer with
  | ok _ writer => exact perform_puts second writer
  | error fault writer => rfl

namespace Channel

theorem emit_fields_append (first second : List Field) (rest : List Emission) (channel : Channel) :
    emit (.fields (first ++ second) :: rest) channel =
      emit (.fields first :: .fields second :: rest) channel := by
  obtain ⟨writer, journal⟩ := channel
  simp only [emit, onWriter, within, BitWriter.putAll_append]
  cases BitWriter.putAll first writer with
  | ok _ writer => rfl
  | error fault writer => rfl

end Channel

namespace Workspace

/-- The arrays of a workspace for blocks of a size, when none is being coded. -/
structure Sized (workspace : Workspace) (size : Nat) : Prop where
  sorting : workspace.sorting.Sized size
  coding : workspace.coding.Sized

theorem size_resize (cells : Array Nat) (size : Nat) : (resize cells size).size = size := by
  simp [resize]
  omega

theorem ofSize_sized (size : Nat) : (ofSize size).Sized size :=
  ⟨⟨Array.size_replicate .., Array.size_replicate .., Array.size_replicate ..⟩,
    CodingSpace.empty_sized⟩

end Workspace

/-- A block is not full once it is written. -/
theorem Series.closeBlock_short (series : Series) : series.closeBlock.block.isFull = false := by
  rw [closeBlock]
  split
  · rename_i empty
    have vacant : series.block.bytes = #[] := by simpa [Block.isEmpty] using empty
    simp [Block.isFull, Block.size, vacant]
  · simp [advance, Block.isFull, Block.size, Block.cleared]

namespace Framer

/-- What was coded for a sorted block. -/
def summaryOf (sorted : SortedBlock) : CodingSpace.Summary :=
  ⟨sorted.coded.symbolCount, sorted.coded.choice.tables.length,
    sorted.coded.choice.selectors.length⟩

/-- A sorted block is coded in its storage, where the symbols, selectors and tables then stand. -/
theorem coded_spec {sorted : SortedBlock} {store : BlockStore} {sorting : SortSpace}
    (stored : sorted.StoredIn store sorting)
    (perm : sorted.order.Perm (List.finRange sorted.block.bytes.size))
    (covers : sorted.block.Covers) (small : sorted.block.bytes.size ≤ 900000)
    {space : CodingSpace} (sized : space.Sized) :
    let stream := SymbolStream.ofColumn sorted.block.present sorted.column
    ∃ generated coded,
      space.generate store sorting.order = some (stream.alphabet, generated) ∧ generated.Sized ∧
      generated.code stream.alphabet = some (sorted.coded.emissions, summaryOf sorted, coded) ∧
      coded.Chosen stream (CodedStream.ofSymbols stream).choice ∧
      CodingSpace.Begins coded.codes
        (CodingSpace.codeFronts (CodedStream.ofSymbols stream).choice.tables) := by
  intro stream
  obtain ⟨generated, generate, counted, kept⟩ := CodingSpace.generate_spec stored perm
    (SortedBlock.mem_present covers) sized
  have few := sorted.block.present.length_toList_le
  have length := SortedBlock.length_symbols_le perm
  obtain ⟨coded, code, chosen, codes⟩ := CodingSpace.code_spec counted kept
    (by simp [SymbolStream.ofColumn]) (Nat.add_le_add_right few 2) (by omega)
  exact ⟨generated, coded, generate, kept, code, chosen, codes⟩

/-- A sorted block is written from its storage, and the workspace is whole again when its arrays are
handed back, also after a failure. -/
theorem writeCoded_spec {sorted : SortedBlock} {store : BlockStore} {sorting : SortSpace}
    (stored : sorted.StoredIn store sorting)
    (perm : sorted.order.Perm (List.finRange sorted.block.bytes.size))
    (covers : sorted.block.Covers) (small : sorted.block.bytes.size ≤ 900000)
    {coding : CodingSpace} {size : Nat} (sized : Workspace.Sized ⟨sorting, coding⟩ size)
    (channel : Channel) :
    ∃ workspace,
      writeCoded store (Workspace.beginCoding ⟨sorting, coding⟩) channel =
        some (workspace,
          match Channel.emit (.fields sorted.block.present.mapFields :: sorted.coded.emissions)
            channel with
          | .ok _ channel => .ok (summaryOf sorted) channel
          | .error fault channel => .error fault channel) ∧
      workspace.endCoding.Sized size := by
  obtain ⟨order, starts, ranks, pending⟩ := sorting
  obtain ⟨symbols, counts, lengths, codes, selectors, selectorRanks⟩ := coding
  obtain ⟨⟨orderSize, startsSize, -⟩, coding⟩ := sized
  -- what the coding leaves behind does not matter, as long as its tables keep their sizes
  have whole {after : CodingSpace} (kept : after.Sized) :
      (Workspace.endCoding ⟨⟨order, starts, symbols, pending⟩, after⟩).Sized size := by
    refine ⟨⟨orderSize, startsSize, ?_⟩, ⟨kept.counts, kept.lengths, kept.codes⟩⟩
    have restored := Workspace.size_resize after.symbols (order.size + Block.margin + 1)
    exact restored.trans (congrArg (· + Block.margin + 1) orderSize)
  have same : sorted.StoredIn store ⟨order, starts, symbols, pending⟩ :=
    ⟨stored.shows, stored.last, stored.order⟩
  have fresh : CodingSpace.Sized ⟨#[], counts, lengths, codes, selectors, selectorRanks⟩ :=
    ⟨coding.counts, coding.lengths, coding.codes⟩
  obtain ⟨generated, coded, generate, kept, code, chosen, -⟩ :=
    coded_spec same perm covers small fresh
  rw [Workspace.beginCoding, writeCoded, Channel.emit]
  dsimp only at generate ⊢
  simp only [generate, Option.bind_eq_bind, Option.bind_some, stored.shows.present, Channel.emit]
  cases Channel.onWriter (BitWriter.putAll sorted.block.present.mapFields) channel with
  | error fault channel => exact ⟨_, rfl, whole kept⟩
  | ok _ channel =>
    simp only [code, Option.bind_some]
    cases Channel.emit sorted.coded.emissions channel with
    | error fault channel => exact ⟨_, rfl, whole chosen.sized⟩
    | ok _ channel => exact ⟨_, rfl, whole chosen.sized⟩

/-- A framer shows a series: its store shows the current block, and its workspace has its sizes. -/
structure Shows (framer : Framer) (series : Series) : Prop where
  level : framer.level = series.level
  store : framer.store.Shows series.block
  allowed : series.block.allowed + Block.margin = series.level.blockSize
  covers : series.block.Covers
  workspace : framer.workspace.Sized series.level.blockSize
  combined : framer.combined = series.combined
  written : framer.written = series.written
  perturbed : framer.perturbed = series.perturbed

/-- A call of a framer ends as an operation of the press does: it has a result, with the same fault
or none, the same channel, and a framer that shows the series of the press. -/
def Reflects (outcome : Outcome) (result : EStateM.Result Fault Press Unit) : Prop :=
  match result with
  | .ok _ press =>
    ∃ framer, outcome = some (.ok () ⟨framer, press.channel⟩) ∧ framer.Shows press.series
  | .error fault press =>
    ∃ framer, outcome = some (.error fault ⟨framer, press.channel⟩) ∧ framer.Shows press.series

theorem margin_le_blockSize (level : Level) : Block.margin ≤ level.blockSize := by
  have positive := level.one_le
  rw [Block.margin, Level.blockSize]
  omega

theorem blockSize_le (level : Level) : level.blockSize ≤ 900000 := by
  have bound := level.le_nine
  rw [Level.blockSize]
  omega

theorem ofLevel_shows (level : Level) : (ofLevel level).Shows (.ofLevel level) := by
  have wide := margin_le_blockSize level
  refine ⟨rfl, BlockStore.ofSize_shows wide, ?_, ?_, Workspace.ofSize_sized _, rfl, rfl, rfl⟩
  · simp only [Series.ofLevel, Block.ofSize]
    omega
  · simp [Series.ofLevel, Block.ofSize, Block.Covers]

variable {framer : Framer} {series : Series}

theorem Shows.start (shows : framer.Shows series) (channel : Channel) :
    Reflects (framer.start channel) (Press.openMember ⟨series, channel⟩) := by
  have restarted : ({ framer with combined := 0, store := framer.store.cleared } : Framer).Shows
      series.restart :=
    ⟨shows.level, shows.store.cleared, shows.allowed, Block.covers_cleared _, shows.workspace, rfl,
      shows.written, shows.perturbed⟩
  have fields : series.headerFields =
      ({ framer with combined := 0, store := framer.store.cleared } : Framer).headerFields := by
    rw [Series.headerFields, headerFields, ← shows.level]
  rw [Framer.start, Press.openMember, Press.onChannel, within]
  simp only [fields]
  cases Channel.emit _ channel with
  | ok _ channel => exact ⟨_, rfl, restarted⟩
  | error fault channel => exact ⟨_, rfl, restarted⟩

theorem Shows.endStream (shows : framer.Shows series) (channel : Channel) :
    Reflects (framer.endStream channel) (Press.writeTrailer ⟨series, channel⟩) := by
  rw [Framer.endStream, Press.writeTrailer]
  simp only [bind, EStateM.bind, get, getThe, MonadStateOf.get, EStateM.get, Press.onChannel,
    within, Series.trailerEmissions, ← shows.combined]
  cases Channel.emit _ channel with
  | error fault channel => exact ⟨_, rfl, shows⟩
  | ok _ channel =>
    dsimp only
    cases Channel.onWriter BitWriter.finish channel with
    | error fault channel => exact ⟨_, rfl, shows⟩
    | ok _ channel => exact ⟨_, rfl, shows⟩

/-- What is emitted for a block, in the order in which a framer gets at it. -/
theorem emit_emissions (sorted : SortedBlock) (number : Nat) (channel : Channel) :
    Channel.emit (sorted.emissions number) channel =
      match Channel.emit [.fields (Mark.block.map .byte ++ Field.word sorted.block.crc.value ++
          [.bit sorted.block.perturbed, ⟨UInt32.ofNat sorted.origin, 24⟩])]
        (sorted.overrunEvent.elim channel channel.note) with
      | .error fault channel => .error fault channel
      | .ok _ channel =>
        match Channel.emit (.fields sorted.block.present.mapFields :: sorted.coded.emissions)
          channel with
        | .error fault channel => .error fault channel
        | .ok _ channel => .ok () (channel.note (sorted.writtenEvent sorted.coded number)) := by
  have notes (rest : List Emission) : Channel.emit (sorted.overrunEvent.toList.map .note ++ rest)
      channel = Channel.emit rest (sorted.overrunEvent.elim channel channel.note) := by
    cases sorted.overrunEvent <;> rfl
  rw [SortedBlock.emissions, List.append_assoc, List.append_assoc, notes,
    SortedBlock.headerFields, List.singleton_append, Channel.emit_fields_append]
  generalize Mark.block.map .byte ++ Field.word sorted.block.crc.value ++
    [.bit sorted.block.perturbed, ⟨UInt32.ofNat sorted.origin, 24⟩] = fields
  have split : Emission.fields fields :: .fields sorted.block.present.mapFields ::
      (sorted.coded.emissions ++ [.note (sorted.writtenEvent sorted.coded number)]) =
        [.fields fields] ++ ((.fields sorted.block.present.mapFields :: sorted.coded.emissions) ++
          [.note (sorted.writtenEvent sorted.coded number)]) := rfl
  rw [split, Channel.emit_append]
  cases Channel.emit [.fields fields] (sorted.overrunEvent.elim channel channel.note) with
  | error fault channel => rfl
  | ok _ channel =>
    simp only [Channel.emit_append]
    cases Channel.emit (.fields sorted.block.present.mapFields :: sorted.coded.emissions)
      channel with
    | error fault channel => rfl
    | ok _ channel => rfl

theorem Shows.advance (shows : framer.Shows series) :
    ({ framer with
        store := framer.store.cleared
        written := framer.written + 1
        perturbed := if framer.store.perturbed then framer.perturbed + 1 else framer.perturbed } :
      Framer).Shows series.advance := by
  refine ⟨shows.level, shows.store.cleared, shows.allowed, Block.covers_cleared _, shows.workspace,
    shows.combined, by rw [shows.written]; rfl, ?_⟩
  rw [shows.store.perturbed, shows.perturbed]
  rfl

theorem Shows.sort (shows : framer.Shows series) (occupied : series.block.bytes.size ≠ 0) :
    let sorted := series.block.sort
    ∃ store sorting,
      framer.store.sort framer.workspace.sorting =
        some (sorted.origin, sorted.overrun, store, sorting) ∧
      sorted.StoredIn store sorting ∧ sorting.Sized series.level.blockSize ∧
      sorted.order.Perm (List.finRange sorted.block.bytes.size) ∧ sorted.block.Covers ∧
      sorted.block.bytes.size ≤ 899985 := by
  intro sorted
  have limit := blockSize_le series.level
  have room := shows.store.room
  have allowed := shows.allowed
  have size : sorted.block.bytes.size = series.block.bytes.size := Block.sort_size series.block
  rw [Block.margin] at allowed
  obtain ⟨store, sorting, sort, stored, kept⟩ :=
    shows.store.sort occupied shows.workspace.sorting shows.allowed (by
      simp only [SortSpace.mark]
      omega)
  exact ⟨store, sorting, sort, stored, kept, Block.sort_perm occupied, shows.covers.sort, by omega⟩

/-- Once its block is sorted, a framer shows the series with the sorted block. -/
theorem Shows.withSorted (shows : framer.Shows series) {store : BlockStore} {sorting : SortSpace}
    (sorted : series.block.sort.StoredIn store sorting) {workspace : Workspace}
    (whole : workspace.Sized series.level.blockSize) :
    (⟨framer.level, store, workspace, Crc.chain framer.combined framer.store.crc.value,
      framer.written, framer.perturbed⟩ : Framer).Shows (series.withSorted series.block.sort) := by
  refine ⟨shows.level, sorted.shows, ?_, shows.covers.sort, whole, ?_, shows.written,
    shows.perturbed⟩
  · exact (congrArg (· + Block.margin) (Block.sort_allowed series.block)).trans shows.allowed
  · rw [shows.combined, shows.store.crc]
    rfl

theorem written_eq {result : SortedBlock} {store : BlockStore} {sorting : SortSpace}
    (sorted : result.StoredIn store sorting) (number : Nat) :
    Event.blockWritten number store.size result.block.crc.value result.origin store.perturbed
        (summaryOf result).symbols (summaryOf result).tables (summaryOf result).selectors =
      result.writtenEvent result.coded number := by
  rw [sorted.shows.size, sorted.shows.perturbed, summaryOf, SortedBlock.writtenEvent, Block.size]

theorem Shows.endBlock (shows : framer.Shows series) (channel : Channel) :
    Reflects (framer.endBlock channel) (Press.writeBlock ⟨series, channel⟩) := by
  have sorts := shows.sort
  have unfinished := @shows.withSorted
  obtain ⟨level, store, ⟨sorting, coding⟩, combined, written, perturbed⟩ := framer
  obtain ⟨rfl, stored, allowed, covers, sized, rfl, rfl, rfl⟩ := shows
  have size : store.size = series.block.bytes.size := stored.size
  have emptiness : series.block.isEmpty = decide (series.block.bytes.size = 0) := rfl
  rw [Framer.endBlock, Press.writeBlock]
  simp only [size, emptiness, decide_eq_true_eq]
  by_cases empty : series.block.bytes.size = 0
  · rw [if_pos empty, if_pos empty]
    exact ⟨_, rfl, rfl, stored, allowed, covers, sized, rfl, rfl, rfl⟩
  · obtain ⟨after, left, sort, sorted, kept, perm, covered, small⟩ := sorts empty
    have unfinished {workspace : Workspace} := @unfinished after left sorted workspace
    rw [if_neg empty, if_neg empty, emit_emissions]
    simp only [sort, Option.bind_eq_bind, Option.bind_some]
    have crc : store.crc = series.block.sort.block.crc :=
      stored.crc.trans (Block.sort_crc series.block).symm
    rw [crc] at unfinished ⊢
    generalize series.block.sort = result at *
    have fields : blockFields after result.origin = Mark.block.map .byte ++
        Field.word result.block.crc.value ++
          [.bit result.block.perturbed, ⟨UInt32.ofNat result.origin, 24⟩] := by
      rw [blockFields, sorted.shows.crc, sorted.shows.perturbed]
    have event : (result.overrun.map fun overrun =>
        Event.sortOverrun overrun.work overrun.limit after.size) = result.overrunEvent := by
      rw [sorted.shows.size]
      rfl
    rw [event, fields]
    cases Channel.emit _ (result.overrunEvent.elim channel channel.note) with
    | error fault channel => exact ⟨_, rfl, unfinished ⟨kept, sized.coding⟩⟩
    | ok _ channel =>
      obtain ⟨workspace, coded, whole⟩ := writeCoded_spec sorted perm covered
        (by omega) ⟨kept, sized.coding⟩ channel
      simp only [coded, Option.bind_some]
      cases Channel.emit (.fields result.block.present.mapFields :: result.coded.emissions)
        channel with
      | error fault channel => exact ⟨_, rfl, unfinished whole⟩
      | ok _ channel =>
        dsimp only
        rw [written_eq sorted]
        exact ⟨_, rfl, (unfinished whole).advance⟩

section PushRun

variable {run : Run} {store : BlockStore} {channel left : Channel} {after : Framer}

theorem pushRun_added (offered : framer.store.offer run = some (true, store)) (channel : Channel) :
    framer.pushRun run channel = some (.ok () ⟨{ framer with store }, channel⟩) := by
  rw [Framer.pushRun]
  split <;> rename_i found <;> rw [offered] at found <;> cases found
  rfl

theorem pushRun_failed {fault : Fault} {press : FramerPress}
    (offered : framer.store.offer run = some (false, store))
    (failed : endBlock { framer with store } channel = some (.error fault press)) :
    framer.pushRun run channel = some (.error fault press) := by
  rw [Framer.pushRun]
  split <;> rename_i found <;> rw [offered] at found <;> cases found
  split <;> rename_i told <;> rw [failed] at told <;> cases told
  rfl

theorem pushRun_again (offered : framer.store.offer run = some (false, store))
    (ended : endBlock { framer with store } channel = some (.ok () ⟨after, left⟩)) :
    framer.pushRun run channel = after.pushRun run left := by
  rw [Framer.pushRun]
  split <;> rename_i found <;> rw [offered] at found <;> cases found
  split <;> rename_i told <;> rw [ended] at told <;> cases told
  rfl

end PushRun

/-- A run is added in storage as without. A full block is written first, and the next one has room
for the run. -/
theorem Shows.pushRun (shows : framer.Shows series) (run : Run) (channel : Channel) :
    Reflects (framer.pushRun run channel) (Press.add run ⟨series, channel⟩) := by
  have appended {framer : Framer} {series : Series} (shows : framer.Shows series)
      (short : series.block.isFull = false) (channel : Channel) :
      ∃ after, framer.pushRun run channel = some (.ok () ⟨after, channel⟩) ∧
        after.Shows (series.append run) := by
    obtain ⟨store, offered, stored⟩ := shows.store.offer run
    rw [short] at offered stored
    refine ⟨{ framer with store }, ?_, shows.level, stored, shows.allowed, shows.covers.append run,
      shows.workspace, shows.combined, shows.written, shows.perturbed⟩
    exact pushRun_added offered channel
  rw [Press.add]
  by_cases full : series.block.isFull
  · obtain ⟨store, offered, stored⟩ := shows.store.offer run
    rw [full] at offered stored
    have same : ({ framer with store } : Framer).Shows series :=
      ⟨shows.level, stored, shows.allowed, shows.covers, shows.workspace, shows.combined,
        shows.written, shows.perturbed⟩
    have ended := same.endBlock channel
    rw [if_pos full]
    cases told : Press.writeBlock ⟨series, channel⟩ with
    | error fault press =>
      rw [told] at ended
      obtain ⟨after, failed, shown⟩ := ended
      exact ⟨after, pushRun_failed offered failed, shown⟩
    | ok _ press =>
      rw [told] at ended
      obtain ⟨after, succeeded, shown⟩ := ended
      rw [pushRun_again offered succeeded]
      have closed := (Press.follows_writeBlock ⟨series, channel⟩).of_ok told
      exact appended shown (closed ▸ series.closeBlock_short) press.channel
  · rw [Bool.not_eq_true] at full
    simp only [full, Bool.false_eq_true, if_false]
    exact appended shows full channel

/-- What a press does at a call. -/
def pressed : Request → EStateM Fault Press Unit
  | .start => Press.openMember
  | .run run => Press.add run
  | .endBlock => Press.writeBlock
  | .endStream => Press.writeTrailer

/-- Every call is answered in storage as without. -/
theorem Shows.serve (shows : framer.Shows series) (request : Request) (channel : Channel) :
    Reflects (serve request framer channel) (pressed request ⟨series, channel⟩) := by
  cases request with
  | start => exact shows.start channel
  | run run => exact shows.pushRun run channel
  | endBlock => exact shows.endBlock channel
  | endStream => exact shows.endStream channel

end Framer

end BlockSort

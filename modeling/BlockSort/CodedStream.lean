import BlockSort.Channel
import BlockSort.Coding.Choice

namespace BlockSort.Coding

variable {n : Nat}

/-- A number in unary: as many ones, and a zero. -/
def unary (count : Nat) : Field :=
  ⟨((1 <<< UInt32.ofNat count) - 1) <<< 1, count + 1⟩

/-- The selectors after move-to-front over the tables in use, each in unary. -/
def selectorFields (tables : Nat) (selectors : List Nat) : List Field :=
  (Recency.ranks (List.range tables) selectors).map unary

/-- The steps from one code length to the next, `10` for one more and `11` for one less, closed by
a zero bit. -/
def stepFields (current next : Nat) : List Field :=
  List.replicate (next - current) ⟨0b10, 2⟩ ++ List.replicate (current - next) ⟨0b11, 2⟩ ++
    [.bit false]

/-- The steps along all code lengths of a table. -/
def lengthSteps : (current : Nat) → List Nat → List Field
  | _, [] => []
  | current, next :: rest => stepFields current next ++ lengthSteps next rest

/-- A table's code lengths: the first one, and the steps from it along all of them. -/
def tableFields (table : Vector Nat n) : List Field :=
  let first := table.toList.headD 0
  ⟨UInt32.ofNat first, 5⟩ :: lengthSteps first table.toList

/-- The code of each symbol as a field. -/
def codeFields (table : Vector Nat n) : Vector Field n :=
  let codes := (PrefixCode.codes table.toList).toArray
  Vector.ofFn fun symbol => ⟨codes.getD symbol 0, table.get symbol⟩

/-- The codes of all symbols, each group's by the table that it selected. -/
def symbolFields (groups : List (List (Fin n))) (choice : Choice n) : List Field :=
  let codes := (choice.tables.map codeFields).toArray
  (groups.zip choice.selectors).flatMap fun (group, selector) =>
    match codes[selector]? with
    | some code => group.map code.get
    | none => []

/-- All fields that carry the symbols of a block. -/
def fields (groups : List (List (Fin n))) (choice : Choice n) : List Field :=
  [⟨UInt32.ofNat choice.tables.length, 3⟩, ⟨UInt32.ofNat choice.selectors.length, 15⟩] ++
    selectorFields choice.tables.length choice.selectors ++
    choice.tables.flatMap tableFields ++ symbolFields groups choice

end BlockSort.Coding

namespace BlockSort

/-- A block's symbols with the tables chosen for them, ready to be written. -/
structure CodedStream where
  symbolCount : Nat
  alphabet : Nat
  groups : List (List (Fin alphabet))
  /-- The choices of all passes in order. -/
  passes : List (Coding.Choice alphabet)

namespace CodedStream

/-- Chooses tables for a stream of symbols. -/
def ofSymbols (stream : SymbolStream) : CodedStream :=
  let groups := Coding.groupsOf stream.symbols
  let tables := Coding.tableCount stream.symbols.length
  { symbolCount := stream.symbols.length
    alphabet := stream.alphabet
    groups
    passes := Coding.revisions groups Coding.passCount
      (Coding.firstTables tables (SymbolStream.histogram stream.symbols)) }

/-- The choice of the last pass. -/
def choice (stream : CodedStream) : Coding.Choice stream.alphabet :=
  stream.passes.getLast?.getD ⟨[], 0, []⟩

def fields (stream : CodedStream) : List Field := Coding.fields stream.groups stream.choice

/-- What is emitted for the symbols: a note of each pass, and then the fields. -/
def emissions (stream : CodedStream) : List Emission :=
  stream.passes.mapIdx (fun pass choice =>
    .note (.tablePass pass choice.selectors.length choice.bits)) ++ [.fields stream.fields]

/-- The selectors after move-to-front. -/
def selectorRanks (stream : CodedStream) : List Nat :=
  Recency.ranks (List.range stream.choice.tables.length) stream.choice.selectors

end CodedStream

end BlockSort

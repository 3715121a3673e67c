import BlockSort.CodedStream
import BlockSort.Storage.BlockStore
import BlockSort.Storage.NodeSpace

/-!
The storage in which the symbols of a block are coded. It is kept from block to block as well; only
the front of each table is used, as far as the alphabet of a block goes.
-/
namespace BlockSort

structure CodingSpace where
  symbols : Array Nat
  /-- How often each symbol occurs. -/
  counts : Array Nat
  /-- The code lengths of each table. -/
  lengths : Array (Array Nat)
  /-- The codes of each table. -/
  codes : Array (Array UInt32)
  /-- The selected table of each group. -/
  selectors : Array Nat
  /-- The selectors after move-to-front. -/
  selectorRanks : Array Nat

namespace CodingSpace

/-- The number of tables that are kept. -/
def tableLimit : Nat := 6

/-- The most selectors that a block may need. -/
def selectorLimit : Nat := 2 + 900000 / Coding.groupSize

def empty : CodingSpace :=
  { symbols := #[]
    counts := Array.replicate largestAlphabet 0
    lengths := Array.replicate tableLimit (Array.replicate largestAlphabet 0)
    codes := Array.replicate tableLimit (Array.replicate largestAlphabet 0)
    selectors := #[]
    selectorRanks := #[] }

/-- Adds symbols and counts them. -/
def push : List Nat → (symbols counts : Array Nat) → Option (Array Nat × Array Nat)
  | [], symbols, counts => some (symbols, counts)
  | symbol :: rest, symbols, counts => do
    push rest (symbols.push symbol) (← Cells.update counts symbol (some <| · + 1))

/-- Adds the symbols of a column. A value is known by its number among those in use, and the
numbers are kept in the order of their latest use; a value that is not in use has number 0. -/
def pushColumn (slots : Array UInt8) (numbers : List UInt8) :
    List Nat → (recent : List Nat) → (zeros : Nat) → (symbols counts : Array Nat) →
      Option (Array Nat × Array Nat)
  | [], _, zeros, symbols, counts => push (SymbolStream.zeroDigits zeros) symbols counts
  | position :: rest, recent, zeros, symbols, counts => do
    let number := (numbers.idxOf? (← slots[position]?)).getD 0
    let place ← recent.idxOf? number
    let recent := Recency.touch recent number
    if place = 0 then pushColumn slots numbers rest recent (zeros + 1) symbols counts
    else
      let (symbols, counts) ←
        push (SymbolStream.zeroDigits zeros ++ [place + 1]) symbols counts
      pushColumn slots numbers rest recent 0 symbols counts

/-- Finds the symbols of a sorted block and counts them, and gives the size of their alphabet. -/
def generate (store : BlockStore) (order : Array Nat) (space : CodingSpace) :
    Option (Nat × CodingSpace) := do
  let numbers := store.present.toList
  let positions ← Cells.front order store.size
  let ⟨_, counts, lengths, codes, selectors, selectorRanks⟩ := space
  let (symbols, counts) ←
    pushColumn store.slots numbers positions (List.range numbers.length) 0 #[]
      (Array.replicate counts.size 0)
  let (symbols, counts) ← push [numbers.length + 1] symbols counts
  return (numbers.length + 2, ⟨symbols, counts, lengths, codes, selectors, selectorRanks⟩)

/-- Writes the fronts of tables, the first one first. -/
def putFronts {α : Type} : (table : Nat) → List (List α) → Array (Array α) →
    Option (Array (Array α))
  | _, [], tables => some tables
  | table, front :: rest, tables => do
    putFronts (table + 1) rest (← Cells.update tables table (Cells.putAll · 0 front))

/-- The fronts of the first tables. -/
def fronts {α : Type} (tables : Array (Array α)) (count alphabet : Nat) :
    Option (List (Vector α alphabet)) :=
  (List.range count).mapM fun table => do
    let front ← Cells.front (← tables[table]?) alphabet
    if fits : front.length = alphabet then some ⟨front.toArray, by simpa using fits⟩ else none

/-- The symbols as members of an alphabet. -/
def members (symbols : Array Nat) (alphabet : Nat) : Option (List (Fin alphabet)) :=
  symbols.toList.mapM fun symbol =>
    if inside : symbol < alphabet then some ⟨symbol, inside⟩ else none

/-- Makes a first guess for each table. -/
def seed (tables alphabet : Nat) (space : CodingSpace) : Option CodingSpace := do
  let ⟨symbols, counts, lengths, codes, selectors, selectorRanks⟩ := space
  let frequencies ← Cells.front counts alphabet
  let slices ← Coding.Slice.cutChecked tables tables 0 symbols.size frequencies
  let guesses := (slices.map fun slice => (Coding.firstTable alphabet slice).toList).reverse
  let lengths ← putFronts 0 guesses lengths
  return ⟨symbols, counts, lengths, codes, selectors, selectorRanks⟩

/-- The code lengths for the symbols that a table serves. -/
def rebuild {alphabet : Nat} (symbols : List (Fin alphabet)) : Option (List Nat) :=
  NodeSpace.lengths ((SymbolStream.histogram symbols).map UInt32.ofNat).toList Coding.longestCode

/-- One pass: the groups select from the tables, and the tables are rebuilt. Gives the bits that
the groups need with the tables that they selected from. -/
def refine (tables alphabet : Nat) (space : CodingSpace) : Option (Nat × CodingSpace) := do
  let ⟨symbols, counts, lengths, codes, _, selectorRanks⟩ := space
  let groups := Coding.groupsOf (← members symbols alphabet)
  let selections := groups.map (Coding.cheapest (← fronts lengths tables alphabet))
  let selectors := selections.map Prod.fst
  let rebuilt ← (List.range tables).mapM fun table =>
    rebuild (Coding.symbolsOf groups selectors table)
  let lengths ← putFronts 0 rebuilt lengths
  return ((selections.map Prod.snd).foldl (· + ·) 0,
    ⟨symbols, counts, lengths, codes, selectors.toArray, selectorRanks⟩)

/-- Passes in order, each with a note of its groups and bits. -/
def refineAll (tables alphabet : Nat) :
    (count pass : Nat) → CodingSpace → Option (List Emission × CodingSpace)
  | 0, _, space => some ([], space)
  | count + 1, pass, space => do
    let (bits, space) ← refine tables alphabet space
    let note := Emission.note (.tablePass pass space.selectors.size bits)
    let (notes, space) ← refineAll tables alphabet count (pass + 1) space
    return (note :: notes, space)

/-- The place of each selector in the order of latest use. A selector names a table in use. -/
def rankSelectors : List Nat → (recent : List Nat) → (ranks : Array Nat) → Option (Array Nat)
  | [], _, ranks => some ranks
  | selector :: rest, recent, ranks => do
    rankSelectors rest (Recency.touch recent selector) (ranks.push (← recent.idxOf? selector))

/-- The number of code lengths that are told apart. -/
def lengthLimit : Nat := 256

/-- How often each code length occurs. -/
def countLengths (lengths : List Nat) : Option (Array UInt32) :=
  lengths.foldlM (fun counts length => Cells.update counts length (some <| · + 1))
    (Array.replicate lengthLimit 0)

/-- Puts down the first code of each length from the given one on. It follows the codes of the
length before, with one bit more. -/
def numberLengths (counts : Array UInt32) :
    (todo length : Nat) → (code : UInt32) → (next : Array UInt32) → Option (Array UInt32)
  | 0, _, _, next => some next
  | todo + 1, length, code, next => do
    let next ← Cells.put next length code
    numberLengths counts todo (length + 1) ((code + (← counts[length]?)) <<< 1) next

/-- Gives each symbol the next code of its length. -/
def takeCodes : (lengths : List Nat) → (next : Array UInt32) → Option (List UInt32)
  | [], _ => some []
  | length :: rest, next => do
    let code ← next[length]?
    return code :: (← takeCodes rest (← Cells.put next length (code + 1)))

/-- The codes of symbols with the given lengths. -/
def number (lengths : List Nat) : Option (List UInt32) := do
  let counts ← countLengths lengths
  let next ← numberLengths counts (lengths.foldl max 0) 1 0 (Array.replicate lengthLimit 0)
  takeCodes lengths next

/-- Assigns the codes of the first tables. Every code length is within its limits. -/
def assign (tables alphabet : Nat) (space : CodingSpace) : Option CodingSpace := do
  let ⟨symbols, counts, lengths, codes, selectors, selectorRanks⟩ := space
  let found ← fronts lengths tables alphabet
  if found.all fun table => table.all fun length => 1 ≤ length && length ≤ Coding.longestCode then
    let codes ← putFronts 0 (← found.mapM fun table => number table.toList) codes
    return ⟨symbols, counts, lengths, codes, selectors, selectorRanks⟩
  else none

/-- The field of a symbol in a table. -/
def symbolField (space : CodingSpace) (table symbol : Nat) : Option Field := do
  return ⟨← (← space.codes[table]?)[symbol]?, ← (← space.lengths[table]?)[symbol]?⟩

/-- The fields of all symbols, each group's by the table that it selected. -/
def symbolFields (space : CodingSpace) : List (List Nat × Nat) → Option (List Field)
  | [] => some []
  | (group, table) :: rest => do
    return (← group.mapM (symbolField space table)) ++ (← symbolFields space rest)

/-- All fields that carry the symbols, as they stand in the storage. -/
def fields (tables alphabet : Nat) (space : CodingSpace) : Option (List Field) := do
  let found ← fronts space.lengths tables alphabet
  let groups := Coding.groupsOf space.symbols.toList
  let symbols ← symbolFields space (groups.zip space.selectors.toList)
  return [⟨UInt32.ofNat tables, 3⟩, ⟨UInt32.ofNat space.selectors.size, 15⟩] ++
    space.selectorRanks.toList.map Coding.unary ++ found.flatMap Coding.tableFields ++ symbols

/-- What was coded: the symbols, and the tables and selectors that they took. -/
structure Summary where
  symbols : Nat
  tables : Nat
  selectors : Nat

/-- Chooses tables for the symbols and lays out all that is emitted for them. -/
def code (alphabet : Nat) (space : CodingSpace) :
    Option (List Emission × Summary × CodingSpace) := do
  let tables := Coding.tableCount space.symbols.size
  let space ← seed tables alphabet space
  let (notes, space) ← refineAll tables alphabet Coding.passCount 0 space
  if space.selectors.size ≤ selectorLimit then
    let ranks ← rankSelectors space.selectors.toList (List.range tables) #[]
    let space ← assign tables alphabet { space with selectorRanks := ranks }
    let fields ← fields tables alphabet space
    return (notes ++ [.fields fields],
      ⟨space.symbols.size, tables, space.selectors.size⟩, space)
  else none

end CodingSpace

end BlockSort

import BlockSort.Perturbation.Steps
import BlockSort.Proofs.Bits

/-!
The reading side of the format. It shares no code with the writing side but the table of
perturbation steps, which the format fixes: codes are read by counting, rotations are undone by
following links, and checksums are computed bit by bit.
-/
namespace BlockSort.Decoder

/-- Reads from the front of the bits that are left, or fails. -/
abbrev Reader (α : Type) := StateT (List Bool) Option α

namespace Reader

variable {α : Type}

def check (condition : Prop) [Decidable condition] : Reader Unit := fun bits =>
  if condition then some ((), bits) else none

/-- Goes on with a value, if there is one. -/
def ofOption (value : Option α) : Reader α := fun bits => value.map (·, bits)

def flags (count : Nat) : Reader (List Bool) := fun bits =>
  if count ≤ bits.length then some (bits.take count, bits.drop count) else none

def flag : Reader Bool
  | [] => none
  | bit :: rest => some (bit, rest)

/-- A number of the given width, highest bit first. -/
def number (width : Nat) : Reader Nat := do
  let bits ← flags width
  return Bits.toNat bits

/-- A number in unary: as many ones, and a zero. -/
def unary : Reader Nat
  | [] => none
  | false :: rest => some (0, rest)
  | true :: rest =>
    match unary rest with
    | some (count, rest) => some (count + 1, rest)
    | none => none

end Reader

open Reader

/-- The byte values in use: which of the sixteen ranges have members, and the flags of those. -/
def symbolMap : Reader (List UInt8) := do
  let ranges ← flags 16
  let members ← ((List.range 16).zip ranges).mapM fun (high, used) =>
    if used then do
      let lows ← flags 16
      return ((List.range 16).zip lows).filterMap fun (low, present) =>
        if present then some (UInt8.ofNat (16 * high + low)) else none
    else return []
  return members.flatten

/-- Undoes move-to-front: every place is replaced by the item that stands there at its turn. -/
def undoRecency {α : Type} : (recent : List α) → (places : List Nat) → Option (List α)
  | _, [] => some []
  | recent, place :: rest =>
    match recent[place]? with
    | some item => (undoRecency (item :: recent.eraseIdx place) rest).map (item :: ·)
    | none => none

/-- The selected table of each group: unary places after move-to-front over the tables. -/
def selectors (tables count : Nat) : Reader (List Nat) := do
  let places ← (List.range count).mapM fun _ => unary
  ofOption (undoRecency (List.range tables) places)

/-- The longest code in a table. -/
def longestCode : Nat := 20

/-- A code length, reached by steps of one up or down from the current one. On the way it stays
within the limits. -/
def length (current : Nat) : Reader Nat := fun bits =>
  if 1 ≤ current ∧ current ≤ longestCode then
    match bits with
    | false :: rest => some (current, rest)
    | true :: false :: rest => length (current + 1) rest
    | true :: true :: rest => length (current - 1) rest
    | _ => none
  else none

/-- Code lengths, each of which is reached from the one before. -/
def lengths : (count current : Nat) → Reader (List Nat)
  | 0, _ => return []
  | count + 1, current => do
    let first ← length current
    let rest ← lengths count first
    return first :: rest

/-- The code lengths of one table. -/
def table (alphabet : Nat) : Reader (List Nat) := do
  let start ← number 5
  lengths alphabet start

/-- The symbols whose codes have a given length, in ascending order. -/
def symbolsOfLength (table : List Nat) (length : Nat) : List Nat :=
  (List.range table.length).filter fun symbol => table[symbol]? = some length

/-- Reads a canonical code bit by bit. The codes of one length are consecutive from `first` on; a
larger number is the start of a longer code. -/
def symbolFrom (table : List Nat) : (rounds length code first : Nat) → Reader Nat
  | 0, _, _, _ => fun _ => none
  | rounds + 1, length, code, first => do
    let bit ← flag
    let code := 2 * code + bit.toNat
    let symbols := symbolsOfLength table length
    match if first ≤ code then symbols[code - first]? else none with
    | some symbol => return symbol
    | none => symbolFrom table rounds (length + 1) code (2 * (first + symbols.length))

def symbol (table : List Nat) : Reader Nat := symbolFrom table longestCode 1 0 0

/-- The number of symbols that share a table. -/
def groupSize : Nat := 50

/-- The symbols of a group, and whether the end symbol was met after them. -/
def group (table : List Nat) (last : Nat) : (count : Nat) → Reader (List Nat × Bool)
  | 0 => return ([], false)
  | count + 1 => do
    let first ← symbol table
    if first = last then return ([], true)
    else
      let (rest, ended) ← group table last count
      return (first :: rest, ended)

/-- All symbols before the end symbol, in groups that use the selected tables. -/
def groups (tables : List (List Nat)) (last : Nat) : (selectors : List Nat) → Reader (List Nat)
  | [] => fun _ => none
  | selector :: rest => do
    let table ← ofOption tables[selector]?
    let (symbols, ended) ← group table last groupSize
    if ended then return symbols
    else
      let others ← groups tables last rest
      return symbols ++ others

/-- The symbols of a block with the tables that they were coded by. -/
structure Coding where
  selectors : List Nat
  tables : List (List Nat)
  symbols : List Nat
  deriving DecidableEq

def coding (alphabet : Nat) : Reader Coding := do
  let tableCount ← number 3
  check (2 ≤ tableCount ∧ tableCount ≤ 6)
  let selectorCount ← number 15
  check (1 ≤ selectorCount)
  let selectors ← selectors tableCount selectorCount
  let tables ← (List.range tableCount).mapM fun _ => table alphabet
  let symbols ← groups tables (alphabet - 1) selectors
  return { selectors, tables, symbols }

/-- Undoes the runs of zeros. In a run, whose digits come lowest first, symbol 0 adds the current
weight and symbol 1 adds it twice; every other symbol is one more than its place. -/
def expandZeros : (weight zeros : Nat) → (symbols : List Nat) → List Nat
  | _, zeros, [] => List.replicate zeros 0
  | weight, zeros, symbol :: rest =>
    if symbol ≤ 1 then expandZeros (2 * weight) (zeros + (symbol + 1) * weight) rest
    else List.replicate zeros 0 ++ (symbol - 1) :: expandZeros 1 0 rest

/-- The rows of a column in the order of their bytes, equal bytes in the order of the rows. -/
def links (column : List UInt8) : List Nat :=
  ((List.range 256).map UInt8.ofNat).flatMap fun byte =>
    (List.range column.length).filter fun row => column[row]? = some byte

/-- The bytes of a column that are met on the way along links. -/
def follow (column : List UInt8) (links : List Nat) : (count row : Nat) → List UInt8
  | 0, _ => []
  | count + 1, row =>
    let row := links.getD row 0
    column.getD row 0 :: follow column links count row

/-- Undoes the sort of rotations, given the row of the unrotated text. -/
def unrotate (column : List UInt8) (origin : Nat) : List UInt8 :=
  follow column (links column) column.length origin

/-- Which bytes a perturbation flips, along one pass through the table of steps: in every step the
last byte but one. -/
def flips : List Bool :=
  Perturbation.steps.toList.flatMap fun step => List.replicate (step - 2) false ++ [true, false]

/-- Undoes a perturbation. -/
def unperturb (bytes : List UInt8) : List UInt8 :=
  bytes.mapIdx fun place byte =>
    if flips.getD (place % flips.length) false then byte ^^^ 1 else byte

/-- Undoes the encoding of runs: after four equal bytes stands the number of further ones. -/
def expandRuns : (count : Nat) → (previous : UInt8) → List UInt8 → Option (List UInt8)
  | count, _, [] => if count = 4 then none else some []
  | count, previous, byte :: rest =>
    if count = 4 then
      (expandRuns 0 previous rest).map (List.replicate byte.toNat previous ++ ·)
    else if count ≠ 0 ∧ byte = previous then (expandRuns (count + 1) byte rest).map (byte :: ·)
    else (expandRuns 1 byte rest).map (byte :: ·)

/-- Takes one bit into a checksum. -/
def crcStep (register : UInt32) (bit : Bool) : UInt32 :=
  if (decide (0x80000000 ≤ register) != bit) then (register <<< 1) ^^^ 0x04C11DB7
  else register <<< 1

/-- The checksum of a byte string, bit by bit. -/
def crc (bytes : List UInt8) : Nat :=
  (~~~((Bits.ofBytes bytes).foldl crcStep 0xFFFFFFFF)).toNat

/-- The checksum of a member, made of those of its blocks. -/
def combine (combined block : Nat) : Nat :=
  (2 * combined % 2 ^ 32 + combined / 2 ^ 31) ^^^ block

structure Block where
  /-- The checksum in the header. -/
  crc : Nat
  randomised : Bool
  origin : Nat
  coding : Coding
  /-- The bytes with their runs encoded. -/
  encoded : List UInt8
  data : List UInt8
  deriving DecidableEq

/-- A block after its mark, with at most the given number of encoded bytes. -/
def block (limit : Nat) : Reader Block := do
  let crc ← number 32
  let randomised ← flag
  let origin ← number 24
  let present ← symbolMap
  let coding ← coding (present.length + 2)
  let column ← ofOption (undoRecency present (expandZeros 1 0 coding.symbols))
  check (column.length ≤ limit ∧ origin < column.length)
  let rotated := unrotate column origin
  let encoded := if randomised then unperturb rotated else rotated
  let data ← ofOption (expandRuns 0 0 encoded)
  check (Decoder.crc data = crc)
  return { crc, randomised, origin, coding, encoded, data }

/-- The mark before a block. -/
def blockMark : Nat := 0x314159265359

/-- The mark at the end of a member. -/
def endMark : Nat := 0x177245385090

/-- The blocks of a member up to its end mark. -/
def blocks (limit : Nat) : (rounds : Nat) → Reader (List Block)
  | 0 => fun _ => none
  | rounds + 1 => do
    let mark ← number 48
    if mark = blockMark then
      let first ← block limit
      let rest ← blocks limit rounds
      return first :: rest
    else
      check (mark = endMark)
      return []

structure Member where
  level : Nat
  blocks : List Block
  deriving DecidableEq

namespace Member

def data (member : Member) : List UInt8 := member.blocks.flatMap Block.data

end Member

/-- A member up to its last checksum. Every block takes a bit at least, which bounds their
number. -/
def member : Reader Member := do
  let mark ← number 24
  check (mark = 0x425A68)
  let digit ← number 8
  check (0x31 ≤ digit ∧ digit ≤ 0x39)
  let level := digit - 0x30
  let left ← get
  let blocks ← blocks (100000 * level) left.length
  let combined ← number 32
  check ((blocks.map Block.crc).foldl combine 0 = combined)
  return { level, blocks }

/-- Reads a byte string that consists of one member. -/
def decode (bytes : List UInt8) : Option Member :=
  match member (Bits.ofBytes bytes) with
  | some (member, rest) =>
    if rest.length < 8 ∧ rest.all (! ·) then some member else none
  | none => none

/-- What completes the byte in which a member ends: zeros, up to the next whole byte. -/
def padding : Reader Unit := fun bits =>
  if (bits.take (bits.length % 8)).all (! ·) then some ((), bits.drop (bits.length % 8)) else none

/-- Padded members up to the end of the bits. -/
def members : (rounds : Nat) → Reader (List Member)
  | 0 => fun bits => if bits.isEmpty then some ([], []) else none
  | rounds + 1 => fun bits =>
    if bits.isEmpty then some ([], [])
    else
      (do
        let first ← member
        padding
        let rest ← members rounds
        return first :: rest : Reader (List Member)) bits

/-- Reads a byte string that consists of members. Every member takes a bit at least, which bounds
their number. -/
def decodeAll (bytes : List UInt8) : Option (List Member) :=
  (members (Bits.ofBytes bytes).length (Bits.ofBytes bytes)).map (·.1)

end BlockSort.Decoder

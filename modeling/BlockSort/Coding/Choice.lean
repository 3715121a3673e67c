import BlockSort.Coding.Slice
import BlockSort.PrefixCode.Lengths
import BlockSort.SymbolStream

/-!
The choice of code tables for a block. Symbols are coded in groups, each with one of the tables. In
every pass each group selects the table that codes it with the fewest bits, and each table is then
rebuilt for the groups that selected it.
-/
namespace BlockSort.Coding

variable {n : Nat}

/-- The number of symbols that share a table. -/
def groupSize : Nat := 50

/-- The longest code in a table. -/
def longestCode : Nat := 20

/-- How often the choice is revised. -/
def passCount : Nat := 4

/-- Cuts symbols into groups; the last one may be shorter. -/
def groupsOf {α : Type} (symbols : List α) : List (List α) :=
  match symbols with
  | [] => []
  | first :: rest => (first :: rest.take (groupSize - 1)) :: groupsOf (rest.drop (groupSize - 1))
termination_by symbols.length
decreasing_by
  simp only [List.length_drop, List.length_cons]
  omega

/-- The bits that a table needs for a group. -/
def cost (table : Vector Nat n) (group : List (Fin n)) : Nat :=
  group.foldl (fun bits symbol => bits + table.get symbol) 0

/-- What a group selects: the first table of least cost, and that cost. -/
def cheapest (tables : List (Vector Nat n)) (group : List (Fin n)) : Nat × Nat :=
  let costs := tables.map (cost · group)
  let least := costs.min?.getD 0
  (costs.idxOf least, least)

/-- The symbols of all groups that selected a table. -/
def symbolsOf (groups : List (List (Fin n))) (selectors : List Nat) (table : Nat) :
    List (Fin n) :=
  (groups.zip selectors).flatMap fun (group, selector) =>
    if selector = table then group else []

/-- The table whose code lengths suit the given symbols. -/
def tableFor (symbols : List (Fin n)) : Vector Nat n :=
  PrefixCode.lengths ((SymbolStream.histogram symbols).map UInt32.ofNat) longestCode

/-- A choice of tables: the selected table of each group, the bits of all groups under the tables
that they selected from, and the tables as rebuilt for them. -/
structure Choice (n : Nat) where
  selectors : List Nat
  bits : Nat
  tables : List (Vector Nat n)

/-- One pass: groups select from the tables, and the tables are rebuilt. -/
def revise (groups : List (List (Fin n))) (tables : List (Vector Nat n)) : Choice n :=
  let selections := groups.map (cheapest tables)
  let selectors := selections.map Prod.fst
  { selectors
    bits := (selections.map Prod.snd).foldl (· + ·) 0
    tables := (List.range tables.length).map fun table =>
      tableFor (symbolsOf groups selectors table) }

/-- The given number of passes, each with the tables of the one before. -/
def revisions (groups : List (List (Fin n))) :
    (passes : Nat) → List (Vector Nat n) → List (Choice n)
  | 0, _ => []
  | passes + 1, tables =>
    let choice := revise groups tables
    choice :: revisions groups passes choice.tables

end BlockSort.Coding

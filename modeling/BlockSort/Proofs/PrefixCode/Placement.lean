import Mathlib

namespace BlockSort.PrefixCode

/-- A tree as a part of a larger one: the total of its leaves and its height. -/
@[ext]
structure Load where
  total : Nat
  height : Nat

namespace Load

/-- Loads are compared by their totals, and those of equal totals by their heights. -/
def rank (load : Load) : Nat ×ₗ Nat := toLex (load.total, load.height)

/-- Two trees under a node. -/
def join (first second : Load) : Load :=
  ⟨first.total + second.total, 1 + max first.height second.height⟩

theorem rank_le_iff {one other : Load} : one.rank ≤ other.rank ↔
    one.total < other.total ∨ one.total = other.total ∧ one.height ≤ other.height :=
  Prod.Lex.toLex_le_toLex

end Load

/-- Trees, each at a depth. -/
abbrev Placement := Multiset (Load × Nat)

namespace Placement

def loads (placement : Placement) : Multiset Load := placement.map Prod.fst

def depths (placement : Placement) : Multiset Nat := placement.map Prod.snd

/-- The length of all codes that are used, as far as the depths of the trees count. -/
def cost (placement : Placement) : Nat := (placement.map fun part => part.1.total * part.2).sum

/-- The depth of the deepest leaf. -/
def reach (placement : Placement) : Nat := (placement.map fun part => part.2 + part.1.height).sup

/-- What of the code space is taken. -/
def share (placement : Placement) : ℚ := (placement.map fun part => (1 / 2 : ℚ) ^ part.2).sum

/-- Placements are compared by their cost, and those of equal cost by their reach. -/
def measure (placement : Placement) : Nat ×ₗ Nat := toLex (placement.cost, placement.reach)

variable {one other placement : Placement} (load : Load) (depth : Nat)

@[simp]
theorem loads_cons : loads ((load, depth) ::ₘ placement) = load ::ₘ placement.loads :=
  Multiset.map_cons ..

@[simp]
theorem depths_cons : depths ((load, depth) ::ₘ placement) = depth ::ₘ placement.depths :=
  Multiset.map_cons ..

@[simp]
theorem cost_cons : cost ((load, depth) ::ₘ placement) = load.total * depth + placement.cost := by
  simp [cost]

@[simp]
theorem reach_cons :
    reach ((load, depth) ::ₘ placement) = max (depth + load.height) placement.reach := by
  simp [reach]

@[simp]
theorem share_cons :
    share ((load, depth) ::ₘ placement) = (1 / 2 : ℚ) ^ depth + placement.share := by
  simp [share]

@[simp]
theorem loads_add : (one + other).loads = one.loads + other.loads := Multiset.map_add ..

@[simp]
theorem cost_add : (one + other).cost = one.cost + other.cost := by simp [cost]

@[simp]
theorem reach_add : (one + other).reach = max one.reach other.reach := by simp [reach]

@[simp]
theorem share_add : (one + other).share = one.share + other.share := by simp [share]

theorem measure_le_iff : one.measure ≤ other.measure ↔
    one.cost < other.cost ∨ one.cost = other.cost ∧ one.reach ≤ other.reach :=
  Prod.Lex.toLex_le_toLex

theorem measure_le (cheaper : one.cost ≤ other.cost) (lower : one.reach ≤ other.reach) :
    one.measure ≤ other.measure := by
  rw [measure_le_iff]
  omega

theorem measure_cons_le (better : one.measure ≤ other.measure) :
    measure ((load, depth) ::ₘ one) ≤ measure ((load, depth) ::ₘ other) := by
  rw [measure_le_iff] at better ⊢
  simp only [cost_cons, reach_cons]
  omega

theorem exists_cons_of_load {rest : Multiset Load} {load : Load}
    (same : placement.loads = load ::ₘ rest) :
    ∃ (depth : Nat) (left : Placement), placement = (load, depth) ::ₘ left ∧ left.loads = rest := by
  obtain ⟨⟨found, depth⟩, inside, rfl⟩ :=
    Multiset.mem_map.mp (same ▸ Multiset.mem_cons_self load rest)
  obtain ⟨left, rfl⟩ := Multiset.exists_cons_of_mem inside
  rw [loads_cons, Multiset.cons_inj_right] at same
  exact ⟨depth, left, rfl, same⟩

theorem exists_cons_of_depth {rest : Multiset Nat} {depth : Nat}
    (same : placement.depths = depth ::ₘ rest) :
    ∃ (load : Load) (left : Placement),
      placement = (load, depth) ::ₘ left ∧ left.depths = rest := by
  obtain ⟨⟨load, found⟩, inside, rfl⟩ :=
    Multiset.mem_map.mp (same ▸ Multiset.mem_cons_self depth rest)
  obtain ⟨left, rfl⟩ := Multiset.exists_cons_of_mem inside
  rw [depths_cons, Multiset.cons_inj_right] at same
  exact ⟨load, left, rfl, same⟩

/-- A lighter tree that changes places with a deeper one makes nothing worse. -/
theorem measure_exchange {light heavy : Load} {high low : Nat} (lighter : light.rank ≤ heavy.rank)
    (deeper : high ≤ low) :
    measure ((light, low) ::ₘ (heavy, high) ::ₘ placement) ≤
      measure ((light, high) ::ₘ (heavy, low) ::ₘ placement) := by
  obtain ⟨step, rfl⟩ := Nat.exists_eq_add_of_le deeper
  rw [Load.rank_le_iff] at lighter
  rw [measure_le_iff]
  simp only [cost_cons, reach_cons, Nat.mul_add]
  rcases lighter with lighter | ⟨same, lower⟩
  · have cheaper := Nat.mul_le_mul_right step (Nat.le_of_lt lighter)
    rcases Nat.eq_zero_or_pos step with rfl | moved
    · right
      omega
    · have less := Nat.mul_lt_mul_of_pos_right lighter moved
      omega
  · right
    rw [same]
    omega

/-- The lightest tree may as well stand at the greatest depth. -/
theorem exists_deepest {light : Load} {others : Multiset Load} {deepest : Nat}
    {rest : Multiset Nat} (loads : placement.loads = light ::ₘ others)
    (depths : placement.depths = deepest ::ₘ rest)
    (lightest : ∀ load ∈ others, light.rank ≤ load.rank) (deep : ∀ depth ∈ rest, depth ≤ deepest) :
    ∃ left : Placement, left.loads = others ∧ left.depths = rest ∧
      measure ((light, deepest) ::ₘ left) ≤ placement.measure := by
  obtain ⟨depth, left, rfl, same⟩ := exists_cons_of_load loads
  rw [depths_cons] at depths
  by_cases settled : depth = deepest
  · subst settled
    exact ⟨left, same, (Multiset.cons_inj_right _).mp depths, le_rfl⟩
  · obtain ⟨found, -⟩ | ⟨-, between, below, rfl⟩ := Multiset.cons_eq_cons.mp depths
    · exact absurd found settled
    obtain ⟨heavy, last, rfl, rfl⟩ := exists_cons_of_depth below
    refine ⟨(heavy, depth) ::ₘ last, by simpa using same, depths_cons .., ?_⟩
    refine measure_exchange (lightest heavy ?_) (deep depth (Multiset.mem_cons_self _ _))
    rw [← same]
    simp

/-- A share is a whole number of places at any depth that no tree is below. -/
theorem exists_share_eq {depth : Nat} (bounded : ∀ other ∈ placement.depths, other ≤ depth) :
    ∃ count : Nat, placement.share = count * (1 / 2 : ℚ) ^ depth := by
  induction placement using Multiset.induction_on with
  | empty => exact ⟨0, by simp [share]⟩
  | cons part rest ih =>
    obtain ⟨load, other⟩ := part
    simp only [depths_cons, Multiset.mem_cons, forall_eq_or_imp] at bounded
    obtain ⟨count, same⟩ := ih bounded.2
    obtain ⟨step, rfl⟩ := Nat.exists_eq_add_of_le bounded.1
    refine ⟨2 ^ step + count, ?_⟩
    have whole : (2 : ℚ) ^ step * (1 / 2) ^ step = 1 := by rw [← mul_pow]; norm_num
    rw [share_cons, same, pow_add]
    push_cast
    linear_combination -((1 / 2 : ℚ) ^ other) * whole

/-- The deepest tree can be lifted to the depth of the second deepest. -/
theorem share_lift {load : Load} {high low : Nat} (above : high ≤ low)
    (bounded : ∀ depth ∈ placement.depths, depth ≤ high)
    (room : share ((load, low) ::ₘ placement) ≤ 1) :
    share ((load, high) ::ₘ placement) ≤ 1 := by
  rcases Nat.eq_or_lt_of_le above with rfl | below
  · exact room
  · obtain ⟨count, same⟩ := exists_share_eq bounded
    rw [share_cons, same, div_pow, one_pow] at room ⊢
    have positive : (0 : ℚ) < 1 / 2 ^ low := by positivity
    have less : (count : ℚ) < 2 ^ high := by
      rw [← div_lt_one (by positivity : (0 : ℚ) < 2 ^ high), div_eq_mul_one_div]
      simp only [div_pow, one_pow] at room
      linarith
    have next : (count : ℚ) + 1 ≤ 2 ^ high := by exact_mod_cast less
    rw [← one_add_mul, mul_one_div, div_le_one (by positivity), add_comm]
    exact next

theorem share_congr (same : one.depths = other.depths) : one.share = other.share := by
  have read (placement : Placement) :
      placement.share = (placement.depths.map fun depth => (1 / 2 : ℚ) ^ depth).sum := by
    rw [share, depths, Multiset.map_map]
    rfl
  rw [read, read, same]

theorem exists_cons_deepest (nonempty : placement ≠ 0) :
    ∃ (load : Load) (depth : Nat) (rest : Placement), placement = (load, depth) ::ₘ rest ∧
      ∀ other ∈ rest.depths, other ≤ depth := by
  obtain ⟨⟨load, depth⟩, inside, deepest⟩ := Multiset.exists_max_image Prod.snd nonempty
  obtain ⟨rest, rfl⟩ := Multiset.exists_cons_of_mem inside
  refine ⟨load, depth, rest, rfl, fun other member => ?_⟩
  obtain ⟨part, present, rfl⟩ := Multiset.mem_map.mp member
  exact deepest part (Multiset.mem_cons_of_mem present)

/-- Several trees may as well be placed so that no tree is deeper than two others. -/
theorem exists_level (several : 2 ≤ Multiset.card placement) (room : placement.share ≤ 1) :
    ∃ (one two : Load) (depth : Nat) (rest : Placement),
      let level : Placement := (one, depth + 1) ::ₘ (two, depth + 1) ::ₘ rest
      (∀ other ∈ rest.depths, other ≤ depth + 1) ∧ level.loads = placement.loads ∧
        level.share ≤ 1 ∧ level.measure ≤ placement.measure ∧
        level.depths.sum ≤ placement.depths.sum := by
  obtain ⟨one, low, rest, rfl, deepest⟩ := exists_cons_deepest
    (Multiset.card_pos.mp (by omega : 0 < Multiset.card placement))
  rw [Multiset.card_cons] at several
  obtain ⟨two, high, last, rfl, second⟩ := exists_cons_deepest
    (Multiset.card_pos.mp (by omega : 0 < Multiset.card rest))
  simp only [depths_cons, Multiset.mem_cons, forall_eq_or_imp] at deepest
  have lifted := share_lift deepest.1
    (by simpa only [depths_cons, Multiset.mem_cons, forall_eq_or_imp] using ⟨le_rfl, second⟩) room
  obtain ⟨depth, rfl⟩ : ∃ depth, high = depth + 1 := by
    refine Nat.exists_eq_succ_of_ne_zero fun zero => ?_
    have nonnegative : 0 ≤ last.share :=
      Multiset.sum_nonneg fun value member => by
        obtain ⟨part, -, rfl⟩ := Multiset.mem_map.mp member
        positivity
    subst zero
    simp only [share_cons, pow_zero] at lifted
    linarith
  refine ⟨one, two, depth, last, second, by simp, lifted, measure_le ?_ ?_, ?_⟩
  · have cheaper := Nat.mul_le_mul_left one.total deepest.1
    simp only [cost_cons]
    omega
  · simp only [reach_cons]
    omega
  · simp only [depths_cons, Multiset.sum_cons]
    omega

/-- The two lightest trees may as well stand side by side. -/
theorem exists_siblings {first second : Load} {others : Multiset Load}
    (loads : placement.loads = first ::ₘ second ::ₘ others) (room : placement.share ≤ 1)
    (lightest : ∀ load ∈ second ::ₘ others, first.rank ≤ load.rank)
    (lighter : ∀ load ∈ others, second.rank ≤ load.rank) :
    ∃ (depth : Nat) (rest : Placement),
      let siblings : Placement := (first, depth + 1) ::ₘ (second, depth + 1) ::ₘ rest
      rest.loads = others ∧ siblings.share ≤ 1 ∧ siblings.measure ≤ placement.measure := by
  have several : 2 ≤ Multiset.card placement := by
    have count := congrArg Multiset.card loads
    simp only [Placement.loads, Multiset.card_map, Multiset.card_cons] at count
    omega
  obtain ⟨one, two, depth, rest, deepest, same, fits, better, -⟩ := exists_level several room
  obtain ⟨left, leftLoads, leftDepths, firstBetter⟩ := exists_deepest (same.trans loads)
    (depths_cons one (depth + 1)) lightest (by simpa using deepest)
  obtain ⟨last, lastLoads, lastDepths, secondBetter⟩ := exists_deepest leftLoads
    (leftDepths.trans (depths_cons two (depth + 1))) lighter deepest
  have alike : depths ((first, depth + 1) ::ₘ (second, depth + 1) ::ₘ last) =
      depths ((one, depth + 1) ::ₘ (two, depth + 1) ::ₘ rest) := by
    simp only [depths_cons, lastDepths]
  exact ⟨depth, last, lastLoads, (share_congr alike).trans_le fits,
    ((measure_cons_le first (depth + 1) secondBetter).trans firstBetter).trans better⟩

theorem join_siblings (first second : Load) (depth : Nat) (rest : Placement) :
    let joined : Placement := (first.join second, depth) ::ₘ rest
    let siblings : Placement := (first, depth + 1) ::ₘ (second, depth + 1) ::ₘ rest
    siblings.share = joined.share ∧ siblings.reach = joined.reach ∧
      siblings.cost = first.total + second.total + joined.cost := by
  refine ⟨?_, ?_, ?_⟩
  · simp only [share_cons, pow_succ]
    ring
  · simp only [reach_cons, Load.join]
    omega
  · simp only [cost_cons, Load.join]
    ring

theorem reach_le {limit : Nat} (flat : ∀ load ∈ placement.loads, load.height = 0)
    (within : ∀ other ∈ placement.depths, other ≤ limit) : placement.reach ≤ limit := by
  refine Multiset.sup_le.mpr fun reached member => ?_
  obtain ⟨part, inside, rfl⟩ := Multiset.mem_map.mp member
  rw [flat part.1 (Multiset.mem_map_of_mem _ inside), Nat.add_zero]
  exact within part.2 (Multiset.mem_map_of_mem _ inside)

/-- The same trees, all of them at one depth. -/
def levelled (limit : Nat) (placement : Placement) : Placement :=
  placement.map fun part => (part.1, limit)

section Levelled

variable {limit : Nat}

theorem loads_levelled : (placement.levelled limit).loads = placement.loads := by
  rw [loads, loads, levelled, Multiset.map_map]
  rfl

theorem depth_levelled {other : Nat} (member : other ∈ (placement.levelled limit).depths) :
    other ≤ limit := by
  rw [depths, levelled, Multiset.map_map] at member
  obtain ⟨part, -, rfl⟩ := Multiset.mem_map.mp member
  exact le_rfl

theorem share_levelled (few : Multiset.card placement ≤ 2 ^ limit) :
    (placement.levelled limit).share ≤ 1 := by
  have count : (Multiset.card placement : ℚ) ≤ 2 ^ limit := by exact_mod_cast few
  rw [share, levelled, Multiset.map_map, Function.comp_def]
  simp only [Multiset.map_const', Multiset.sum_replicate, nsmul_eq_mul, div_pow, one_pow]
  rwa [mul_one_div, div_le_one (by positivity)]

theorem cost_levelled (deep : ∀ other ∈ placement.depths, limit ≤ other) :
    (placement.levelled limit).cost ≤ placement.cost := by
  rw [cost, cost, levelled, Multiset.map_map]
  exact Multiset.sum_map_le_sum_map _ _ fun part member =>
    Nat.mul_le_mul_left _ (deep part.2 (Multiset.mem_map_of_mem _ member))

end Levelled

/-- Two trees side by side can make room for a third one that is higher: one of them takes the place
of their parent, and the other one is put next to the third. With totals of one and two this makes
nothing dearer. -/
theorem exists_raised {one two : Load} {depth : Nat}
    (light : ∀ load ∈ loads ((one, depth + 1) ::ₘ (two, depth + 1) ::ₘ placement),
      1 ≤ load.total ∧ load.total ≤ 2)
    (higher : ∃ high ∈ placement.depths, high < depth) :
    ∃ raised : Placement,
      raised.loads = loads ((one, depth + 1) ::ₘ (two, depth + 1) ::ₘ placement) ∧
      raised.share = share ((one, depth + 1) ::ₘ (two, depth + 1) ::ₘ placement) ∧
      raised.cost ≤ cost ((one, depth + 1) ::ₘ (two, depth + 1) ::ₘ placement) ∧
      raised.depths.sum < (depths ((one, depth + 1) ::ₘ (two, depth + 1) ::ₘ placement)).sum := by
  obtain ⟨high, member, above⟩ := higher
  obtain ⟨others, split⟩ := Multiset.exists_cons_of_mem member
  obtain ⟨load, last, rfl, -⟩ := exists_cons_of_depth split
  simp only [loads_cons, Multiset.mem_cons, forall_eq_or_imp] at light
  refine ⟨(one, depth) ::ₘ (two, high + 1) ::ₘ (load, high + 1) ::ₘ last, by simp, ?_, ?_, ?_⟩
  · simp only [share_cons, pow_succ]
    ring
  · obtain ⟨step, rfl⟩ : ∃ step, depth = high + 1 + step := ⟨depth - (high + 1), by omega⟩
    have more := Nat.le_mul_of_pos_left step light.2.1.1
    simp only [cost_cons, Nat.mul_add]
    omega
  · simp only [depths_cons, Multiset.sum_cons]
    omega

/-- Trees of totals one and two may as well be placed within any limit that leaves room for as many
leaves. The deepest ones are raised as long as another tree is high enough. -/
theorem exists_shallow {limit : Nat}
    (light : ∀ load ∈ placement.loads, 1 ≤ load.total ∧ load.total ≤ 2)
    (several : 2 ≤ Multiset.card placement) (few : Multiset.card placement ≤ 2 ^ limit)
    (room : placement.share ≤ 1) :
    ∃ shallow : Placement, shallow.loads = placement.loads ∧ shallow.share ≤ 1 ∧
      shallow.cost ≤ placement.cost ∧ ∀ depth ∈ shallow.depths, depth ≤ limit := by
  generalize total : placement.depths.sum = size
  induction size using Nat.strongRecOn generalizing placement with
  | ind size ih =>
    subst total
    obtain ⟨one, two, depth, rest, deepest, same, fits, better, smaller⟩ :=
      exists_level several room
    rw [← same] at light
    have cheaper : cost ((one, depth + 1) ::ₘ (two, depth + 1) ::ₘ rest) ≤ placement.cost := by
      rw [measure_le_iff] at better
      omega
    by_cases higher : ∃ high ∈ rest.depths, high < depth
    · -- one of the two takes the place of their parent, and the sum of the depths gets smaller
      obtain ⟨raised, alike, share, cost, sum⟩ := exists_raised light higher
      have count := congrArg Multiset.card (alike.trans same)
      simp only [loads, Multiset.card_map] at count
      obtain ⟨shallow, loads', fits', cost', within⟩ := ih _ (sum.trans_le smaller) (alike ▸ light)
        (several.trans_eq count.symm) (count.trans_le few) (share.trans_le fits) rfl
      exact ⟨shallow, loads'.trans (alike.trans same), fits', cost'.trans (cost.trans cheaper),
        within⟩
    · simp only [not_exists, not_and, Nat.not_lt] at higher
      by_cases low : depth + 1 ≤ limit
      · refine ⟨_, same, fits, cheaper, fun other member => ?_⟩
        simp only [depths_cons, Multiset.mem_cons] at member
        rcases member with rfl | rfl | member
        · exact low
        · exact low
        · exact (deepest other member).trans low
      · -- all loads are on the last two levels, and so few that one level within the limit has room
        have deep : limit ≤ depth := by omega
        have count := congrArg Multiset.card same
        simp only [loads, Multiset.card_map] at count
        refine ⟨levelled limit ((one, depth + 1) ::ₘ (two, depth + 1) ::ₘ rest),
          loads_levelled.trans same, share_levelled (count.trans_le few),
          (cost_levelled fun other member => ?_).trans cheaper, fun _ => depth_levelled⟩
        simp only [depths_cons, Multiset.mem_cons] at member
        rcases member with rfl | rfl | member
        · omega
        · omega
        · exact deep.trans (higher other member)

end Placement

end BlockSort.PrefixCode

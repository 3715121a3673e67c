import BlockSort.Proofs.Decoder

namespace BlockSort

namespace Decoder

variable {α β : Type}

/-- Whatever follows, the reader takes exactly these bits and gives the value. -/
def Reads (reader : Reader α) (bits : List Bool) (value : α) : Prop :=
  ∀ rest, reader (bits ++ rest) = some (value, rest)

namespace Reads

theorem pure (value : α) : Reads (Pure.pure value) [] value := fun _ => rfl

theorem bind {reader : Reader α} {next : α → Reader β} {bits others : List Bool} {value : α}
    {result : β} (first : Reads reader bits value) (second : Reads (next value) others result) :
    Reads (reader >>= next) (bits ++ others) result := by
  intro rest
  change Option.bind (reader (bits ++ others ++ rest)) (fun answer => next answer.1 answer.2) = _
  rw [List.append_assoc, first]
  exact second rest

theorem map {reader : Reader α} {bits : List Bool} {value : α} (function : α → β)
    (reads : Reads reader bits value) :
    Reads (reader >>= fun answer => Pure.pure (function answer)) bits (function value) := by
  rw [← List.append_nil bits]
  exact reads.bind (pure (function value))

/-- A condition that holds costs no bits. -/
theorem check {condition : Prop} [Decidable condition] {next : Reader β} {bits : List Bool}
    {result : β} (holds : condition) (reads : Reads next bits result) :
    Reads (Reader.check condition >>= fun _ => next) bits result := by
  have passes : Reads (Reader.check condition) [] () := fun rest => if_pos holds
  exact passes.bind reads

theorem given {found : Option α} {value : α} (present : found = some value) :
    Reads (Reader.ofOption found) [] value := by
  subst present
  exact fun _ => rfl

theorem ofOption {found : Option α} {value : α} {next : α → Reader β} {bits : List Bool}
    {result : β} (present : found = some value) (reads : Reads (next value) bits result) :
    Reads (Reader.ofOption found >>= next) bits result := (given present).bind reads

/-- A reader may depend on what is left, if any bits could follow. -/
theorem get {next : List Bool → Reader β} {bits : List Bool} {result : β}
    (reads : ∀ left, bits.length ≤ left.length → Reads (next left) bits result) :
    Reads (MonadState.get >>= next) bits result := fun rest =>
  reads (bits ++ rest) (by simp) rest

theorem flags {count : Nat} (bits : List Bool) (size : bits.length = count) :
    Reads (Reader.flags count) bits bits := by
  intro rest
  subst size
  simp [Reader.flags]

theorem flag (bit : Bool) : Reads Reader.flag [bit] bit := fun _ => rfl

theorem number {width value : Nat} (fits : value < 2 ^ width) :
    Reads (Reader.number width) (Bits.ofNat width value) value := by
  have reads := (flags (Bits.ofNat width value) (Bits.length_ofNat width value)).map Bits.toNat
  rwa [Bits.toNat_ofNat_of_lt fits] at reads

theorem field (field : Field) (fits : field.value.toNat < 2 ^ field.width) :
    Reads (Reader.number field.width) field.bits field.value.toNat := number fits

theorem unary (count : Nat) : Reads Reader.unary (List.replicate count true ++ [false]) count := by
  intro rest
  induction count with
  | zero => rfl
  | succ count ih =>
    rw [List.replicate_succ, List.cons_append, List.cons_append, Reader.unary, ih]

theorem mapM {reader : α → Reader β} {bits : α → List Bool} {value : α → β} {items : List α}
    (each : ∀ item ∈ items, Reads (reader item) (bits item) (value item)) :
    Reads (items.mapM reader) (items.flatMap bits) (items.map value) := by
  induction items with
  | nil => exact pure []
  | cons item rest ih =>
    have others := ih fun other member => each other (by simp [member])
    rw [List.mapM_cons, List.flatMap_cons, List.map_cons]
    exact (each item (by simp)).bind (others.map (value item :: ·))

theorem repeated {reader : Reader β} {bits : α → List Bool} {value : α → β} {items : List α}
    (each : ∀ item ∈ items, Reads reader (bits item) (value item)) :
    Reads ((List.range items.length).mapM fun _ => reader) (items.flatMap bits)
      (items.map value) := by
  have counted {γ : Type} (items : List γ) : (items.mapM fun _ => reader) =
      (List.replicate items.length ()).mapM fun _ => reader := by
    rw [← List.map_const', List.mapM_map]
    rfl
  have same := counted (List.range items.length)
  rw [List.length_range, ← counted items] at same
  rw [same]
  exact mapM each

end Reads

end Decoder

namespace Field

private theorem toNat_foldl (bits : List Bool) (start : UInt32) :
    (bits.foldl (fun (value : UInt32) flag => (value <<< 1) ||| (if flag then 1 else 0))
      start).toNat = (start.toNat * 2 ^ bits.length + Bits.toNat bits) % 2 ^ 32 := by
  induction bits generalizing start with
  | nil => exact (Nat.mod_eq_of_lt start.toNat_lt).symm.trans (by simp [Bits.toNat])
  | cons bit rest ih =>
    have step : ((start <<< 1) ||| (if bit then 1 else 0)).toNat =
        (2 * start.toNat + bit.toNat) % 2 ^ 32 := by
      have value : (if bit then (1 : UInt32) else 0).toNat = bit.toNat := by cases bit <;> rfl
      have single : (if bit then (1 : UInt32) else 0).toNat < 2 := value ▸ Bool.toNat_lt bit
      rw [Bits.toNat_shiftIn start single, value]
    have wrapped := ((Nat.mod_modEq (2 * start.toNat + bit.toNat) (2 ^ 32)).mul_right
      (2 ^ rest.length)).add_right (Bits.toNat rest)
    rw [List.foldl_cons, ih, step, Bits.toNat_cons, List.length_cons]
    refine wrapped.trans (congrArg (· % 2 ^ 32) ?_)
    ring

theorem toNat_ofBits {bits : List Bool} (few : bits.length ≤ 32) :
    (ofBits bits).value.toNat = Bits.toNat bits := by
  have bound : Bits.toNat bits < 2 ^ 32 :=
    (Bits.toNat_lt bits).trans_le (Nat.pow_le_pow_right (by decide) few)
  refine (toNat_foldl bits 0).trans ?_
  rw [UInt32.toNat_zero, Nat.zero_mul, Nat.zero_add, Nat.mod_eq_of_lt bound]

theorem bits_ofBits {bits : List Bool} (few : bits.length ≤ 32) : (ofBits bits).bits = bits := by
  rw [Field.bits, toNat_ofBits few]
  exact Bits.ofNat_toNat bits

end Field

end BlockSort

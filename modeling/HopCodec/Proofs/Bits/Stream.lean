/-
Bit strings.  A writer's bits grow by what is written behind them, and a reader standing before
those bits takes them back.  `Writes` and `Reads` state one step of either side; every format of
the codec is composed from such steps.
-/
import Mathlib.Algebra.Group.Nat.Defs
import Mathlib.Data.List.Induction
import HopCodec.Bits.Writer

namespace HopCodec

/-- The low `n` bits of a number, most significant first. -/
def spell (value n : Nat) : List Bool :=
  (List.range n).map fun i => value.testBit (n - 1 - i)

def bitsOf (data : Bytes) : List Bool :=
  (List.range (8 * data.size)).map (bitAt data)

@[simp] theorem length_spell (value n : Nat) : (spell value n).length = n := by
  simp [spell]

@[simp] theorem length_bitsOf (data : Bytes) : (bitsOf data).length = 8 * data.size := by
  simp [bitsOf]

theorem spell_bit (bit : Bool) : spell bit.toNat 1 = [bit] := by
  cases bit <;> rfl

theorem spell_succ (value n : Nat) :
    spell value (n + 1) = value.testBit n :: spell value n := by
  unfold spell
  rw [List.range_succ_eq_map, List.map_cons, List.map_map]
  congr 1
  apply List.map_congr_left
  intro i _
  simp only [Function.comp_apply]
  congr 1
  omega

/-- A further bit at the end doubles the number. -/
theorem spell_double (value n : Nat) (bit : Bool) :
    spell (2 * value + bit.toNat) (n + 1) = spell value n ++ [bit] := by
  unfold spell
  rw [List.range_succ, List.map_append, List.map_singleton]
  congr 1
  · apply List.map_congr_left
    intro i hi
    have hi : i < n := List.mem_range.mp hi
    have hpos : n + 1 - 1 - i = (n - 1 - i) + 1 := by omega
    rw [hpos, Nat.testBit_succ]
    congr 1
    cases bit
    · simp
    · simp
      omega
  · cases bit <;> simp

theorem spell_add (value m n : Nat) :
    spell value (m + n) = spell (value / 2 ^ n) m ++ spell value n := by
  induction m with
  | zero => simp [spell]
  | succ m ih =>
      rw [show m + 1 + n = m + n + 1 by omega, spell_succ, spell_succ, ih, Nat.testBit_div_two_pow,
        List.cons_append]

theorem spell_mod (value n : Nat) : spell (value % 2 ^ n) n = spell value n := by
  apply List.map_congr_left
  intro i hi
  have hi : i < n := List.mem_range.mp hi
  rw [Nat.testBit_mod_two_pow, decide_eq_true (show n - 1 - i < n by omega), Bool.true_and]

theorem bitsValue_append (bits : List Bool) (bit : Bool) :
    bitsValue (bits ++ [bit]) = 2 * bitsValue bits + bit.toNat := by
  simp [bitsValue]

/-- A spelling is read back as the number it spells. -/
theorem bitsValue_spell (value n : Nat) (h : value < 2 ^ n) :
    bitsValue (spell value n) = value := by
  induction n generalizing value with
  | zero =>
      have hzero : value = 0 := by simpa using h
      simp [spell, bitsValue, hzero]
  | succ n ih =>
      have hhalf : value / 2 < 2 ^ n := by
        rw [Nat.pow_succ] at h
        omega
      have hsplit : 2 * (value / 2) + (value.testBit 0).toNat = value := by
        rw [Nat.testBit_zero]
        rcases Nat.mod_two_eq_zero_or_one value with hmod | hmod <;> simp [hmod] <;> omega
      rw [← hsplit, spell_double, bitsValue_append, ih _ hhalf]

/-- The number that bits spell is spelled by these bits. -/
theorem spell_bitsValue (bits : List Bool) : spell (bitsValue bits) bits.length = bits := by
  induction bits using List.reverseRecOn with
  | nil => rfl
  | append_singleton bits bit ih =>
      rw [bitsValue_append, List.length_append, List.length_singleton, spell_double, ih]

theorem bitsValue_lt (bits : List Bool) : bitsValue bits < 2 ^ bits.length := by
  induction bits using List.reverseRecOn with
  | nil => simp [bitsValue]
  | append_singleton bits bit ih =>
      rw [bitsValue_append, List.length_append, List.length_singleton, Nat.pow_succ]
      have hbit := bit.toNat_le
      omega

namespace BitWriter

/-- The byte under way is not complete. -/
def Tidy (w : BitWriter) : Prop :=
  w.fill < 8

theorem tidy_empty : empty.Tidy := by
  simp [Tidy, empty]

@[simp] theorem bits_empty : empty.bits = [] := by
  simp [bits, empty]

theorem bits_eq (w : BitWriter) : w.bits = bitsOf w.bytes ++ spell w.pending w.fill :=
  rfl

/-- `write` puts `bits` behind the bits of any writer. -/
def Writes (write : BitWriter → BitWriter) (bits : List Bool) : Prop :=
  ∀ w : BitWriter, w.Tidy → (write w).Tidy ∧ (write w).bits = w.bits ++ bits

theorem Writes.nothing : Writes (fun w => w) [] := by
  intro w hw
  exact ⟨hw, by simp⟩

theorem Writes.comp {f g : BitWriter → BitWriter} {xs ys : List Bool}
    (hf : Writes f xs) (hg : Writes g ys) : Writes (fun w => g (f w)) (xs ++ ys) := by
  intro w hw
  obtain ⟨htidy, hbits⟩ := hf w hw
  obtain ⟨htidy', hbits'⟩ := hg (f w) htidy
  exact ⟨htidy', by rw [hbits', hbits, List.append_assoc]⟩

theorem Writes.foldl {α : Type} {write : BitWriter → α → BitWriter} {bits : α → List Bool}
    (items : List α) (h : ∀ a ∈ items, Writes (fun w => write w a) (bits a)) :
    Writes (fun w => items.foldl write w) (items.flatMap bits) := by
  induction items with
  | nil => exact .nothing
  | cons a rest ih =>
      have hhead := h a List.mem_cons_self
      have htail := ih fun b hb => h b (List.mem_cons_of_mem a hb)
      simpa using hhead.comp htail

end BitWriter

theorem bitAt_push_left (data : Bytes) (byte : UInt8) (i : Nat) (h : i < 8 * data.size) :
    bitAt (data.push byte) i = bitAt data i := by
  have hlt : i / 8 < data.size := by omega
  unfold bitAt
  simp only [Array.getD_eq_getD_getElem?, Array.getElem?_push_lt hlt, Array.getElem?_eq_getElem hlt]

theorem bitAt_push_right (data : Bytes) (byte : UInt8) (i : Nat) (h : i < 8) :
    bitAt (data.push byte) (8 * data.size + i) = byte.toNat.testBit (7 - i) := by
  have hdiv : (8 * data.size + i) / 8 = data.size := by omega
  have hmod : (8 * data.size + i) % 8 = i := by omega
  simp [bitAt, hdiv, hmod]

theorem bitsOf_push (data : Bytes) (byte : UInt8) :
    bitsOf (data.push byte) = bitsOf data ++ spell byte.toNat 8 := by
  unfold bitsOf
  rw [Array.size_push, Nat.mul_add, List.range_add, List.map_append, List.map_map]
  congr 1
  · apply List.map_congr_left
    intro i hi
    exact bitAt_push_left data byte i (List.mem_range.mp hi)
  · apply List.map_congr_left
    intro i hi
    exact bitAt_push_right data byte i (List.mem_range.mp hi)

theorem spell_toUInt8 (value : Nat) : spell (UInt8.ofNat value).toNat 8 = spell value 8 := by
  apply List.map_congr_left
  intro i hi
  have hi : i < 8 := List.mem_range.mp hi
  rw [UInt8.toNat_ofNat', Nat.testBit_mod_two_pow]
  have hlt : 8 - 1 - i < 8 := by omega
  simp [hlt]

namespace BitWriter

theorem writes_writeBit (bit : Bool) : Writes (fun w => w.writeBit bit) [bit] := by
  intro w hw
  change (w.writeBit bit).Tidy ∧ (w.writeBit bit).bits = w.bits ++ [bit]
  unfold Tidy at hw
  by_cases hfill : w.fill < 7
  · have heq : w.writeBit bit = ⟨w.bytes, 2 * w.pending + bit.toNat, w.fill + 1⟩ := by
      simp [writeBit, hfill]
    rw [heq, bits_eq, bits_eq, spell_double, List.append_assoc]
    exact ⟨by simp only [Tidy]; omega, rfl⟩
  · have hseven : w.fill = 7 := by omega
    have heq : w.writeBit bit =
        ⟨w.bytes.push (UInt8.ofNat (2 * w.pending + bit.toNat)), 0, 0⟩ := by
      simp [writeBit, hseven]
    rw [heq, bits_eq, bits_eq, bitsOf_push, spell_toUInt8, hseven, spell_double]
    exact ⟨by simp [Tidy], by simp [spell]⟩

theorem writes_writeBits (value n : Nat) :
    Writes (fun w => w.writeBits value n) (spell value n) := by
  have hfold : ∀ k, k ≤ n →
      Writes (fun w => k.fold (fun i _ w => w.writeBit (value.testBit (n - 1 - i))) w)
        ((List.range k).map fun i => value.testBit (n - 1 - i)) := by
    intro k hk
    induction k with
    | zero => exact .nothing
    | succ k ih =>
        have hstep := (ih (by omega)).comp (writes_writeBit (value.testBit (n - 1 - k)))
        simpa [List.range_succ] using hstep
  exact hfold n (Nat.le_refl n)

theorem writes_writeByte (byte : UInt8) :
    Writes (fun w => w.writeByte byte) (spell byte.toNat 8) :=
  writes_writeBits byte.toNat 8

def wordBytes (word : UInt32) : List UInt8 :=
  [word.toUInt8, (word >>> 8).toUInt8, (word >>> 16).toUInt8, (word >>> 24).toUInt8]

theorem writes_writeWord (word : UInt32) :
    Writes (fun w => w.writeWord word) ((wordBytes word).flatMap fun b => spell b.toNat 8) := by
  have hbytes := Writes.foldl (wordBytes word) fun b _ => writes_writeByte b
  simpa only [wordBytes, writeWord, List.foldl_cons, List.foldl_nil] using hbytes

/-- Finishing adds zero bits up to the end of the byte under way. -/
theorem bitsOf_finish (w : BitWriter) (hw : w.Tidy) :
    ∃ padding, padding < 8 ∧ bitsOf w.finish = w.bits ++ List.replicate padding false := by
  unfold Tidy at hw
  unfold finish
  by_cases hzero : w.fill = 0
  · exact ⟨0, by omega, by simp [hzero, bits_eq, spell]⟩
  · refine ⟨8 - w.fill, by omega, ?_⟩
    have hwidth : w.fill + (8 - w.fill) = 8 := by omega
    have hpad : spell (w.pending <<< (8 - w.fill)) (8 - w.fill) =
        List.replicate (8 - w.fill) false := by
      rw [List.eq_replicate_iff]
      refine ⟨length_spell _ _, ?_⟩
      intro bit hbit
      simp only [spell, List.mem_map, List.mem_range] at hbit
      obtain ⟨i, hi, rfl⟩ := hbit
      rw [Nat.testBit_shiftLeft]
      have hlt : ¬ 8 - w.fill ≤ 8 - w.fill - 1 - i := by omega
      simp [hlt]
    simp only [hzero, if_false, bits_eq, bitsOf_push, spell_toUInt8, List.append_assoc]
    rw [← hwidth, spell_add, hwidth, hpad, Nat.shiftLeft_eq,
      Nat.mul_div_cancel _ (Nat.two_pow_pos _)]

end BitWriter

end HopCodec

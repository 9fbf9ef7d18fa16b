/-
The bit reader of the machine follows the plain one.  `Tracks` says which bits wait in the word.
`Mirrors` and `Follows` carry it through whole computations, `Mirrors` also past reads that fail:
what is composed of such steps ends as the plain reading does and never traps.
-/
import Mathlib.Tactic.Ring
import HopCodec.Machine.Tape
import HopCodec.Proofs.Bits.Reading
import HopCodec.Proofs.Machine.Word

namespace HopCodec

theorem foldl_bits (bits : List Bool) (start : Nat) :
    bits.foldl (fun acc bit => 2 * acc + bit.toNat) start =
      start * 2 ^ bits.length + bitsValue bits := by
  induction bits generalizing start with
  | nil => simp [bitsValue]
  | cons bit bits ih =>
      have hvalue : bitsValue (bit :: bits) = bit.toNat * 2 ^ bits.length + bitsValue bits := by
        rw [bitsValue, List.foldl_cons, ih, Nat.mul_zero, Nat.zero_add]
      rw [List.foldl_cons, ih, hvalue, List.length_cons, Nat.pow_succ]
      ring

/-- Bits in front count for more, one power of two for each bit behind them. -/
theorem bitsValue_concat (front back : List Bool) :
    bitsValue (front ++ back) = bitsValue front * 2 ^ back.length + bitsValue back := by
  rw [bitsValue, List.foldl_append]
  exact foldl_bits back (bitsValue front)

theorem bitsValue_byte (data : Bytes) (k : Nat) :
    bitsValue ((List.range 8).map fun i => bitAt data (8 * k + i)) = (data.getD k 0).toNat := by
  have hspell : ((List.range 8).map fun i => bitAt data (8 * k + i)) =
      spell (data.getD k 0).toNat 8 := by
    apply List.map_congr_left
    intro i hi
    have hi : i < 8 := List.mem_range.mp hi
    have hdiv : (8 * k + i) / 8 = k := by omega
    have hmod : (8 * k + i) % 8 = i := by omega
    rw [bitAt, hdiv, hmod]
  rw [hspell]
  exact bitsValue_spell _ 8 (data.getD k 0).toNat_lt

namespace BitReader

theorem peek_add (r : BitReader) (m n : Nat) :
    r.peek (m + n) = r.peek m ++ (List.range n).map fun i => bitAt r.data (r.pos + m + i) := by
  simp [peek, List.range_add, Nat.add_assoc]

theorem peek_split (r : BitReader) {m n : Nat} (h : r.pos + m ≤ r.limit) (hmn : m ≤ n) :
    r.peek n = r.peek m ++ (r.skip m h).peek (n - m) := by
  have hpeek := r.peek_add m (n - m)
  rw [Nat.add_sub_cancel' hmn] at hpeek
  exact hpeek

section Peek

variable (r : BitReader) {m n : Nat} (h : r.pos + m ≤ r.limit) (hmn : m ≤ n)

include hmn

/-- Of the bits ahead, the first ones are the quotient by a power of two, and the others the rest. -/
theorem bitsValue_peek (h : r.pos + m ≤ r.limit) :
    bitsValue (r.peek n) =
      2 ^ (n - m) * bitsValue (r.peek m) + bitsValue ((r.skip m h).peek (n - m)) := by
  rw [r.peek_split h hmn, bitsValue_concat, length_peek, Nat.mul_comm]

include h

theorem bitsValue_peek_div : bitsValue (r.peek n) / 2 ^ (n - m) = bitsValue (r.peek m) := by
  have hlt := bitsValue_lt ((r.skip m h).peek (n - m))
  rw [length_peek] at hlt
  rw [r.bitsValue_peek hmn h, Nat.mul_add_div (Nat.two_pow_pos _), Nat.div_eq_of_lt hlt,
    Nat.add_zero]

theorem bitsValue_peek_mod :
    bitsValue (r.peek n) % 2 ^ (n - m) = bitsValue ((r.skip m h).peek (n - m)) := by
  have hlt := bitsValue_lt ((r.skip m h).peek (n - m))
  rw [length_peek] at hlt
  rw [r.bitsValue_peek hmn h, Nat.mul_add_mod, Nat.mod_eq_of_lt hlt]

end Peek

end BitReader

namespace Machine

section Held

/-- A number of `m` bits, shifted to the left, still fits a word that is wide enough. -/
theorem mul_two_pow_lt {value m n width : Nat} (h : value < 2 ^ m) (hwidth : m + n ≤ width) :
    value * 2 ^ n < 2 ^ width := by
  calc value * 2 ^ n < 2 ^ m * 2 ^ n := Nat.mul_lt_mul_of_pos_right h (Nat.two_pow_pos _)
    _ = 2 ^ (m + n) := (Nat.pow_add 2 m n).symm
    _ ≤ 2 ^ width := Nat.pow_le_pow_right (by decide) hwidth

theorem shiftLeft_mod {value m n : Nat} (h : value < 2 ^ m) (hwidth : m + n ≤ 64) :
    (value <<< n) % (1 <<< 64) = value * 2 ^ n := by
  rw [Nat.shiftLeft_eq, Nat.one_shiftLeft]
  exact Nat.mod_eq_of_lt (mul_two_pow_lt h hwidth)

/-- Bits put right behind those at the high end of a word stand there with them. -/
theorem or_held {value count n : Nat} (front : Nat) (hvalue : value < 2 ^ n)
    (hroom : count + n ≤ 64) :
    front * 2 ^ (64 - count) ||| value * 2 ^ (64 - count - n) =
      (front * 2 ^ n + value) * 2 ^ (64 - (count + n)) := by
  have hplaces : n + (64 - count - n) = 64 - count := by omega
  have hlow : value * 2 ^ (64 - count - n) < 2 ^ (64 - count) :=
    mul_two_pow_lt hvalue (Nat.le_of_eq hplaces)
  rw [← Nat.shiftLeft_eq front, ← Nat.shiftLeft_add_eq_or_of_lt hlow, Nat.shiftLeft_eq,
    ← Nat.sub_sub, Nat.add_mul, Nat.mul_assoc, ← Nat.pow_add, hplaces]

variable {count n : Nat} (value : Nat) (hn : n ≤ count) (hcount : count ≤ 64)

include hn hcount

/-- The first ones of the bits at the high end of a word. -/
theorem shiftRight_held :
    (value * 2 ^ (64 - count)) >>> (64 - n) = value / 2 ^ (count - n) := by
  have hplaces : 64 - n = count - n + (64 - count) := by omega
  rw [Nat.shiftRight_eq_div_pow, hplaces, Nat.pow_add,
    Nat.mul_div_mul_right _ _ (Nat.two_pow_pos _)]

/-- Shifting the first ones out leaves the others at the high end of the word. -/
theorem shiftLeft_held :
    ((value * 2 ^ (64 - count)) <<< n) % (1 <<< 64) =
      value % 2 ^ (count - n) * 2 ^ (64 - (count - n)) := by
  have hplaces : 64 - count + n = 64 - (count - n) := by omega
  have hword : 2 ^ 64 = 2 ^ (count - n) * 2 ^ (64 - (count - n)) := by
    rw [← Nat.pow_add]
    congr 1
    omega
  rw [Nat.shiftLeft_eq, Nat.one_shiftLeft, Nat.mul_assoc, ← Nat.pow_add, hplaces, hword,
    Nat.mul_mod_mul_right]

end Held

/-- The bits of a byte string of this size, and a word more, can be counted in a machine word. -/
def Countable (size : Nat) : Prop :=
  8 * size + 64 < wordSize

theorem Countable.mul_lt {size : Nat} (h : Countable size) : size * 8 < wordSize := by
  rw [Nat.mul_comm]
  exact Nat.lt_of_le_of_lt (Nat.le_add_right _ _) h

/-- The cursor stands where the reader does, and the bits that wait are the next ones. -/
structure Cursor.Tracks (c : Cursor) (r : BitReader) : Prop where
  src_eq : c.src = r.data
  consumed_eq : c.consumed = r.pos
  budget_eq : c.budget = r.limit
  loaded : 8 * c.next = r.pos + c.count
  next_le : c.next ≤ c.src.size
  count_le : c.count ≤ 64
  held_eq : c.held = bitsValue (r.peek c.count) * 2 ^ (64 - c.count)
  countable : Countable c.src.size

namespace Cursor

variable {c : Cursor} {r : BitReader}

theorem exists_withBudget {data : Bytes} (budget : Nat) (h : Countable data.size) :
    ∃ c, withBudget data budget = .ok c ∧ c.Tracks (BitReader.withBudget data budget) := by
  have hbits : data.size * 8 < wordSize := h.mul_lt
  refine ⟨⟨data, 0, 0, 0, 0, min budget (8 * data.size)⟩, ?_, ?_⟩
  · rw [withBudget, mul_eq hbits, Nat.mul_comm]
    rfl
  · exact ⟨rfl, rfl, rfl, rfl, Nat.zero_le _, Nat.zero_le _, by simp [bitsValue, BitReader.peek], h⟩

theorem exists_ofBytes {data : Bytes} (h : Countable data.size) :
    ∃ c, ofBytes data = .ok c ∧ c.Tracks (BitReader.ofBytes data) := by
  obtain ⟨c, hc, htracks⟩ := exists_withBudget (8 * data.size) h
  refine ⟨c, ?_, htracks⟩
  rw [ofBytes, mul_eq h.mul_lt, Nat.mul_comm]
  exact hc

namespace Tracks

theorem limit_le (h : c.Tracks r) : r.limit ≤ 8 * c.src.size := by
  rw [h.src_eq]
  exact r.limit_le_size

/-- The counters of the cursor stay below the end of the word. -/
theorem room (h : c.Tracks r) : 8 * c.src.size + 64 < wordSize :=
  h.countable

theorem remaining_eq (h : c.Tracks r) : c.remaining = .ok r.remaining := by
  rw [remaining, h.budget_eq, h.consumed_eq]
  exact sub_eq r.pos_le_limit

/-- One more byte joins the waiting bits. -/
theorem exists_load (h : c.Tracks r) (hspace : c.count ≤ 56) (hmore : c.next < c.src.size) :
    ∃ c', c.load = .ok c' ∧ c'.Tracks r ∧ c'.count = c.count + 8 := by
  let byte := (c.src.getD c.next 0).toNat
  have hroom := h.room
  have hbyte : byte < 2 ^ 8 := (c.src.getD c.next 0).toNat_lt
  refine ⟨{ c with next := c.next + 1, count := c.count + 8,
                   held := c.held ||| byte * 2 ^ (56 - c.count) }, ?_, ?_, rfl⟩
  · have hcount : c.count + 8 < halfSize := by
      unfold halfSize
      omega
    have hnext : c.next + 1 < wordSize := by omega
    rw [load, fetch_eq_getD hmore 0, ok_bind, sub_eq hspace, ok_bind, shiftLeft_eq (by omega),
      ok_bind, shiftLeft_mod hbyte (by omega), fit_eq hcount, ok_bind, add_eq hnext]
    rfl
  · refine ⟨h.src_eq, h.consumed_eq, h.budget_eq, ?_, hmore, Nat.add_le_add_right hspace 8, ?_,
      h.countable⟩
    · change 8 * (c.next + 1) = r.pos + (c.count + 8)
      have hloaded := h.loaded
      omega
    · change c.held ||| byte * 2 ^ (56 - c.count) =
        bitsValue (r.peek (c.count + 8)) * 2 ^ (64 - (c.count + 8))
      have hnew : bitsValue ((List.range 8).map fun i => bitAt r.data (r.pos + c.count + i)) =
          byte := by
        rw [← h.loaded, bitsValue_byte, ← h.src_eq]
      have hplaces : 56 - c.count = 64 - c.count - 8 := by omega
      rw [h.held_eq, hplaces, or_held _ hbyte (by omega), BitReader.peek_add, bitsValue_concat,
        hnew, List.length_map, List.length_range]

/-- Refilling ends with more than 56 bits waiting or with the whole byte string loaded. -/
theorem exists_refillFor (h : c.Tracks r) (fuel : Nat) (hfuel : 56 < c.count + 8 * fuel) :
    ∃ c', c.refillFor fuel = .ok c' ∧ c'.Tracks r ∧ (56 < c'.count ∨ c'.next = c'.src.size) := by
  induction fuel generalizing c with
  | zero =>
      have hfull : ¬ (c.count ≤ 56 ∧ c.next < c.src.size) := by omega
      exact ⟨c, by rw [refillFor, if_neg hfull], h, .inl (by omega)⟩
  | succ fuel ih =>
      by_cases hmore : c.count ≤ 56 ∧ c.next < c.src.size
      · obtain ⟨c', hload, htracks, hcount⟩ := h.exists_load hmore.1 hmore.2
        obtain ⟨c'', hrefill, hdone⟩ := ih htracks (by omega)
        refine ⟨c'', ?_, hdone⟩
        rw [refillFor, if_pos hmore, hload]
        exact hrefill
      · have hnext := h.next_le
        exact ⟨c, by rw [refillFor, if_neg hmore], h, by omega⟩

/-- After a refill where it was needed, the bits asked for wait in the word. -/
theorem exists_supply (h : c.Tracks r) {n : Nat} (hn : n ≤ 32) (hleft : r.pos + n ≤ r.limit) :
    ∃ c', c.supply n = .ok c' ∧ c'.Tracks r ∧ n ≤ c'.count := by
  by_cases hshort : c.count < n
  · obtain ⟨c', hrefill, htracks, hdone⟩ := h.exists_refillFor 8 (by omega)
    refine ⟨c', by rw [supply, if_pos hshort]; exact hrefill, htracks, ?_⟩
    have hlimit := htracks.limit_le
    have hloaded := htracks.loaded
    rcases hdone with hmany | hall <;> omega
  · exact ⟨c, by rw [supply, if_neg hshort], h, Nat.not_lt.mp hshort⟩

theorem held_shiftRight (h : c.Tracks r) {n : Nat} (hn : n ≤ c.count)
    (hleft : r.pos + n ≤ r.limit) : c.held >>> (64 - n) = bitsValue (r.peek n) := by
  rw [h.held_eq, shiftRight_held _ hn h.count_le, r.bitsValue_peek_div hleft hn]

theorem held_shiftLeft (h : c.Tracks r) {n : Nat} (hn : n ≤ c.count)
    (hleft : r.pos + n ≤ r.limit) :
    (c.held <<< n) % (1 <<< 64) =
      bitsValue ((r.skip n hleft).peek (c.count - n)) * 2 ^ (64 - (c.count - n)) := by
  rw [h.held_eq, shiftLeft_held _ hn h.count_le, r.bitsValue_peek_mod hleft hn]

/-- Taking waiting bits moves the cursor as far as the reader. -/
theorem exists_take (h : c.Tracks r) {n : Nat} (hn : n ≤ c.count) (hshift : n ≤ 32)
    (hleft : r.pos + n ≤ r.limit) :
    ∃ c', c.take n = .ok c' ∧ c'.Tracks (r.skip n hleft) := by
  have hcount := h.count_le
  have hroom := h.room
  have hlimit := h.limit_le
  have hloaded := h.loaded
  refine ⟨{ c with
    held := bitsValue ((r.skip n hleft).peek (c.count - n)) * 2 ^ (64 - (c.count - n)),
    count := c.count - n, consumed := c.consumed + n }, ?_, ?_⟩
  · have hconsumed : c.consumed + n < wordSize := by
      rw [h.consumed_eq]
      omega
    rw [take, shiftLeft_eq (by omega), ok_bind, h.held_shiftLeft hn hleft, sub_eq hn, ok_bind,
      add_eq hconsumed]
    rfl
  · refine ⟨h.src_eq, ?_, h.budget_eq, ?_, h.next_le, Nat.le_trans (Nat.sub_le _ _) hcount, rfl,
      h.countable⟩
    · change c.consumed + n = r.pos + n
      rw [h.consumed_eq]
    · change 8 * c.next = r.pos + n + (c.count - n)
      omega

end Tracks

end Cursor

namespace Tape

variable {α β : Type}

/-- A read of which only the fault is left when it fails. -/
def forget (x : Tape α) : Scanner α := fun c => do
  match ← x.run.run c with
  | (.ok a, c) => return (a, c)
  | (.error fault, _) => refuse fault

theorem forget_bit : bit.forget = Scanner.bit := by
  funext c
  change (bit c >>= _) = Scanner.bit c
  unfold bit Scanner.bit
  split
  · rfl
  · simp only [bind_assoc, pure_bind]

theorem forget_bits (n : Nat) : (bits n).forget = Scanner.bits n := by
  funext c
  change (bits n c >>= _) = Scanner.bits n c
  simp only [bits, Scanner.bits, bind_assoc]
  congr 1
  funext _
  split
  · rfl
  · simp only [bind_assoc]
    congr 1
    funext sum
    split
    · rfl
    · simp only [bind_assoc, pure_bind]

/-- The tape ends as the reading does from any cursor that tracks its reader, and the cursor that
it leaves behind tracks the reader left. -/
def Mirrors (x : Tape α) (y : Reading α) : Prop :=
  ∀ ⦃c r⦄, Cursor.Tracks c r →
    ∃ c', x.run.run c = .ok ((outcome (y.run r)).1, c') ∧ c'.Tracks (outcome (y.run r)).2

theorem Mirrors.pure (a : α) : Mirrors (Pure.pure a) (Pure.pure a) := by
  intro c r h
  exact ⟨c, rfl, h⟩

theorem Mirrors.bind {x : Tape α} {y : Reading α} {f : α → Tape β} {g : α → Reading β}
    (h : Mirrors x y) (hnext : ∀ a, Mirrors (f a) (g a)) : Mirrors (x >>= f) (y >>= g) := by
  have hseq : ∀ c, (x >>= f).run.run c = x.run.run c >>= fun p => match p with
      | (.ok a, c') => (f a).run.run c'
      | (.error fault, c') => .ok (.error fault, c') := by
    intro c
    change x.run.run c >>= _ = _
    congr 1
    funext p
    rcases p with ⟨fault | a, c'⟩ <;> rfl
  intro c r htracks
  obtain ⟨c', hc, htracks'⟩ := h htracks
  rw [hseq, hc, ok_bind]
  rcases hfirst : y.run r with ⟨a, r'⟩ | ⟨fault, r'⟩
  · rw [hfirst] at htracks'
    rw [Reading.run_bind_ok hfirst]
    exact hnext a htracks'
  · rw [hfirst] at htracks'
    rw [Reading.run_bind_error hfirst]
    exact ⟨c', rfl, htracks'⟩

theorem Mirrors.map {x : Tape α} {y : Reading α} (f : α → β) (h : Mirrors x y) :
    Mirrors (f <$> x) (f <$> y) := by
  rw [← bind_pure_comp, ← bind_pure_comp]
  exact h.bind fun a => .pure (f a)

theorem mirrors_bits {n : Nat} (hn : n ≤ 32) : Mirrors (bits n) (Reading.bits n) := by
  intro c r h
  have hpos := r.pos_le_limit
  have hadd : add c.consumed n = .ok (r.pos + n) := by
    have hroom := h.room
    have hlimit := h.limit_le
    rw [← h.consumed_eq]
    exact add_eq (by rw [h.consumed_eq]; omega)
  by_cases hleft : r.pos + n ≤ r.limit
  · rw [Reading.run_bits_within hleft]
    by_cases hzero : n = 0
    · subst hzero
      exact ⟨c, rfl, h⟩
    · obtain ⟨c', hsupply, htracks, hcount⟩ := h.exists_supply hn hleft
      obtain ⟨c'', htake, htracks'⟩ := htracks.exists_take hcount hn hleft
      have hlt := bitsValue_lt (r.peek n)
      have hhalf : bitsValue (r.peek n) % halfSize = bitsValue (r.peek n) := by
        refine Nat.mod_eq_of_lt (Nat.lt_of_lt_of_le hlt ?_)
        rw [BitReader.length_peek]
        exact Nat.pow_le_pow_right (by decide) hn
      have hbudget : ¬ c.budget < r.pos + n := by
        rw [h.budget_eq]
        exact Nat.not_lt.mpr hleft
      refine ⟨c'', ?_, htracks'⟩
      change bits n c = _
      simp only [bits, ensure_eq hn, ok_bind, if_neg hzero, hadd, if_neg hbudget, hsupply,
        sub_eq (show n ≤ 64 by omega), shiftRight_eq (show 64 - n < 64 by omega),
        htracks.held_shiftRight hcount hleft, hhalf, htake, pure_eq_ok]
      rfl
  · have hbudget : c.budget < r.pos + n := by
      rw [h.budget_eq]
      exact Nat.not_le.mp hleft
    have hzero : n ≠ 0 := by omega
    rw [Reading.run_bits_beyond hleft]
    refine ⟨c, ?_, h⟩
    change bits n c = _
    simp only [bits, ensure_eq hn, ok_bind, if_neg hzero, hadd, if_pos hbudget]
    rfl

theorem mirrors_bit : Mirrors bit Reading.bit := by
  intro c r h
  by_cases hleft : r.pos + 1 ≤ r.limit
  · obtain ⟨c', hsupply, htracks, hcount⟩ := h.exists_supply (by decide) hleft
    obtain ⟨c'', htake, htracks'⟩ := htracks.exists_take hcount (by decide) hleft
    have hbudget : ¬ c.budget ≤ c.consumed := by
      rw [h.budget_eq, h.consumed_eq]
      omega
    have htop : c'.held >>> 63 = (bitAt r.data r.pos).toNat := by
      have hvalue := htracks.held_shiftRight hcount hleft
      simpa [BitReader.peek, bitsValue] using hvalue
    have hbit : decide ((bitAt r.data r.pos).toNat = 1) = bitAt r.data r.pos := by
      cases bitAt r.data r.pos <;> rfl
    rw [Reading.run_bit_within hleft]
    refine ⟨c'', ?_, htracks'⟩
    change bit c = _
    simp only [bit, if_neg hbudget, hsupply, ok_bind, htop, htake, pure_eq_ok, hbit,
      shiftRight_eq (show 63 < 64 by decide)]
    rfl
  · have hbudget : c.budget ≤ c.consumed := by
      rw [h.budget_eq, h.consumed_eq]
      omega
    rw [Reading.run_bit_beyond hleft]
    refine ⟨c, ?_, h⟩
    change bit c = _
    simp only [bit, if_pos hbudget]
    rfl

theorem mirrors_byte : Mirrors byte Reading.byte :=
  (mirrors_bits (by decide)).bind fun value => .pure (UInt8.ofNat value)

theorem mirrors_word : Mirrors word Reading.word :=
  mirrors_byte.bind fun _ => mirrors_byte.bind fun _ => mirrors_byte.bind fun _ =>
    mirrors_byte.bind fun _ => .pure _

/-- Every call on the machine's reader ends as on the plain one. -/
theorem mirrors_call (call : ReadCall) : Mirrors (Tape.call call) (Reading.call call) := by
  cases call with
  | bit => exact mirrors_bit.map Bool.toNat
  | bits n hn => exact mirrors_bits hn
  | byte => exact mirrors_byte.map UInt8.toNat
  | word => exact mirrors_word.map UInt32.toNat

end Tape

namespace Scanner

variable {α β : Type}

/-- The scanner ends as the reading does, from any cursor that tracks its reader. -/
structure Follows (x : Scanner α) (y : Reading α) : Prop where
  ok : ∀ {c r a r'}, Cursor.Tracks c r → y.run r = .ok a r' →
    ∃ c', x.run c = .ok (a, c') ∧ c'.Tracks r'
  error : ∀ {c r fault r'}, Cursor.Tracks c r → y.run r = .error fault r' →
    x.run c = refuse fault

theorem Follows.pure (a : α) : Follows (Pure.pure a) (Pure.pure a) := by
  constructor
  · intro c r b r' h hrun
    cases hrun
    exact ⟨c, rfl, h⟩
  · intro c r fault r' _ hrun
    cases hrun

theorem Follows.refuse (fault : Fault) :
    Follows (fun _ => Machine.refuse fault : Scanner α) (Reading.refuse fault) := by
  constructor
  · intro c r b r' _ hrun
    cases hrun
  · intro c r fault' r' _ hrun
    cases hrun
    rfl

/-- What a scanner has found, the reading finds too. -/
theorem Follows.of_ok {x : Scanner α} {y : Reading α} (h : Follows x y) {c c' : Cursor}
    {r : BitReader} {a : α} (htracks : c.Tracks r) (hrun : x.run c = .ok (a, c')) :
    ∃ r', y.run r = .ok a r' ∧ c'.Tracks r' := by
  rcases hread : y.run r with ⟨b, r'⟩ | ⟨fault, r'⟩
  · obtain ⟨c'', hc, htracks'⟩ := h.ok htracks hread
    rw [hrun] at hc
    cases hc
    exact ⟨r', rfl, htracks'⟩
  · rw [h.error htracks hread] at hrun
    cases hrun

section Standing

variable {γ : Type} {x : Scanner γ} {y : Reading α} {φ : α → γ} (h : Follows x (φ <$> y))
  {c : Cursor} {r r' : BitReader} (htracks : c.Tracks r)

include h htracks

/-- A scanner whose value stands for the one read. -/
theorem Follows.ok_map {a : α} (hrun : y.run r = .ok a r') :
    ∃ c', x.run c = .ok (φ a, c') ∧ c'.Tracks r' := by
  rw [← bind_pure_comp] at h
  exact h.ok htracks (Reading.run_bind_ok hrun)

theorem Follows.error_map {fault : Fault} (hrun : y.run r = .error fault r') :
    x.run c = Machine.refuse fault := by
  rw [← bind_pure_comp] at h
  exact h.error htracks (Reading.run_bind_error hrun)

end Standing

/-- What comes after a value that stands for the one read may rely on it having been read. -/
theorem Follows.bind_map {γ : Type} {x : Scanner γ} {y : Reading α} {f : γ → Scanner β}
    {g : α → Reading β} {φ : α → γ} (h : Follows x (φ <$> y))
    (hnext : ∀ a r r', y.run r = .ok a r' → Follows (f (φ a)) (g a)) :
    Follows (x >>= f) (y >>= g) := by
  have hseq : ∀ c, (x >>= f).run c = x.run c >>= fun p => (f p.1).run p.2 := fun _ => rfl
  constructor
  · intro c r b r'' htracks hrun
    rcases hfirst : y.run r with ⟨a, r'⟩ | ⟨fault, r'⟩
    · obtain ⟨c', hc, htracks'⟩ := h.ok_map htracks hfirst
      rw [Reading.run_bind_ok hfirst] at hrun
      obtain ⟨c'', hc', htracks''⟩ := (hnext a r r' hfirst).ok htracks' hrun
      exact ⟨c'', by rw [hseq, hc, ok_bind, hc'], htracks''⟩
    · rw [Reading.run_bind_error hfirst] at hrun
      cases hrun
  · intro c r fault r'' htracks hrun
    rcases hfirst : y.run r with ⟨a, r'⟩ | ⟨fault', r'⟩
    · obtain ⟨c', hc, htracks'⟩ := h.ok_map htracks hfirst
      rw [Reading.run_bind_ok hfirst] at hrun
      rw [hseq, hc, ok_bind, (hnext a r r' hfirst).error htracks' hrun]
    · rw [Reading.run_bind_error hfirst] at hrun
      cases hrun
      rw [hseq, h.error_map htracks hfirst]
      rfl

theorem Follows.bind_run {x : Scanner α} {y : Reading α} {f : α → Scanner β} {g : α → Reading β}
    (h : Follows x y) (hnext : ∀ a r r', y.run r = .ok a r' → Follows (f a) (g a)) :
    Follows (x >>= f) (y >>= g) := by
  rw [← id_map y] at h
  exact h.bind_map hnext

theorem Follows.bind {x : Scanner α} {y : Reading α} {f : α → Scanner β} {g : α → Reading β}
    (h : Follows x y) (hnext : ∀ a, Follows (f a) (g a)) : Follows (x >>= f) (y >>= g) :=
  h.bind_run fun a _ _ _ => hnext a

theorem Follows.lift {x : Run α} {y : Except Fault α} (h : x = Machine.lift y) :
    Follows (liftM x) (Reading.lift y) := by
  subst h
  rcases y with fault | a
  · exact .refuse fault
  · exact .pure a

theorem map_lift {γ : Type} (φ : α → γ) (y : Except Fault α) :
    φ <$> Reading.lift y = Reading.lift (y.map φ) := by
  cases y <;> rfl

/-- A step of the machine that has a result is one the reading need not take. -/
theorem Follows.step {x : Run α} {a : α} {f : α → Scanner β} {y : Reading β} (h : x = .ok a)
    (hnext : Follows (f a) y) : Follows (liftM x >>= f) y := by
  subst h
  exact hnext

theorem Follows.of_mirrors {x : Tape α} {y : Reading α} (h : x.Mirrors y) :
    Follows x.forget y := by
  have hforget : ∀ c, x.forget.run c = x.run.run c >>= fun p => match p with
      | (.ok a, c') => .ok (a, c')
      | (.error fault, _) => Machine.refuse fault := fun _ => rfl
  constructor
  · intro c r a r' htracks hrun
    obtain ⟨c', hc, htracks'⟩ := h htracks
    rw [hrun] at hc htracks'
    exact ⟨c', by rw [hforget, hc]; rfl, htracks'⟩
  · intro c r fault r' htracks hrun
    obtain ⟨c', hc, -⟩ := h htracks
    rw [hrun] at hc
    rw [hforget, hc]
    rfl

theorem follows_bits {n : Nat} (hn : n ≤ 32) : Follows (bits n) (Reading.bits n) := by
  rw [← Tape.forget_bits]
  exact .of_mirrors (Tape.mirrors_bits hn)

theorem follows_bit : Follows bit Reading.bit := by
  rw [← Tape.forget_bit]
  exact .of_mirrors Tape.mirrors_bit

theorem follows_byte : Follows byte Reading.byte :=
  (follows_bits (by decide)).bind fun value => .pure (UInt8.ofNat value)

theorem follows_word : Follows word Reading.word :=
  follows_byte.bind fun _ => follows_byte.bind fun _ => follows_byte.bind fun _ =>
    follows_byte.bind fun _ => .pure _

theorem Follows.list {x : Scanner α} {y : Reading α} (h : Follows x y) (n : Nat) :
    Follows (list x n) (Reading.list y n) := by
  induction n with
  | zero => exact .pure []
  | succ n ih => exact h.bind fun a => ih.bind fun rest => .pure (a :: rest)

end Scanner

end Machine

end HopCodec

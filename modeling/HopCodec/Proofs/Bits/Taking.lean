/-
What a reader takes.  A reading that succeeded took some bits off the front of what was left.
`Determined` says that these bits alone decide it: wherever they come next the reading gives the
same, and where the data ends within them it fails for that reason.  `Spells` says that they are
the spelling of what was read.
-/
import HopCodec.Proofs.Bits.Reading

namespace HopCodec

/-- Data that agree up to a bit have the same bits up to there. -/
theorem take_bitsOf {data other : Bytes} {n : Nat} (hdata : n ≤ 8 * data.size)
    (hother : n ≤ 8 * other.size) (h : ∀ i < n, bitAt other i = bitAt data i) :
    (bitsOf other).take n = (bitsOf data).take n := by
  unfold bitsOf
  rw [← List.map_take, ← List.map_take, List.take_range, List.take_range, Nat.min_eq_left hdata,
    Nat.min_eq_left hother]
  apply List.map_congr_left
  intro i hi
  exact h i (List.mem_range.mp hi)

/-- The first bytes of a byte string hold its first bits. -/
theorem bitsOf_extract (data : Bytes) {size : Nat} (hsize : size ≤ data.size) :
    bitsOf (data.extract 0 size) = (bitsOf data).take (8 * size) := by
  have hlength : (data.extract 0 size).size = size := by
    rw [Array.size_extract]
    omega
  have hbits : ∀ i < 8 * size, bitAt (data.extract 0 size) i = bitAt data i := by
    intro i hi
    have hcut : i / 8 < size := by omega
    have hlt : i / 8 < data.size := by omega
    unfold bitAt
    simp [Array.getD_eq_getD_getElem?, hcut, hsize, hlt]
  rw [← take_bitsOf (by omega) (by omega) hbits, List.take_of_length_le]
  exact Nat.le_of_eq (by rw [length_bitsOf, hlength])

namespace BitReader

variable {r r' r'' : BitReader} {bits xs ys : List Bool}

/-- `bits` come next in `r`, and `r'` stands behind them. -/
def Takes (r : BitReader) (bits : List Bool) (r' : BitReader) : Prop :=
  ∃ h : r.pos + bits.length ≤ r.limit, bits <+: r.rest ∧ r' = r.skip bits.length h

theorem takes_skip (h : bits <+: r.rest) :
    r.Takes bits (r.skip bits.length (pos_add_le_limit h)) :=
  ⟨pos_add_le_limit h, h, rfl⟩

theorem Takes.nothing (r : BitReader) : r.Takes [] r :=
  ⟨r.pos_le_limit, List.nil_prefix, rfl⟩

theorem Takes.rest_eq (h : r.Takes bits r') : r.rest = bits ++ r'.rest := by
  obtain ⟨hle, ⟨tail, htail⟩, rfl⟩ := h
  rw [rest_skip, ← htail, List.drop_left]

theorem Takes.consumed_eq (h : r.Takes bits r') : r'.consumed = r.consumed + bits.length := by
  obtain ⟨hle, -, rfl⟩ := h
  rfl

theorem Takes.remaining_eq (h : r.Takes bits r') : r.remaining = bits.length + r'.remaining := by
  rw [← length_rest, h.rest_eq, List.length_append, length_rest]

theorem Takes.trans (h : r.Takes xs r') (h' : r'.Takes ys r'') : r.Takes (xs ++ ys) r'' := by
  have hfront : xs ++ ys <+: r.rest :=
    ⟨r''.rest, by rw [h.rest_eq, h'.rest_eq, List.append_assoc]⟩
  obtain ⟨hle, -, rfl⟩ := h
  obtain ⟨hle', -, rfl⟩ := h'
  have hboth := takes_skip hfront
  rw [skip_skip r _ _ hle hle' (by simpa using pos_add_le_limit hfront)]
  simpa only [List.length_append] using hboth

@[simp] theorem consumed_ofBytes (data : Bytes) : (ofBytes data).consumed = 0 :=
  rfl

/-- What a fresh reader took are the first bits of its data. -/
theorem Takes.eq_take {data : Bytes} (h : (ofBytes data).Takes bits r') :
    bits = (bitsOf data).take r'.consumed := by
  have hconsumed : r'.consumed = bits.length := by
    rw [h.consumed_eq, consumed_ofBytes, Nat.zero_add]
  rw [hconsumed, ← rest_ofBytes, h.rest_eq, List.take_left]

theorem Takes.consumed_le {data : Bytes} (h : (ofBytes data).Takes bits r') :
    r'.consumed ≤ 8 * data.size := by
  have hrest := congrArg List.length h.rest_eq
  rw [rest_ofBytes, length_bitsOf, List.length_append] at hrest
  have hconsumed := h.consumed_eq
  rw [consumed_ofBytes] at hconsumed
  omega

theorem rest_eq_drop (r : BitReader) : r.rest = ((bitsOf r.data).take r.limit).drop r.pos := by
  have hlimit := r.limit_le_size
  unfold rest remaining bitsOf
  rw [← List.map_take, List.take_range, Nat.min_eq_left hlimit, ← List.map_drop]
  apply List.ext_getElem
  · simp
  · intro i _ _
    simp

/-- A fresh reader of finished bytes has all that was written before it. -/
theorem isPrefix_rest_finish {w : BitWriter} (hw : w.Tidy) : w.bits <+: (ofBytes w.finish).rest := by
  obtain ⟨padding, -, hfinish⟩ := w.bitsOf_finish hw
  rw [rest_ofBytes, hfinish]
  exact List.prefix_append _ _

end BitReader

namespace Reading

variable {α β : Type} {r r' : BitReader}

theorem Reads.takes {read : Reading α} {bits : List Bool} {a : α} (h : Reads read bits a)
    (hfront : bits <+: r.rest) : ∃ r', read.run r = .ok a r' ∧ r.Takes bits r' := by
  obtain ⟨hle, hrun⟩ := h r hfront
  exact ⟨_, hrun, hle, hfront, rfl⟩

/-- A fresh reader of data that begins with `bits` reads what is in them. -/
theorem Reads.exists_run {read : Reading α} {bits : List Bool} {a : α} (h : Reads read bits a)
    {data : Bytes} (hfront : bits <+: bitsOf data) :
    ∃ r, read.run (BitReader.ofBytes data) = .ok a r ∧ r.consumed = bits.length := by
  rw [← BitReader.rest_ofBytes] at hfront
  obtain ⟨r, hrun, htakes⟩ := h.takes hfront
  refine ⟨r, hrun, ?_⟩
  rw [htakes.consumed_eq, BitReader.consumed_ofBytes, Nat.zero_add]

/-- Where the data ends within `bits`, `read` fails for that reason. -/
def Starves (read : Reading α) (bits : List Bool) : Prop :=
  ∀ r : BitReader, r.rest <+: bits → r.remaining < bits.length →
    ∃ r', read.run r = .error .truncated r'

theorem Starves.nothing (read : Reading α) : Starves read [] := by
  intro r _ hshort
  exact absurd hshort (Nat.not_lt_zero _)

theorem Starves.bind {read : Reading α} {next : α → Reading β} {xs ys : List Bool} {a : α}
    (hread : Reads read xs a) (hstarves : Starves read xs) (hnext : Starves (next a) ys) :
    Starves (read >>= next) (xs ++ ys) := by
  intro r hrest hshort
  by_cases hfirst : r.remaining < xs.length
  · have hwithin : r.rest <+: xs := by
      refine List.prefix_of_prefix_length_le hrest (List.prefix_append xs ys) ?_
      rw [BitReader.length_rest]
      exact Nat.le_of_lt hfirst
    obtain ⟨r', hrun⟩ := hstarves r hwithin hfirst
    exact ⟨r', run_bind_error hrun⟩
  · have hfront : xs <+: r.rest := by
      refine List.prefix_of_prefix_length_le (List.prefix_append xs ys) hrest ?_
      rw [BitReader.length_rest]
      exact Nat.not_lt.mp hfirst
    obtain ⟨s, hrun, htakes⟩ := hread.takes hfront
    have hleft : s.rest <+: ys := by
      rw [htakes.rest_eq, List.prefix_append_right_inj] at hrest
      exact hrest
    have hfew : s.remaining < ys.length := by
      have hremaining := htakes.remaining_eq
      rw [List.length_append] at hshort
      omega
    obtain ⟨r', hrun'⟩ := hnext s hleft hfew
    exact ⟨r', by rw [run_bind_ok hrun, hrun']⟩

/-- A result of `read` depends on the bits taken for it and on nothing else. -/
def Determined (read : Reading α) : Prop :=
  ∀ ⦃r a r'⦄, read.run r = .ok a r' →
    ∃ bits, r.Takes bits r' ∧ Reads read bits a ∧ Starves read bits

theorem Determined.pure (a : α) : Determined (Pure.pure a : Reading α) := by
  intro r b r' hrun
  cases hrun
  exact ⟨[], .nothing r, .pure a, .nothing _⟩

theorem Determined.refuse (fault : Fault) : Determined (Reading.refuse fault : Reading α) := by
  intro r a r' hrun
  cases hrun

theorem Determined.lift (x : Except Fault α) : Determined (Reading.lift x) := by
  rcases x with fault | a
  · exact .refuse fault
  · exact .pure a

/-- Later readings may rely on what was read before them. -/
theorem Determined.bind {read : Reading α} {next : α → Reading β} (hread : Determined read)
    (hnext : ∀ ⦃r a r'⦄, read.run r = .ok a r' → Determined (next a)) :
    Determined (read >>= next) := by
  intro r b r'' hrun
  obtain ⟨a, r', hfirst, hsecond⟩ := run_bind_eq_ok_iff.mp hrun
  obtain ⟨xs, hxs, hreads, hstarves⟩ := hread hfirst
  obtain ⟨ys, hys, hreads', hstarves'⟩ := hnext hfirst hsecond
  exact ⟨xs ++ ys, hxs.trans hys, hreads.bind hreads', .bind hreads hstarves hstarves'⟩

theorem Determined.list {read : Reading α} (hread : Determined read) (n : Nat) :
    Determined (Reading.list read n) := by
  induction n with
  | zero => exact .pure []
  | succ n ih => exact hread.bind fun _ a _ _ => ih.bind fun _ rest _ _ => .pure (a :: rest)

/-- A check of the bits left changes nothing if what is read next takes as many. -/
theorem Determined.guard {read : Reading α} {n : Nat} (hread : Determined read)
    (hlong : ∀ ⦃r a r'⦄, read.run r = .ok a r' → r.consumed + n ≤ r'.consumed) :
    Determined (do
      let r ← get
      if r.remaining < n then Reading.refuse .truncated
      read) := by
  have hguard : ∀ r : BitReader, (do
      let r ← get
      if r.remaining < n then Reading.refuse .truncated
      read : Reading α).run r =
        if r.remaining < n then .error .truncated r else read.run r := by
    intro r
    change (if r.remaining < n then (Reading.refuse .truncated >>= fun _ => read) else read) r = _
    split <;> rfl
  intro r a r' hrun
  rw [hguard] at hrun
  split at hrun
  · cases hrun
  obtain ⟨bits, htakes, hreads, hstarves⟩ := hread hrun
  have henough : n ≤ bits.length := by
    have hconsumed := htakes.consumed_eq
    have hleast := hlong hrun
    omega
  refine ⟨bits, htakes, hreads.guard n .truncated henough, ?_⟩
  intro s hwithin hshort
  rw [hguard]
  split
  · exact ⟨s, rfl⟩
  · exact hstarves s hwithin hshort

/-- Whatever `read` gives is spelled by the bits it takes. -/
def Spells (read : Reading α) (bits : α → List Bool) : Prop :=
  ∀ ⦃r a r'⦄, read.run r = .ok a r' → r.Takes (bits a) r'

theorem Spells.list {read : Reading α} {bits : α → List Bool} (hread : Spells read bits)
    (n : Nat) : Spells (Reading.list read n) fun items => items.flatMap bits := by
  induction n with
  | zero =>
      intro r items r' hrun
      cases hrun
      exact .nothing r
  | succ n ih =>
      intro r items r' hrun
      obtain ⟨a, s, hfirst, hrun⟩ := run_bind_eq_ok_iff.mp hrun
      obtain ⟨rest, s', hrest, hrun⟩ := run_bind_eq_ok_iff.mp hrun
      cases hrun
      exact (hread hfirst).trans (ih hrest)

/-- What was read once is read again wherever its spelling comes next. -/
theorem Determined.reads_of_run {read : Reading α} {bits : α → List Bool}
    (hread : Determined read) (hspells : Spells read bits) {a : α}
    (hrun : read.run r = .ok a r') : Reads read (bits a) a := by
  obtain ⟨xs, htakes, hreads, -⟩ := hread hrun
  have hsame : bits a = xs :=
    List.append_cancel_right ((hspells hrun).rest_eq.symm.trans htakes.rest_eq)
  rw [hsame]
  exact hreads

/-- The value of a number read is one of `n` bits, and they are its spelling. -/
theorem run_bits {n value : Nat} (h : (bits n).run r = .ok value r') :
    value < 2 ^ n ∧ r.Takes (spell value n) r' := by
  change (if hle : r.pos + n ≤ r.limit then _ else _) = _ at h
  split at h
  · next hle =>
      cases h
      have hlength := r.length_peek n
      have hlt := bitsValue_lt (r.peek n)
      have hspell := spell_bitsValue (r.peek n)
      rw [hlength] at hlt hspell
      have hfront : r.peek n <+: r.rest := by
        rw [BitReader.peek_eq_take r n hle]
        exact List.take_prefix _ _
      refine ⟨hlt, ?_⟩
      rw [hspell]
      exact ⟨hlength.symm ▸ hle, hfront, by simp [hlength]⟩
  · cases h

theorem spells_bits (n : Nat) : Spells (bits n) fun value => spell value n :=
  fun _ _ _ h => (run_bits h).2

theorem determined_bits (n : Nat) : Determined (bits n) := by
  intro r value r' h
  obtain ⟨hlt, htakes⟩ := run_bits h
  refine ⟨_, htakes, reads_bits value n hlt, ?_⟩
  intro s _ hshort
  have hfar : ¬ s.pos + n ≤ s.limit := by
    rw [length_spell] at hshort
    unfold BitReader.remaining at hshort
    omega
  exact ⟨s, run_bits_beyond hfar⟩

theorem spells_bit : Spells bit fun b => [b] := by
  intro r b r' h
  change (if hle : r.pos + 1 ≤ r.limit then _ else _) = _ at h
  split at h
  · next hle =>
      cases h
      have hpeek : r.peek 1 = [bitAt r.data r.pos] := by simp [BitReader.peek]
      have hfront : [bitAt r.data r.pos] <+: r.rest := by
        rw [← hpeek, BitReader.peek_eq_take r 1 hle]
        exact List.take_prefix _ _
      exact ⟨hle, hfront, rfl⟩
  · cases h

theorem determined_bit : Determined bit := by
  intro r b r' h
  refine ⟨[b], spells_bit h, reads_bit b, ?_⟩
  intro s _ hshort
  have hfar : ¬ s.pos + 1 ≤ s.limit := by
    rw [List.length_singleton] at hshort
    unfold BitReader.remaining at hshort
    omega
  exact ⟨s, run_bit_beyond hfar⟩

theorem determined_byte : Determined byte :=
  (determined_bits 8).bind fun _ _ _ _ => .pure _

theorem determined_word : Determined word :=
  determined_byte.bind fun _ _ _ _ => determined_byte.bind fun _ _ _ _ =>
    determined_byte.bind fun _ _ _ _ => determined_byte.bind fun _ _ _ _ => .pure _

theorem spells_byte : Spells byte fun b => spell b.toNat 8 := by
  intro r b r' h
  obtain ⟨value, s, hvalue, h⟩ := run_bind_eq_ok_iff.mp h
  cases h
  change r.Takes (spell (UInt8.ofNat value).toNat 8) r'
  rw [spell_toUInt8]
  exact spells_bits 8 hvalue

/-- The bytes of a word joined from four bytes are these four. -/
theorem join_wordBytes (b0 b1 b2 b3 : UInt8) :
    BitWriter.wordBytes (b0.toUInt32 ||| (b1.toUInt32 <<< 8) ||| (b2.toUInt32 <<< 16) |||
      (b3.toUInt32 <<< 24)) = [b0, b1, b2, b3] := by
  simp only [BitWriter.wordBytes, List.cons.injEq, and_true, ← UInt8.toBitVec_inj]
  refine ⟨?_, ?_, ?_, ?_⟩ <;> (apply BitVec.eq_of_getLsbD_eq; intro i hi)
  all_goals
    simp only [UInt32.toBitVec_or, UInt32.toBitVec_shiftLeft, UInt8.toBitVec_toUInt32,
      UInt32.toBitVec_toUInt8, UInt32.toBitVec_shiftRight, UInt32.toBitVec_ofNat,
      BitVec.ofNat_eq_ofNat, BitVec.reduceMod, BitVec.ushiftRight_eq', BitVec.shiftLeft_eq',
      BitVec.toNat_ofNat, Nat.reducePow, Nat.reduceMod, BitVec.getLsbD_or,
      BitVec.getLsbD_setWidth, BitVec.getLsbD_shiftLeft, BitVec.getLsbD_ushiftRight]
    grind

theorem spells_word :
    Spells word fun w => (BitWriter.wordBytes w).flatMap fun b => spell b.toNat 8 := by
  intro r w r' h
  obtain ⟨b0, s0, h0, h⟩ := run_bind_eq_ok_iff.mp h
  obtain ⟨b1, s1, h1, h⟩ := run_bind_eq_ok_iff.mp h
  obtain ⟨b2, s2, h2, h⟩ := run_bind_eq_ok_iff.mp h
  obtain ⟨b3, s3, h3, h⟩ := run_bind_eq_ok_iff.mp h
  cases h
  have htakes := (spells_byte h0).trans ((spells_byte h1).trans ((spells_byte h2).trans
    (spells_byte h3)))
  simpa [join_wordBytes] using htakes

section Data

open BitReader

variable {read : Reading α} {data : Bytes} {a : α}

/-- Data that agree on the bits taken give the same, from as many bits. -/
theorem Determined.run_of_agree (hread : Determined read)
    (hrun : read.run (ofBytes data) = .ok a r') {other : Bytes}
    (hlong : r'.consumed ≤ 8 * other.size)
    (hagree : ∀ i < r'.consumed, bitAt other i = bitAt data i) :
    ∃ s, read.run (ofBytes other) = .ok a s ∧ s.consumed = r'.consumed := by
  obtain ⟨bits, htakes, hreads, -⟩ := hread hrun
  have hbits : bits = (bitsOf other).take r'.consumed := by
    rw [take_bitsOf htakes.consumed_le hlong hagree]
    exact htakes.eq_take
  have hfront : bits <+: (ofBytes other).rest := by
    rw [rest_ofBytes, hbits]
    exact List.take_prefix _ _
  obtain ⟨s, hrun', htakes'⟩ := hreads.takes hfront
  refine ⟨s, hrun', ?_⟩
  rw [htakes'.consumed_eq, htakes.consumed_eq, consumed_ofBytes, consumed_ofBytes]

/-- Data cut off within the bits taken are found too short. -/
theorem Determined.run_of_cut (hread : Determined read)
    (hrun : read.run (ofBytes data) = .ok a r') {size : Nat} (hcut : 8 * size < r'.consumed) :
    ∃ s, read.run (ofBytes (data.extract 0 size)) = .error .truncated s := by
  obtain ⟨bits, htakes, -, hstarves⟩ := hread hrun
  have hsize : size ≤ data.size := by
    have hle := htakes.consumed_le
    omega
  have hbits := bitsOf_extract data hsize
  apply hstarves
  · rw [rest_ofBytes, hbits, htakes.eq_take]
    exact List.take_prefix_take_left (Nat.le_of_lt hcut)
  · rw [← length_rest, rest_ofBytes, hbits, htakes.eq_take, List.length_take, List.length_take]
    have hle := htakes.consumed_le
    rw [length_bitsOf]
    omega

end Data

end Reading

end HopCodec

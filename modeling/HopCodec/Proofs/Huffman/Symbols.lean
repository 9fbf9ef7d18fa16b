/-
Symbol streams.  In a prefix code no bit string read so far is a codeword until the whole of the
next one has been read, so a reader takes back exactly the hops that were written.
-/
import HopCodec.Huffman.Symbols
import HopCodec.Proofs.Bits.Reading
import HopCodec.Proofs.Huffman.Canonical

namespace HopCodec

namespace CodeTable

open Reading BitWriter

/-- The bits that stand for a hop; none if it has no codeword. -/
def symbolBits (t : CodeTable) (h : Hop) : List Bool :=
  (t.code? h).elim [] Codeword.bits

theorem symbolBits_eq {t : CodeTable} {h : Hop} {c : Codeword} (hc : t.code? h = some c) :
    t.symbolBits h = c.bits := by
  simp [symbolBits, hc]

theorem symbol?_eq_some {t : CodeTable} (ht : t.Sound) {h : Hop} {c : Codeword}
    (hc : t.code? h = some c) : t.symbol? c = some h := by
  have hunique : ∀ g, t.code? g = some c → g = h :=
    fun g hg => ht.prefixFree g h c c hg hc (List.prefix_refl _)
  cases hfind : t.symbol? c with
  | none =>
      have hnone := List.find?_eq_none.mp hfind h (Hop.mem_all h)
      simp [hc] at hnone
  | some g =>
      have hg := List.find?_some hfind
      rw [hunique g (by simpa using hg)]

theorem symbol?_eq_none {t : CodeTable} {c : Codeword} (hc : ∀ h, t.code? h ≠ some c) :
    t.symbol? c = none := by
  rw [symbol?, List.find?_eq_none]
  intro h _
  simpa using hc h

theorem length_le_maxLength {t : CodeTable} {h : Hop} {c : Codeword} (hc : t.code? h = some c) :
    c.length ≤ t.maxLength := by
  have hmem : c.length ∈ t.codewords.map Codeword.length :=
    List.mem_map_of_mem (mem_codewords.mpr ⟨h, hc⟩)
  have hbound : ∀ (lengths : List Nat) (start l : Nat),
      l ≤ start ∨ l ∈ lengths → l ≤ lengths.foldl max start := by
    intro lengths
    induction lengths with
    | nil => simp
    | cons m rest ih =>
        intro start l hl
        rw [List.foldl_cons]
        apply ih
        rcases hl with hl | hl
        · exact .inl (Nat.le_trans hl (Nat.le_max_left _ _))
        · rcases List.mem_cons.mp hl with rfl | hl
          · exact .inl (Nat.le_max_right _ _)
          · exact .inr hl
  exact hbound _ 0 c.length (.inr hmem)

/-- A proper beginning of a codeword is no codeword. -/
theorem take_not_codeword {t : CodeTable} (ht : t.Sound) {h : Hop} {c : Codeword}
    (hc : t.code? h = some c) {k : Nat} (hk : k < c.length) (g : Hop) :
    t.code? g ≠ some (c.take k) := by
  intro hg
  have hfront : (c.take k).bits <+: c.bits := by
    rw [Codeword.bits_take c (Nat.le_of_lt hk)]
    exact List.prefix_append _ _
  obtain rfl := ht.prefixFree g h _ c hg hc hfront
  have heq := Option.some.inj (hg.symm.trans hc)
  have hlength : k = c.length := congrArg Codeword.length heq
  omega

theorem drop_bits {c : Codeword} {k : Nat} (hk : k < c.length) :
    c.bits.drop k = c.value.testBit (c.length - 1 - k) :: c.bits.drop (k + 1) := by
  have hlt : k < c.bits.length := by simpa using hk
  rw [List.drop_eq_getElem_cons hlt]
  simp [Codeword.bits]

theorem take_succ {c : Codeword} {k : Nat} (hk : k < c.length) :
    c.take (k + 1) =
      ⟨(c.take k).length + 1,
        2 * (c.take k).value + (c.value.testBit (c.length - 1 - k)).toNat⟩ := by
  have hpos : c.length - k = (c.length - (k + 1)) + 1 := by omega
  have hbit : c.length - 1 - k = c.length - (k + 1) := by omega
  simp only [Codeword.take, Codeword.mk.injEq, true_and]
  rw [hpos, hbit, Nat.shiftRight_succ, Nat.toNat_testBit, ← Nat.shiftRight_eq_div_pow]
  omega

/-- With the first `k` bits of a codeword behind it, a reader finds the rest. -/
theorem reads_extendSymbol {t : CodeTable} (ht : t.Sound) {h : Hop} {c : Codeword}
    (hc : t.code? h = some c) (fuel k : Nat) (hk : k < c.length) (hfuel : c.length ≤ k + fuel) :
    Reads (t.extendSymbol (c.take k) fuel) (c.bits.drop k) h := by
  induction fuel generalizing k with
  | zero => omega
  | succ fuel ih =>
      rw [drop_bits hk, ← List.singleton_append]
      refine (reads_bit _).bind ?_
      simp only [← take_succ hk]
      by_cases hlast : k + 1 = c.length
      · have hfull : t.symbol? (c.take (k + 1)) = some h := by
          rw [hlast, Codeword.take_length]
          exact symbol?_eq_some ht hc
        have hdone : c.bits.drop (k + 1) = [] := by
          rw [hlast, ← Codeword.length_bits, List.drop_length]
        rw [hfull, hdone]
        exact .pure h
      · have hpart : t.symbol? (c.take (k + 1)) = none :=
          symbol?_eq_none (take_not_codeword ht hc (by omega))
        rw [hpart]
        exact ih (k + 1) (by omega) (by omega)

theorem reads_readSymbol {t : CodeTable} (ht : t.Sound) {h : Hop} {c : Codeword}
    (hc : t.code? h = some c) : Reads t.readSymbol (t.symbolBits h) h := by
  have hstart : c.take 0 = ⟨0, 0⟩ := by
    have hfits : c.value < 2 ^ c.length := ht.fits h c hc
    simp [Codeword.take, Nat.shiftRight_eq_div_pow, Nat.div_eq_of_lt hfits]
  have hreads := reads_extendSymbol ht hc t.maxLength 0 (ht.length_pos h c hc)
    (by simpa using length_le_maxLength hc)
  rw [hstart, List.drop_zero, ← symbolBits_eq hc] at hreads
  exact hreads

def Covers (t : CodeTable) (hops : List Hop) : Prop :=
  ∀ h ∈ hops, ∃ c, t.code? h = some c

theorem length_le_symbolBits {t : CodeTable} (ht : t.Sound) {hops : List Hop}
    (hcovers : t.Covers hops) : hops.length ≤ (hops.flatMap t.symbolBits).length := by
  induction hops with
  | nil => simp
  | cons h rest ih =>
      obtain ⟨c, hc⟩ := hcovers h List.mem_cons_self
      have hrest := ih fun g hg => hcovers g (List.mem_cons_of_mem _ hg)
      have hpos := ht.length_pos h c hc
      simp only [List.flatMap_cons, List.length_cons, List.length_append, symbolBits_eq hc,
        Codeword.length_bits]
      omega

theorem readSymbolsFrom_of_ok {t : CodeTable} {n : Nat} {r r' : BitReader} {hops : List Hop}
    (h : (Reading.list t.readSymbol n).run r = .ok hops r') (done : Array Hop) :
    t.readSymbolsFrom done n r = ((done ++ hops.toArray, none), r') := by
  induction n generalizing r hops done with
  | zero =>
      cases h
      simp [readSymbolsFrom]
  | succ n ih =>
      rw [Reading.list] at h
      rw [readSymbolsFrom]
      rcases hfirst : t.readSymbol.run r with ⟨hop, r₁⟩ | ⟨fault, r₁⟩
      · rw [run_bind_ok hfirst] at h
        rcases hrest : (Reading.list t.readSymbol n).run r₁ with ⟨rest, r₂⟩ | ⟨fault, r₂⟩
        · rw [run_bind_ok hrest] at h
          cases h
          simp [ih hrest]
        · rw [run_bind_error hrest] at h
          cases h
      · rw [run_bind_error hfirst] at h
        cases h

theorem readSymbolsFrom_of_error {t : CodeTable} {n : Nat} {r r' : BitReader} {fault : Fault}
    (h : (Reading.list t.readSymbol n).run r = .error fault r') (done : Array Hop) :
    ∃ kept, t.readSymbolsFrom done n r = ((kept, some fault), r') := by
  induction n generalizing r done with
  | zero => cases h
  | succ n ih =>
      rw [Reading.list] at h
      rw [readSymbolsFrom]
      rcases hfirst : t.readSymbol.run r with ⟨hop, r₁⟩ | ⟨fault₁, r₁⟩
      · rw [run_bind_ok hfirst] at h
        rcases hrest : (Reading.list t.readSymbol n).run r₁ with ⟨rest, r₂⟩ | ⟨fault₂, r₂⟩
        · rw [run_bind_ok hrest] at h
          cases h
        · rw [run_bind_error hrest] at h
          cases h
          exact ih hrest (done.push hop)
      · rw [run_bind_error hfirst] at h
        cases h
        exact ⟨done, rfl⟩

/-- Reading symbols keeps those before a failure, but nothing that reads on sees them. -/
theorem readSymbols_eq (t : CodeTable) (n : Nat) :
    t.readSymbols n = do
      Reading.lift (reserve n)
      let hops ← Reading.list t.readSymbol n
      return hops.toArray := by
  funext r
  rw [readSymbols, readReserved]
  cases reserve n with
  | error fault => rfl
  | ok done =>
      have hlift : (Reading.lift (.ok done)).run r = .ok done r := rfl
      have hrun := run_bind_ok (g := fun _ => do
        let hops ← Reading.list t.readSymbol n
        return hops.toArray) hlift
      refine Eq.trans ?_ hrun.symm
      rcases hread : (Reading.list t.readSymbol n).run r with ⟨hops, r'⟩ | ⟨fault, r'⟩
      · rw [run_bind_ok hread]
        simp only [readSymbolsFrom_of_ok hread]
        simp
      · obtain ⟨kept, hkept⟩ := readSymbolsFrom_of_error hread #[]
        rw [run_bind_error hread]
        simp only [hkept]

/-- Covered hops are read back from their bits, one after another. -/
theorem reads_symbols {t : CodeTable} (ht : t.Sound) {hops : List Hop}
    (hcovers : t.Covers hops) :
    Reads (Reading.list t.readSymbol hops.length) (hops.flatMap t.symbolBits) hops := by
  apply Reads.list
  intro h hmem
  obtain ⟨c, hc⟩ := hcovers h hmem
  exact reads_readSymbol ht hc

/-- A list of covered hops is read back from its bits. -/
theorem reads_readSymbols {t : CodeTable} (ht : t.Sound) {hops : List Hop}
    (hcovers : t.Covers hops) (hroom : hops.length < allocationLimit) :
    Reads (t.readSymbols hops.length) (hops.flatMap t.symbolBits) hops.toArray := by
  have hreserve : reserve hops.length = .ok () := if_pos hroom
  rw [readSymbols_eq, hreserve]
  exact (reads_lift_ok ()).bind ((reads_symbols ht hcovers).map List.toArray)

theorem writeSymbol_eq {t : CodeTable} {h : Hop} {c : Codeword} (hc : t.code? h = some c)
    (w : BitWriter) : t.writeSymbol w h = .ok (w.writeBits c.value c.length) := by
  simp [writeSymbol, hc]

/-- Covered hops can be written, and their bits go behind those of the writer. -/
theorem exists_writeSymbols {t : CodeTable} {hops : List Hop} (hcovers : t.Covers hops)
    {w : BitWriter} (hw : w.Tidy) :
    ∃ w', t.writeSymbols w hops = .ok w' ∧ w'.Tidy ∧
      w'.bits = w.bits ++ hops.flatMap t.symbolBits := by
  induction hops generalizing w with
  | nil => exact ⟨w, rfl, hw, by simp⟩
  | cons h rest ih =>
      obtain ⟨c, hc⟩ := hcovers h List.mem_cons_self
      obtain ⟨htidy, hbits⟩ := writes_writeBits c.value c.length w hw
      obtain ⟨w', hwrite, htidy', hbits'⟩ :=
        ih (fun g hg => hcovers g (List.mem_cons_of_mem _ hg)) htidy
      refine ⟨w', ?_, htidy', ?_⟩
      · rw [writeSymbols, List.foldlM_cons, writeSymbol_eq hc]
        exact hwrite
      · rw [hbits', hbits, List.flatMap_cons, symbolBits_eq hc, List.append_assoc]
        rfl

theorem length_entry (t : CodeTable) (h : Hop) :
    t.lengths h = (t.code? h).elim unusedLength Codeword.length := by
  simp [lengths, HopMap.map, code?, CodeEntry.length]

theorem lengths_congr {t t' : CodeTable} (h : ∀ hop, t'.code? hop = t.code? hop) :
    t'.lengths = t.lengths := by
  apply HopMap.ext
  intro hop
  rw [length_entry, length_entry, h]

/-- The lengths a table was built from are the ones it transmits. -/
theorem lengths_canonical {lengths counts : HopMap Nat} (h : Feasible lengths) {t : CodeTable}
    (ht : canonical lengths counts = .ok t) : t.lengths = lengths := by
  apply HopMap.ext
  intro hop
  obtain ⟨hunused, hused⟩ := h.code?_canonical ht hop
  rw [length_entry]
  by_cases hlength : lengths hop = unusedLength
  · rw [hunused hlength, hlength]
    rfl
  · obtain ⟨c, hc, heq⟩ := hused hlength
    rw [hc, ← heq]
    rfl

def headerBits (t : CodeTable) : List Bool :=
  t.lengths.toList.flatMap fun l => spell l lengthBits

theorem writes_writeLengths (t : CodeTable) : Writes (fun w => t.writeLengths w) t.headerBits :=
  Writes.foldl t.lengths.toList fun l _ => writes_writeBits l lengthBits

theorem ofFn_getD_toList (lengths : HopMap Nat) :
    HopMap.ofFn (fun h => lengths.toList.getD h.index unusedLength) = lengths := by
  apply HopMap.ext
  intro h
  rw [HopMap.get_ofFn]
  cases h <;> rfl

/-- A transmitted table comes back with the same codewords. -/
theorem reads_read {lengths counts : HopMap Nat} (h : Feasible lengths) {t : CodeTable}
    (ht : canonical lengths counts = .ok t) :
    ∃ t', Reads CodeTable.read t.headerBits t' ∧ t'.Sound ∧ ∀ hop, t'.code? hop = t.code? hop := by
  obtain ⟨coded, t₀, hcoded, -, ht₀, hcode₀⟩ := h.exists_canonical counts
  obtain ⟨coded', t', hcoded', -, ht', hcode'⟩ := h.exists_canonical (HopMap.const 0)
  obtain rfl : t₀ = t := Except.ok.inj (ht₀.symm.trans ht)
  obtain rfl : coded = coded' := Except.ok.inj (hcoded.symm.trans hcoded')
  have hlengths := lengths_canonical h ht
  have hshort : ∀ l ∈ t₀.lengths.toList, Reads (bits lengthBits) (spell l lengthBits) l := by
    intro l hl
    apply reads_bits
    rw [hlengths, HopMap.toList, List.mem_map] at hl
    obtain ⟨hop, -, rfl⟩ := hl
    by_cases hunused : lengths hop = unusedLength
    · rw [hunused]
      decide
    · have hlegal := (h.legal hop hunused).2
      exact Nat.lt_of_le_of_lt hlegal (by decide)
  have hlift : Reads (lift ((ofLengths (HopMap.ofFn fun h =>
      t₀.lengths.toList.getD h.index unusedLength)).mapError Fault.table)) [] t' := by
    rw [ofFn_getD_toList, hlengths, ofLengths, ht']
    exact reads_lift_ok t'
  refine ⟨t', ?_, sound_of_canonical ht', ?_⟩
  · rw [CodeTable.read, ← List.append_nil t₀.headerBits]
    exact Reads.bind (Reads.list t₀.lengths.toList hshort) hlift
  · intro hop
    exact Option.ext fun c => (hcode' hop c).trans (hcode₀ hop c).symm

end CodeTable

end HopCodec

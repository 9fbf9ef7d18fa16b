/-
Complete codes.  If the codewords of a canonical table take the whole interval of bit strings, then
some codeword begins whatever is to be read: reading a symbol can fail only at the end of the
data.  The tables of histograms that count two hops or more are such tables.
-/
import HopCodec.Proofs.Huffman.Kraft
import HopCodec.Proofs.Huffman.Optimal
import HopCodec.Proofs.Huffman.SymbolStream

namespace HopCodec

namespace Codeword

/-- A codeword begins the bit strings from its first one to the one behind its last one. -/
theorem isPrefix_spell {c : Codeword} (hfits : c.Fits) (hlength : c.length ≤ maxCodeLength)
    {value : Nat} (hvalue : value < 2 ^ maxCodeLength) (hlow : c.low ≤ value)
    (hhigh : value < c.high) : c.bits <+: spell value maxCodeLength := by
  have hspelled : (Codeword.mk maxCodeLength value).Fits := hvalue
  unfold low at hlow
  unfold high at hhigh
  refine (prefix_iff hfits hspelled hlength).mpr ?_
  rw [Nat.shiftRight_eq_div_pow]
  exact Nat.div_eq_of_lt_le hlow hhigh

end Codeword

namespace CodeTable

open Codeword Reading

/-- Codewords given out in order leave no bit string between them. -/
theorem exists_covering {next length : Nat} {list : List (Hop × Nat)}
    {coded : List (Hop × Codeword)} (hassign : assign next length list = .ok coded)
    (hrange : ∀ e ∈ list, length ≤ e.2 ∧ e.2 ≤ maxCodeLength)
    (hsorted : list.Pairwise fun a b => a.2 ≤ b.2) {value : Nat}
    (hstart : next * share length ≤ value)
    (hend : value < next * share length + (list.map fun e => share e.2).sum) :
    ∃ e ∈ coded, e.2.low ≤ value ∧ value < e.2.high := by
  induction list generalizing next length coded with
  | nil =>
      rw [List.map_nil, List.sum_nil, Nat.add_zero] at hend
      omega
  | cons d rest ih =>
      obtain ⟨h, l⟩ := d
      obtain ⟨hle, hmax⟩ := hrange (h, l) List.mem_cons_self
      rw [List.pairwise_cons] at hsorted
      obtain ⟨-, more, hrest, rfl⟩ := assign_cons_eq_ok_iff.mp hassign
      have hlow : next <<< (l - length) * share l = next * share length :=
        shiftLeft_sub_mul_share hle hmax
      by_cases hfirst : value < (next <<< (l - length) + 1) * share l
      · exact ⟨_, List.mem_cons_self, hlow.trans_le hstart, hfirst⟩
      · rw [List.map_cons, List.sum_cons, ← Nat.add_assoc] at hend
        obtain ⟨e, he, hcovers⟩ := ih hrest
          (fun d hd => ⟨hsorted.1 d hd, (hrange d (List.mem_cons_of_mem _ hd)).2⟩) hsorted.2
          (Nat.not_lt.mp hfirst) (by rwa [Nat.add_mul, hlow, Nat.one_mul])
        exact ⟨e, List.mem_cons_of_mem _ he, hcovers⟩

/-- Some codeword begins any bit string that is long enough. -/
def Complete (t : CodeTable) : Prop :=
  ∀ bits : List Bool, bits.length = maxCodeLength → ∃ h c, t.code? h = some c ∧ c.bits <+: bits

/-- Codewords that take the whole interval make a complete table. -/
theorem complete_of_kraft {lengths counts : HopMap Nat} {t : CodeTable}
    (ht : canonical lengths counts = .ok t) (hkraft : kraftSum lengths = 2 ^ maxCodeLength) :
    t.Complete := by
  intro bits hlength
  have hfeasible := feasible_of_canonical ht
  have hsound := sound_of_canonical ht
  obtain ⟨coded, t', hcoded, -, ht', hcode⟩ := hfeasible.exists_canonical counts
  obtain rfl : t' = t := Except.ok.inj (ht'.symm.trans ht)
  have hvalue := bitsValue_lt bits
  rw [hlength] at hvalue
  have hstart : 0 * share 0 ≤ bitsValue bits := by
    rw [Nat.zero_mul]
    exact Nat.zero_le _
  have hend : bitsValue bits < 0 * share 0 + ((ranked lengths).map fun e => share e.2).sum := by
    rwa [Nat.zero_mul, Nat.zero_add, sum_share_ranked, hkraft]
  obtain ⟨⟨h, c⟩, hmem, hlow, hhigh⟩ := exists_covering hcoded
    (fun e he => ⟨Nat.zero_le _, (hfeasible.ranked_legal e he).2⟩) (ranked_sorted lengths)
    hstart hend
  have hc := (hcode h c).mpr hmem
  refine ⟨h, c, hc, ?_⟩
  rw [← spell_bitsValue bits, hlength]
  exact isPrefix_spell (hsound.fits h c hc) (hsound.length_le h c hc) hvalue hlow hhigh

/-- A codeword that is cut off is found too short. -/
theorem starves_readSymbol {t : CodeTable} (ht : t.Sound) {h : Hop} {c : Codeword}
    (hc : t.code? h = some c) : Starves t.readSymbol c.bits := by
  -- written down once, the codeword is read back, and what it is read from decides the reading
  have hcovers : t.Covers [h] := fun g hg => ⟨c, List.mem_singleton.mp hg ▸ hc⟩
  obtain ⟨w, -, htidy, hbits⟩ := exists_writeSymbols hcovers BitWriter.tidy_empty
  rw [List.flatMap_cons, List.flatMap_nil, List.append_nil, symbolBits_eq hc,
    BitWriter.bits_empty, List.nil_append] at hbits
  obtain ⟨r', hrun, htakes⟩ := (symbolBits_eq hc ▸ reads_readSymbol ht hc).takes
    (hbits ▸ BitReader.isPrefix_rest_finish htidy)
  obtain ⟨bits, htakes', -, hstarves⟩ := t.determined_extendSymbol _ _ hrun
  have hsame : c.bits = bits :=
    List.append_cancel_right (htakes.rest_eq.symm.trans htakes'.rest_eq)
  rwa [hsame]

/-- A symbol of a complete code is read, unless the data ends within its codeword. -/
theorem Complete.readSymbol {t : CodeTable} (ht : t.Sound) (hcomplete : t.Complete)
    (r : BitReader) :
    ∃ h c, t.code? h = some c ∧
      ((∃ r', t.readSymbol.run r = .ok h r') ∨
        r.remaining < c.length ∧ ∃ r', t.readSymbol.run r = .error .truncated r') := by
  let padded := (r.rest ++ List.replicate maxCodeLength false).take maxCodeLength
  have hlength : padded.length = maxCodeLength := by
    simp [padded]
  obtain ⟨h, c, hc, hfront⟩ := hcomplete padded hlength
  have hpadded : c.bits <+: r.rest ++ List.replicate maxCodeLength false :=
    hfront.trans (List.take_prefix _ _)
  refine ⟨h, c, hc, ?_⟩
  by_cases hshort : r.remaining < c.length
  · have hrest : r.rest <+: c.bits := by
      refine List.prefix_of_prefix_length_le (List.prefix_append _ _) hpadded ?_
      rw [BitReader.length_rest, length_bits]
      exact Nat.le_of_lt hshort
    exact .inr ⟨hshort, starves_readSymbol ht hc r hrest (by rwa [length_bits])⟩
  · have hrest : c.bits <+: r.rest := by
      refine List.prefix_of_prefix_length_le hpadded (List.prefix_append _ _) ?_
      rw [BitReader.length_rest, length_bits]
      exact Nat.not_lt.mp hshort
    have hreads := reads_readSymbol ht hc
    rw [symbolBits_eq hc] at hreads
    obtain ⟨r', hrun, -⟩ := hreads.takes hrest
    exact .inl ⟨r', hrun⟩

end CodeTable

namespace Histogram

open HopTree CodeTable Codeword

/-- A histogram that counts two hops or more has code lengths that leave no room, and its
codewords are no longer than there are other hops. -/
theorem exists_full_codeLengths {m : Histogram} (hmany : 2 ≤ m.used.length) :
    ∃ lengths, m.codeLengths? = some lengths ∧ Feasible lengths ∧
      (∀ hop, 0 < m hop ↔ lengths hop ≠ unusedLength) ∧
      kraftSum lengths = 2 ^ maxCodeLength ∧
      ∀ hop, 0 < m hop → lengths hop ≤ m.used.length - 1 := by
  have hused : ∃ hop, 0 < m hop := by
    obtain ⟨hop, hmem⟩ := List.exists_mem_of_length_pos (Nat.lt_of_lt_of_le Nat.zero_lt_two hmany)
    exact ⟨hop, mem_used.mp hmem⟩
  obtain ⟨tree, -, hperm, hlengths⟩ := exists_tree hused
  have hnodup := hperm.nodup_iff.mpr m.used_nodup
  have hshort := hperm.length_eq ▸ m.length_used_le
  have hbase : tree.base = 0 := base_eq_zero (hperm.length_eq ▸ hmany)
  refine ⟨tree.lengths, hlengths, feasible_lengths hnodup hshort, fun hop => ?_, ?_, ?_⟩
  · rw [← mem_hops_iff hnodup hshort, hperm.mem_iff, mem_used]
  · rw [kraftSum_lengths hnodup hshort, hbase]
    rfl
  · intro hop hpos
    have hleaf := mem_used.mpr hpos
    rw [← hperm.mem_iff, ← map_fst_depths tree tree.base] at hleaf
    obtain ⟨e, he, rfl⟩ := List.mem_map.mp hleaf
    have hbound := (depths_bound tree tree.base e he).2
    rw [hbase, hperm.length_eq] at hbound
    rw [lengths_of_mem_depths hnodup e he]
    omega

theorem sum_used (m : Histogram) : (m.used.map m.get).sum = m.total := by
  have hall : (m.used.map m.get).sum = (Hop.all.map m.get).sum :=
    sum_map_filter fun hop _ hout => by simpa using hout
  rw [hall, total, ← List.sum_eq_foldl]
  rfl

/-- The table of a histogram that counts two hops or more is complete. -/
theorem exists_complete {m : Histogram} (hmany : 2 ≤ m.used.length) :
    ∃ t, m.codeTable = .ok t ∧ t.Sound ∧ (∀ hop, (t.code? hop).isSome ↔ 0 < m hop) ∧
      kraft t.lengths = 1 ∧ (∀ hop c, t.code? hop = some c → c.length ≤ m.used.length - 1) ∧
      t.Complete := by
  obtain ⟨lengths, hlengths, hfeasible, hcover, hfull, hshort⟩ := exists_full_codeLengths hmany
  obtain ⟨-, t, -, -, ht, -⟩ := hfeasible.exists_canonical m
  have hcodes : ∀ hop, (t.code? hop).isSome ↔ 0 < m hop := by
    intro hop
    obtain ⟨hunused, hused⟩ := hfeasible.code?_canonical ht hop
    rw [hcover hop]
    constructor
    · intro hsome hlength
      rw [hunused hlength] at hsome
      cases hsome
    · intro hlength
      obtain ⟨c, hc, -⟩ := hused hlength
      rw [hc]
      rfl
  refine ⟨t, by rw [codeTable, hlengths]; exact ht, sound_of_canonical ht, hcodes, ?_, ?_,
    complete_of_kraft ht hfull⟩
  · rw [lengths_canonical hfeasible ht, kraft_eq hfeasible.legal, hfull]
    norm_num
  · intro hop c hc
    have hpos : 0 < m hop := (hcodes hop).mp (by rw [hc]; rfl)
    obtain ⟨c', hc', hlength⟩ := (hfeasible.code?_canonical ht hop).2 ((hcover hop).mp hpos)
    obtain rfl := Option.some.inj (hc.symm.trans hc')
    rw [hlength]
    exact hshort hop hpos

end Histogram

end HopCodec

/-
What readers of symbols take.  A hop that was read has a codeword, and the bits taken for it are
just that codeword, whether the code is canonical or not.
-/
import HopCodec.Proofs.Bits.Taking
import HopCodec.Proofs.Huffman.Symbols
import HopCodec.Proofs.Huffman.Tree

namespace HopCodec

namespace CodeTable

open Reading BitWriter

/-- Whatever bits led to a hop, with those read before them they are its codeword. -/
theorem codeword_of_extendSymbol {t : CodeTable} {c : Codeword} {fuel : Nat} {r r' : BitReader}
    {h : Hop} (hrun : (t.extendSymbol c fuel).run r = .ok h r') :
    ∃ d more, t.code? h = some d ∧ d.bits = c.bits ++ more ∧ r.Takes more r' := by
  induction fuel generalizing c r with
  | zero => cases hrun
  | succ fuel ih =>
      rw [extendSymbol] at hrun
      obtain ⟨b, s, hbit, hrun⟩ := run_bind_eq_ok_iff.mp hrun
      have htakes : r.Takes [b] s := spells_bit hbit
      have hlonger : (Codeword.mk (c.length + 1) (2 * c.value + b.toNat)).bits = c.bits ++ [b] :=
        spell_double c.value c.length b
      cases hfound : t.symbol? ⟨c.length + 1, 2 * c.value + b.toNat⟩ with
      | some g =>
          simp only [hfound] at hrun
          cases hrun
          have hcode := List.find?_some hfound
          exact ⟨_, [b], by simpa using hcode, hlonger, htakes⟩
      | none =>
          simp only [hfound] at hrun
          obtain ⟨d, more, hcode, hbits, htakes'⟩ := ih hrun
          rw [hlonger, List.append_assoc] at hbits
          exact ⟨d, [b] ++ more, hcode, hbits, htakes.trans htakes'⟩

/-- A hop that was read has a codeword, and it was read from just that. -/
theorem codeword_of_readSymbol {t : CodeTable} {r r' : BitReader} {h : Hop}
    (hrun : t.readSymbol.run r = .ok h r') :
    (∃ c, t.code? h = some c) ∧ r.Takes (t.symbolBits h) r' := by
  obtain ⟨c, more, hcode, hbits, htakes⟩ := codeword_of_extendSymbol hrun
  have hmore : t.symbolBits h = more := (symbolBits_eq hcode).trans hbits
  exact ⟨⟨c, hcode⟩, hmore ▸ htakes⟩

theorem spells_readSymbol (t : CodeTable) : Spells t.readSymbol t.symbolBits :=
  fun _ _ _ hrun => (codeword_of_readSymbol hrun).2

theorem determined_extendSymbol (t : CodeTable) (c : Codeword) (fuel : Nat) :
    Determined (t.extendSymbol c fuel) := by
  induction fuel generalizing c with
  | zero => exact .refuse _
  | succ fuel ih =>
      refine determined_bit.bind fun _ bit _ _ => ?_
      cases hfound : t.symbol? ⟨c.length + 1, 2 * c.value + bit.toNat⟩ with
      | some h =>
          simp only [hfound]
          exact .pure h
      | none =>
          simp only [hfound]
          exact ih _

theorem covers_of_list {t : CodeTable} {n : Nat} {hops : List Hop} {r r' : BitReader}
    (hrun : (Reading.list t.readSymbol n).run r = .ok hops r') : t.Covers hops := by
  induction n generalizing r hops with
  | zero =>
      cases hrun
      simp [Covers]
  | succ n ih =>
      obtain ⟨h, s, hfirst, hrun⟩ := run_bind_eq_ok_iff.mp hrun
      obtain ⟨rest, s', hrest, hrun⟩ := run_bind_eq_ok_iff.mp hrun
      cases hrun
      rw [Covers, List.forall_mem_cons]
      exact ⟨(codeword_of_readSymbol hfirst).1, ih hrest⟩

/-- Hops that were read are as many as asked for, all have codewords, and their codewords are the
bits taken. -/
theorem of_readSymbols {t : CodeTable} {n : Nat} {hops : Array Hop} {r r' : BitReader}
    (hrun : (t.readSymbols n).run r = .ok hops r') :
    hops.size = n ∧ t.Covers hops.toList ∧ r.Takes (hops.toList.flatMap t.symbolBits) r' := by
  rw [readSymbols_eq] at hrun
  obtain ⟨_, s, hreserve, hrun⟩ := run_bind_eq_ok_iff.mp hrun
  obtain ⟨-, rfl⟩ := run_lift_eq_ok_iff.mp hreserve
  obtain ⟨symbols, s', hsymbols, hrun⟩ := run_bind_eq_ok_iff.mp hrun
  cases hrun
  exact ⟨length_of_list hsymbols, covers_of_list hsymbols, t.spells_readSymbol.list n hsymbols⟩

/-- Covered hops take the sum of their code lengths. -/
theorem length_flatMap_symbolBits {t : CodeTable} {hops : List Hop} (hcovers : t.Covers hops) :
    (hops.flatMap t.symbolBits).length = (hops.map fun h => t.lengths h).sum := by
  rw [List.length_flatMap]
  congr 1
  apply List.map_congr_left
  intro h hmem
  obtain ⟨c, hc⟩ := hcovers h hmem
  rw [symbolBits_eq hc, Codeword.length_bits, length_entry, hc]
  rfl

/-- Nine lengths of four bits each. -/
theorem length_headerBits (t : CodeTable) : t.headerBits.length = 36 :=
  List.length_flatMap.trans (by simp [HopMap.toList, Hop.all, lengthBits])

end CodeTable

end HopCodec

/-
Canonical codes on the machine.  Lengths make a table exactly if they satisfy the Kraft inequality,
and whatever they are the construction does not trap.  A histogram that counts two hops or more
gets a complete code, with which a symbol can always be read while the data lasts.
-/
import HopCodec.Proofs.Huffman.Complete
import HopCodec.Proofs.Machine.Counts

namespace HopCodec.Machine

namespace Table

/-- Of all arrays of nine lengths, just those make a table that are legal, not all unused and
satisfy the Kraft inequality.  The table keeps the lengths, and its codewords are those of a prefix
code that follow one another without a gap.  All other arrays are refused as tables; none is a
trap. -/
theorem canonical_exact (lengths : HopMap Nat) :
    ((∃ t, canonical lengths (HopMap.const 0) = .ok t) ↔
      (∀ h, lengths h = 15 ∨ 1 ≤ lengths h ∧ lengths h ≤ 14) ∧ (∃ h, lengths h ≠ 15) ∧
        CodeTable.kraft lengths ≤ 1) ∧
    (∀ t, canonical lengths (HopMap.const 0) = .ok t →
      CodeTable.ofLengths lengths = .ok t.plain ∧ t.plain.Consecutive lengths) ∧
    ∀ stop, canonical lengths (HopMap.const 0) = .error stop →
      ∃ fault, CodeTable.ofLengths lengths = .error fault ∧ stop = .fault (.table fault) := by
  have hmachine : canonical lengths (HopMap.const 0) =
      lift (((CodeTable.ofLengths lengths).mapError Fault.table).map ofPlain) := canonical_eq _ _
  rw [hmachine]
  refine ⟨Iff.trans ?_ CodeTable.feasible_iff, ?_, ?_⟩
  · constructor
    · rintro ⟨t, ht⟩
      obtain ⟨plain, hplain, -⟩ := lift_map_eq_ok_iff.mp ht
      cases hcanonical : CodeTable.ofLengths lengths with
      | error fault => rw [hcanonical] at hplain; cases hplain
      | ok _ => exact CodeTable.feasible_of_canonical hcanonical
    · intro hfeasible
      obtain ⟨-, t, -, -, ht, -⟩ := hfeasible.exists_canonical (HopMap.const 0)
      exact ⟨ofPlain t, by rw [CodeTable.ofLengths, ht]; rfl⟩
  · intro t ht
    cases hcanonical : CodeTable.ofLengths lengths with
    | error fault => rw [hcanonical] at ht; cases ht
    | ok plain =>
        rw [hcanonical] at ht
        cases ht
        exact ⟨rfl, CodeTable.consecutive_of_canonical hcanonical⟩
  · intro stop hstop
    cases hcanonical : CodeTable.ofLengths lengths with
    | error fault =>
        rw [hcanonical] at hstop
        cases hstop
        exact ⟨fault, rfl, rfl⟩
    | ok plain => rw [hcanonical] at hstop; cases hstop

/-- Lengths of a code that leaves no room: three codewords of two bits and two of three. -/
def fiveLengths : HopMap Nat :=
  ⟨#v[15, 15, 3, 2, 2, 2, 3, 15, 15]⟩

theorem canonical_exact_fiveLengths :
    ∃ t, canonical fiveLengths (HopMap.const 0) = .ok t ∧
      CodeTable.ofLengths fiveLengths = .ok t.plain ∧ t.plain.Consecutive fiveLengths := by
  obtain ⟨hexists, hexact, -⟩ := canonical_exact fiveLengths
  have hlegal : ∀ h, fiveLengths h = 15 ∨ 1 ≤ fiveLengths h ∧ fiveLengths h ≤ 14 := by
    intro h
    cases h <;> decide
  have hkraft : CodeTable.kraft fiveLengths ≤ 1 := by decide +kernel
  obtain ⟨t, ht⟩ := hexists.mpr ⟨hlegal, ⟨.null, by decide⟩, hkraft⟩
  exact ⟨t, ht, hexact t ht⟩

end Table

namespace Counts

/-- A histogram that counts two hops or more has a complete table, with codewords for just the
counted hops, none longer than there are other hops.  A symbol read with it is one of these hops;
reading fails only where fewer than eight bits are left, and only for that reason. -/
theorem codeTable_complete {m : Histogram} (hmany : 2 ≤ m.used.length)
    (htotal : m.total < wordSize) :
    ∃ t, m.codeTable = .ok t ∧ codeTable m = .ok (.ofPlain t) ∧
      (∀ hop, (t.code? hop).isSome ↔ 0 < m hop) ∧
      CodeTable.kraft t.lengths = 1 ∧
      (∀ hop c, t.code? hop = some c → c.length ≤ m.used.length - 1) ∧
      (∀ r : BitReader, (∃ hop r', t.readSymbol.run r = .ok hop r' ∧ 0 < m hop) ∨
        r.remaining < 8 ∧ ∃ r', t.readSymbol.run r = .error .truncated r') ∧
      ∀ cursor r, Cursor.Tracks cursor r →
        (∃ hop cursor', (Table.ofPlain t).readSymbol.run cursor = .ok (hop, cursor') ∧
          0 < m hop) ∨
        r.remaining < 8 ∧ (Table.ofPlain t).readSymbol.run cursor = refuse .truncated := by
  obtain ⟨t, ht, hsound, hcodes, hkraft, hlength, hcomplete⟩ := Histogram.exists_complete hmany
  have hused : ∃ hop, 0 < m hop := by
    obtain ⟨hop, c, hc⟩ := hsound.used
    exact ⟨hop, (hcodes hop).mp (by rw [hc]; rfl)⟩
  have hmachine : codeTable m = .ok (.ofPlain t) := by
    rw [codeTable_eq_of_sum hused (by rwa [Histogram.sum_used]), ht]
    rfl
  have hread : ∀ r : BitReader, (∃ hop r', t.readSymbol.run r = .ok hop r' ∧ 0 < m hop) ∨
      r.remaining < 8 ∧ ∃ r', t.readSymbol.run r = .error .truncated r' := by
    intro r
    obtain ⟨hop, c, hc, ⟨r', hrun⟩ | ⟨hshort, r', hrun⟩⟩ := hcomplete.readSymbol hsound r
    · exact .inl ⟨hop, r', hrun, (hcodes hop).mp (by rw [hc]; rfl)⟩
    · have hlong := hlength hop c hc
      have hfew := m.length_used_le
      exact .inr ⟨by omega, r', hrun⟩
  have hfollows := Table.follows_readSymbol hsound
  refine ⟨t, ht, hmachine, hcodes, hkraft, hlength, hread, fun cursor r htracks => ?_⟩
  rcases hread r with ⟨hop, r', hrun, hpos⟩ | ⟨hshort, r', hrun⟩
  · obtain ⟨cursor', hrun', -⟩ := hfollows.ok htracks hrun
    exact .inl ⟨hop, cursor', hrun', hpos⟩
  · exact .inr ⟨hshort, hfollows.error htracks hrun⟩

theorem codeTable_complete_fibonacci :
    2 ≤ fibonacci.used.length ∧ fibonacci.total < wordSize ∧
      ∃ t, fibonacci.codeTable = .ok t ∧ codeTable fibonacci = .ok (.ofPlain t) ∧
        CodeTable.kraft t.lengths = 1 ∧
        ∀ data : Bytes, data.size = 1 → ∃ hop r',
          t.readSymbol.run (.ofBytes data) = .ok hop r' ∧ 0 < fibonacci hop := by
  have hmany : 2 ≤ fibonacci.used.length := by decide
  have htotal : fibonacci.total < wordSize := by decide
  obtain ⟨t, ht, hmachine, -, hkraft, -, hread, -⟩ := codeTable_complete hmany htotal
  refine ⟨hmany, htotal, t, ht, hmachine, hkraft, fun data hsize => ?_⟩
  rcases hread (.ofBytes data) with hok | ⟨hshort, -⟩
  · exact hok
  · have hbits : (BitReader.ofBytes data).remaining = 8 := by
      simp [BitReader.remaining, BitReader.ofBytes, BitReader.withBudget, hsize]
    omega

end Counts

end HopCodec.Machine

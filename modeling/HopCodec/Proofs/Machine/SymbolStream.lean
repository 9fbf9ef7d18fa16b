/-
Symbol streams on the machine.  A cursor that resumes where a packer stood finds what was packed
since.  With any accepted table the search of the sorted slots takes back the hops that were
written, and only the bits of their codewords.
-/
import HopCodec.Proofs.Huffman.SymbolStream
import HopCodec.Proofs.Machine.Calls
import HopCodec.Proofs.Machine.Counts

namespace HopCodec.Machine

/-- The cursor stands where `p` ended, in finished bytes that hold all bits of `p'` and whatever was
written behind them. -/
structure Cursor.Resumes (c : Cursor) (p p' : Packer) : Prop where
  tracks : ∃ r, c.Tracks r
  src : ∃ later q, Packer.writeAll Packer.writeCall later p' = .ok q ∧ q.finish = .ok c.src
  consumed : p.bitLength = .ok c.consumed
  budget : ∃ n, p'.bitLength = .ok n ∧ n ≤ c.budget

namespace Cursor.Resumes

variable {c : Cursor} {r : BitReader} {p p' : Packer} {bits added : List Bool}

/-- The bits that were written since come next. -/
theorem isPrefix (h : c.Resumes p p') (hp : p.Packs bits) (hp' : p'.Packs (bits ++ added))
    (htracks : c.Tracks r) : added <+: r.rest := by
  obtain ⟨later, q, hwrite, hfinish⟩ := h.src
  obtain ⟨q', hwrite', hpacks⟩ :=
    Packer.Appends.writeAll later (fun call _ => Packer.appends_writeCall call) p' _ hp'
  obtain rfl := Except.ok.inj (hwrite'.symm.trans hwrite)
  obtain ⟨bytes, padding, hbytes, -, hbits⟩ := hpacks.exists_finish
  obtain rfl := Except.ok.inj (hbytes.symm.trans hfinish)
  have hroom : (bits ++ added).length < wordSize := by
    have hlength := congrArg List.length hbits
    have hword := htracks.room
    simp only [length_bitsOf, List.length_append] at hlength ⊢
    omega
  have hpos : r.pos = bits.length := by
    have hconsumed := h.consumed
    rw [hp.bitLength_eq (by rw [List.length_append] at hroom; omega)] at hconsumed
    exact htracks.consumed_eq.symm.trans (Except.ok.inj hconsumed).symm
  have hlimit : (bits ++ added).length ≤ r.limit := by
    obtain ⟨n, hn, hle⟩ := h.budget
    rw [hp'.bitLength_eq hroom] at hn
    rw [← htracks.budget_eq, Except.ok.inj hn]
    exact hle
  rw [List.length_append] at hlimit
  rw [BitReader.rest_eq_drop, ← htracks.src_eq, hbits, List.append_assoc, List.append_assoc,
    List.drop_take, hpos, List.drop_left, List.prefix_take_iff]
  exact ⟨List.prefix_append _ _, by omega⟩

/-- A fresh cursor of finished bytes stands before all that was packed. -/
theorem exists_ofBytes (hp : p.Packs bits) {bytes : Bytes} (hfinish : p.finish = .ok bytes)
    (hcount : Countable bytes.size) :
    ∃ c, Cursor.ofBytes bytes = .ok c ∧ c.Resumes .empty p := by
  obtain ⟨c, hc, htracks⟩ := Cursor.exists_ofBytes hcount
  obtain ⟨bytes', padding, hbytes, -, hbits⟩ := hp.exists_finish
  obtain rfl := Except.ok.inj (hbytes.symm.trans hfinish)
  have hlength := congrArg List.length hbits
  rw [length_bitsOf, List.length_append] at hlength
  have hroom := hcount.mul_lt
  refine ⟨c, hc, ⟨⟨_, htracks⟩, ⟨[], p, rfl, ?_⟩, ?_, ⟨bits.length, ?_, ?_⟩⟩⟩
  · rw [htracks.src_eq]
    exact hfinish
  · rw [htracks.consumed_eq]
    rfl
  · exact hp.bitLength_eq (by omega)
  · rw [htracks.budget_eq]
    change bits.length ≤ min (8 * bytes'.size) (8 * bytes'.size)
    omega

end Cursor.Resumes

namespace Table

/-- Tables with the same codewords are filed alike. -/
theorem slots_ofPlain_congr {t t' : CodeTable} (h : ∀ hop, t'.code? hop = t.code? hop) :
    (ofPlain t').slots = (ofPlain t).slots := by
  have hfiled : filed t' = filed t := List.filterMap_congr fun hop _ => by rw [h]
  rw [ofPlain, ofPlain, hfiled]

/-- A table that was built from lengths or from counts is filed from a canonical one. -/
theorem exists_canonical_of_built {t : Table}
    (ht : (∃ lengths, canonical lengths (HopMap.const 0) = .ok t) ∨
      ∃ m : Histogram, Counts.codeTable m = .ok t) :
    ∃ lengths counts plain, CodeTable.canonical lengths counts = .ok plain ∧ t = ofPlain plain := by
  obtain ⟨lengths, counts, hcanonical⟩ : ∃ lengths counts, canonical lengths counts = .ok t := by
    rcases ht with ⟨lengths, hlengths⟩ | ⟨m, hm⟩
    · exact ⟨lengths, _, hlengths⟩
    · obtain ⟨lengths, -, hlengths⟩ := bind_eq_ok_iff.mp hm
      exact ⟨lengths, m, hlengths⟩
  rw [canonical_eq] at hcanonical
  obtain ⟨plain, hplain, rfl⟩ := lift_map_eq_ok_iff.mp hcanonical
  exact ⟨lengths, counts, plain, mapError_eq_ok_iff.mp hplain, rfl⟩

section Directions

variable {plain : CodeTable} (hsound : plain.Sound)

include hsound

/-- Covered hops that were written come back, with the sum of their code lengths. -/
theorem read_written {hops : List Hop} (hcovers : plain.Covers hops) {p : Packer} {bits : List Bool}
    (hp : p.Packs bits) :
    ∃ p', Packer.writeAll (ofPlain plain).writeSymbol hops p = .ok p' ∧
      p'.Packs (bits ++ hops.flatMap plain.symbolBits) ∧
      ∀ c : Cursor, c.Resumes p p' →
        ∃ c', (Scanner.list (ofPlain plain).readSymbol hops.length).run c = .ok (hops, c') ∧
          (reserve hops.length = .ok () →
            ((ofPlain plain).readSymbols hops.length).run c = .ok (hops.toArray, c')) ∧
          c'.consumed = c.consumed + (hops.map fun h => plain.lengths h).sum := by
  obtain ⟨p', hwrite, hp'⟩ := appends_writeSymbols hsound hcovers p bits hp
  refine ⟨p', hwrite, hp', fun c hresumes => ?_⟩
  obtain ⟨r, htracks⟩ := hresumes.tracks
  obtain ⟨r', hrun, htakes⟩ :=
    (CodeTable.reads_symbols hsound hcovers).takes (hresumes.isPrefix hp hp' htracks)
  obtain ⟨c', hrun', htracks'⟩ := ((follows_readSymbol hsound).list _).ok htracks hrun
  refine ⟨c', hrun', fun hreserve => ?_, ?_⟩
  · have hread : (ofPlain plain).readSymbols hops.length =
        List.toArray <$> Scanner.list (ofPlain plain).readSymbol hops.length := by
      rw [readSymbols, hreserve]
      rfl
    rw [hread, StateT.run_map, hrun']
    rfl
  · rw [htracks'.consumed_eq, htracks.consumed_eq]
    exact htakes.consumed_eq.trans
      (congrArg (r.pos + ·) (CodeTable.length_flatMap_symbolBits hcovers))

/-- Hops that were read are written as the bits they were read from. -/
theorem write_read {c c' : Cursor} {r : BitReader} (htracks : c.Tracks r) {n : Nat}
    {hops : Array Hop} (hrun : ((ofPlain plain).readSymbols n).run c = .ok (hops, c')) :
    hops.size = n ∧ ∀ p bits, Packer.Packs p bits →
      ∃ p', Packer.writeAll (ofPlain plain).writeSymbol hops.toList p = .ok p' ∧
        p'.Packs (bits ++ r.rest.take (c'.consumed - c.consumed)) := by
  obtain ⟨r', hrun', htracks'⟩ := (follows_readSymbols hsound n).of_ok htracks hrun
  obtain ⟨hsize, hcovers, htakes⟩ := CodeTable.of_readSymbols hrun'
  refine ⟨hsize, fun p bits hp => ?_⟩
  obtain ⟨p', hwrite, hp'⟩ := appends_writeSymbols hsound hcovers p bits hp
  refine ⟨p', hwrite, ?_⟩
  have htaken : c'.consumed - c.consumed = (hops.toList.flatMap plain.symbolBits).length := by
    rw [htracks'.consumed_eq, htracks.consumed_eq]
    have hconsumed := htakes.consumed_eq
    unfold BitReader.consumed at hconsumed
    omega
  rw [htaken, htakes.rest_eq, List.take_left]
  exact hp'

end Directions

/-- A canonical table comes back from its lengths, with its codewords and its slots. -/
theorem read_writtenLengths {lengths counts : HopMap Nat} {plain : CodeTable}
    (hcanonical : CodeTable.canonical lengths counts = .ok plain) {p : Packer} {bits : List Bool}
    (hp : p.Packs bits) :
    ∃ p', (ofPlain plain).writeLengths p = .ok p' ∧ p'.Packs (bits ++ plain.headerBits) ∧
      ∀ c : Cursor, c.Resumes p p' →
        ∃ received c', Table.read.run c = .ok (received, c') ∧
          received.plain.lengths = plain.lengths ∧
          (∀ h, received.plain.code? h = plain.code? h) ∧
          received.slots = (ofPlain plain).slots ∧ c'.consumed = c.consumed + 36 := by
  have hfeasible := CodeTable.feasible_of_canonical hcanonical
  obtain ⟨p', hwrite, hp'⟩ :=
    appends_writeLengths (CodeTable.sound_of_canonical hcanonical) p bits hp
  refine ⟨p', hwrite, hp', fun c hresumes => ?_⟩
  obtain ⟨r, htracks⟩ := hresumes.tracks
  obtain ⟨received, hreads, -, hcodes⟩ := CodeTable.reads_read hfeasible hcanonical
  obtain ⟨r', hrun, htakes⟩ := hreads.takes (hresumes.isPrefix hp hp' htracks)
  obtain ⟨c', hrun', htracks'⟩ := follows_read.ok_map htracks hrun
  refine ⟨ofPlain received, c', hrun', CodeTable.lengths_congr hcodes, hcodes,
    slots_ofPlain_congr hcodes, ?_⟩
  rw [htracks'.consumed_eq, htracks.consumed_eq]
  exact htakes.consumed_eq.trans (congrArg (r.pos + ·) plain.length_headerBits)

/-- Symbols are decoded exactly.  With any accepted table, covered hops can be written behind
anything, and a cursor that resumes there takes back these hops and the sum of their code lengths,
symbol by symbol or, if there is room to hold them, all at once.  Conversely, rewriting hops that
were read gives the very bits they were read from.  A table built from lengths or from a histogram
is sent in 36 bits and comes back with its lengths, its codewords and its slots. -/
theorem symbols_exact (list : List (Hop × CodeEntry)) (t : Table) (ht : ofEntries list = .ok t) :
    (∀ hops, t.plain.Covers hops → ∀ p bits, Packer.Packs p bits →
      ∃ p', Packer.writeAll t.writeSymbol hops p = .ok p' ∧
        p'.Packs (bits ++ hops.flatMap t.plain.symbolBits) ∧
        ∀ c : Cursor, c.Resumes p p' →
          ∃ c', (Scanner.list t.readSymbol hops.length).run c = .ok (hops, c') ∧
            (reserve hops.length = .ok () →
              (t.readSymbols hops.length).run c = .ok (hops.toArray, c')) ∧
            c'.consumed = c.consumed + (hops.map fun h => t.plain.lengths h).sum) ∧
    (∀ c r, Cursor.Tracks c r → ∀ n hops c', (t.readSymbols n).run c = .ok (hops, c') →
      hops.size = n ∧ ∀ p bits, Packer.Packs p bits →
        ∃ p', Packer.writeAll t.writeSymbol hops.toList p = .ok p' ∧
          p'.Packs (bits ++ r.rest.take (c'.consumed - c.consumed))) ∧
    ∀ sent : Table,
      ((∃ lengths, canonical lengths (HopMap.const 0) = .ok sent) ∨
        ∃ m : Histogram, Counts.codeTable m = .ok sent) →
      ∀ p bits, Packer.Packs p bits →
        ∃ p', sent.writeLengths p = .ok p' ∧ p'.Packs (bits ++ sent.plain.headerBits) ∧
          ∀ c : Cursor, c.Resumes p p' →
            ∃ received c', Table.read.run c = .ok (received, c') ∧
              received.plain.lengths = sent.plain.lengths ∧
              (∀ h, received.plain.code? h = sent.plain.code? h) ∧
              received.slots = sent.slots ∧ c'.consumed = c.consumed + 36 := by
  rw [ofEntries_eq] at ht
  obtain ⟨plain, hplain, rfl⟩ := lift_map_eq_ok_iff.mp ht
  have hsound := CodeTable.sound_of_ofEntries (mapError_eq_ok_iff.mp hplain)
  refine ⟨fun hops hcovers p bits hp => read_written hsound hcovers hp,
    fun c r htracks n hops c' hrun => write_read hsound htracks hrun, ?_⟩
  intro sent hsent p bits hp
  obtain ⟨lengths, counts, built, hcanonical, rfl⟩ := exists_canonical_of_built hsent
  exact read_writtenLengths hcanonical hp

/-- Four codewords of two bits that neither rise nor fall with the hop index. -/
def listedCode : List (Hop × CodeEntry) :=
  [(.neg1, .ofFields 2 3 0), (.null, .ofFields 2 0 0), (.pos1, .ofFields 2 2 0),
    (.pos2, .ofFields 2 1 0)]

/-- Five symbols take ten bits. -/
theorem symbols_exact_listed :
    ∃ t, ofEntries listedCode = .ok t ∧ ∃ p bytes c c',
      Packer.writeAll t.writeSymbol [.null, .pos1, .neg1, .pos2, .pos1] .empty = .ok p ∧
        p.finish = .ok bytes ∧ Cursor.ofBytes bytes = .ok c ∧
          (Scanner.list t.readSymbol 5).run c =
            .ok ([.null, .pos1, .neg1, .pos2, .pos1], c') ∧ c'.consumed = 10 := by
  obtain ⟨plain, hplain, hcodes⟩ : ∃ plain, CodeTable.ofEntries listedCode = .ok plain ∧
      ∀ h ∈ [Hop.null, .pos1, .neg1, .pos2], (plain.code? h).isSome ∧ plain.lengths h = 2 :=
    ⟨_, rfl, by decide⟩
  have ht : ofEntries listedCode = .ok (ofPlain plain) := by
    rw [ofEntries_eq, hplain]
    rfl
  have hcovers : plain.Covers [.null, .pos1, .neg1, .pos2, .pos1] := by
    intro h hmem
    exact Option.isSome_iff_exists.mp (hcodes h (by revert h; decide)).1
  have hlengths : ([.null, .pos1, .neg1, .pos2, .pos1].map fun h => plain.lengths h).sum = 10 := by
    simp [hcodes]
  have hten : (([.null, .pos1, .neg1, .pos2, .pos1] : List Hop).flatMap
      (ofPlain plain).plain.symbolBits).length = 10 :=
    (CodeTable.length_flatMap_symbolBits hcovers).trans hlengths
  obtain ⟨p, hwrite, hp, hread⟩ :=
    (symbols_exact listedCode _ ht).1 _ hcovers .empty [] Packer.packs_empty
  obtain ⟨bytes, padding, hfinish, hpadding, hbits⟩ := hp.exists_finish
  have hcount : Countable bytes.size := by
    have hsize := congrArg List.length hbits
    rw [length_bitsOf, List.nil_append, List.length_append, List.length_replicate, hten] at hsize
    unfold Countable wordSize
    omega
  obtain ⟨c, hc, hresumes⟩ := Cursor.Resumes.exists_ofBytes hp hfinish hcount
  obtain ⟨c', hrun, -, hconsumed⟩ := hread c hresumes
  have hstart : 0 = c.consumed := Except.ok.inj hresumes.consumed
  refine ⟨_, ht, p, bytes, c, c', hwrite, hfinish, hc, hrun, ?_⟩
  rw [hconsumed, ← hstart]
  exact (Nat.zero_add _).trans hlengths

end Table

end HopCodec.Machine

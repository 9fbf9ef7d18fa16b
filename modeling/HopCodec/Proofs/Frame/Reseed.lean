/-
Seeds in a stream.  Every seed stands in a byte of its own at a place that the header tells.  With
another byte there a decoder finds the same prologue but for that seed, and reads the same hops
behind it.
-/
import HopCodec.Proofs.Frame.Channel
import HopCodec.Proofs.Frame.Inspection
import HopCodec.Proofs.Frame.Truncation

namespace HopCodec

open Reading
open Prologue (seedBits length_seedBits)

section Bytes

theorem seedBits_append (front back : List UInt8) :
    seedBits (front ++ back) = seedBits front ++ seedBits back :=
  List.flatMap_append

/-- The bits of a byte string are those of its bytes. -/
theorem bitsOf_toArray (bytes : List UInt8) : bitsOf bytes.toArray = seedBits bytes := by
  induction bytes using List.reverseRecOn with
  | nil => rfl
  | append_singleton bytes byte ih =>
      rw [← List.push_toArray, bitsOf_push, ih, seedBits_append]
      simp [seedBits]

theorem seedBits_injective {bytes bytes' : List UInt8} (h : seedBits bytes = seedBits bytes') :
    bytes = bytes' := by
  rw [← bitsOf_toArray, ← bitsOf_toArray] at h
  exact congrArg Array.toList (bitsOf_injective h)

/-- Bytes whose bits are found at a byte boundary stand there. -/
theorem exists_bytes_around {data : Bytes} {bytes : List UInt8} {xs ys : List Bool} {n : Nat}
    (hbits : bitsOf data = xs ++ (seedBits bytes ++ ys)) (hxs : xs.length = 8 * n) :
    ∃ front back, data.toList = front ++ (bytes ++ back) ∧ front.length = n ∧
      seedBits front = xs ∧ seedBits back = ys := by
  have hdata : bitsOf data = seedBits data.toList := bitsOf_toArray data.toList
  have hlength := congrArg List.length hbits
  simp only [length_bitsOf, List.length_append, hxs, length_seedBits] at hlength
  have hsplit := List.take_append_drop n data.toList
  have hrest := List.take_append_drop bytes.length (data.toList.drop n)
  have hsize : data.toList.length = data.size := Array.length_toList
  have hfront : (data.toList.take n).length = n := by
    rw [List.length_take]
    omega
  have hmiddle : ((data.toList.drop n).take bytes.length).length = bytes.length := by
    rw [List.length_take, List.length_drop]
    omega
  rw [hdata, ← hsplit, ← hrest, seedBits_append, seedBits_append] at hbits
  obtain ⟨hleft, hbits⟩ := List.append_inj hbits (by rw [length_seedBits, hfront, hxs])
  obtain ⟨hbytes, hright⟩ := List.append_inj hbits (by
    rw [length_seedBits, length_seedBits, hmiddle])
  rw [seedBits_injective hbytes] at hrest
  exact ⟨data.toList.take n, (data.toList.drop n).drop bytes.length, by rw [hrest, hsplit],
    hfront, hleft, hright⟩

end Bytes

namespace Channels

variable {α : Type}

def join (c : Channels (List α)) : List α :=
  c.luma ++ (c.chromaA ++ c.chromaB)

/-- With as many items on each channel, every item has its place among all of them. -/
theorem join_set (c : Channels (List α)) {count : Nat} (hcount : ∀ k, (c.get k).length = count)
    (k : Channel) {i : Nat} (hi : i < count) (a : α) :
    (c.set k ((c.get k).set i a)).join = c.join.set (k.index * count + i) a := by
  have hluma : c.luma.length = count := hcount .luma
  have hchromaA : c.chromaA.length = count := hcount .chromaA
  cases k with
  | luma =>
      simp only [join, set, get, Channel.index, Nat.zero_mul, Nat.zero_add]
      rw [List.set_append_left _ _ (by omega)]
  | chromaA =>
      simp only [join, set, get, Channel.index, Nat.one_mul]
      rw [List.set_append_right _ _ (by omega), hluma, Nat.add_sub_cancel_left,
        List.set_append_left _ _ (by omega)]
  | chromaB =>
      simp only [join, set, get, Channel.index]
      rw [List.set_append_right _ _ (by omega), List.set_append_right _ _ (by omega), hluma,
        hchromaA, show 2 * count + i - count - count = i by omega]

theorem getElem?_join (c : Channels (List α)) {count : Nat} (hcount : ∀ k, (c.get k).length = count)
    (k : Channel) {i : Nat} (hi : i < count) :
    c.join[k.index * count + i]? = (c.get k)[i]? := by
  have hluma : c.luma.length = count := hcount .luma
  have hchromaA : c.chromaA.length = count := hcount .chromaA
  cases k with
  | luma =>
      simp only [join, get, Channel.index, Nat.zero_mul, Nat.zero_add]
      rw [List.getElem?_append_left (by omega)]
  | chromaA =>
      simp only [join, get, Channel.index, Nat.one_mul]
      rw [List.getElem?_append_right (by omega), hluma, Nat.add_sub_cancel_left,
        List.getElem?_append_left (by omega)]
  | chromaB =>
      simp only [join, get, Channel.index]
      rw [List.getElem?_append_right (by omega), List.getElem?_append_right (by omega), hluma,
        hchromaA, show 2 * count + i - count - count = i by omega]

end Channels

namespace Prologue

def withSeed (p : Prologue) (k : Channel) (i : Nat) (seed : UInt8) : Prologue :=
  { p with seeds := p.seeds.set k ((p.seeds.get k).set i seed) }

theorem length_get_withSeed (p : Prologue) (k : Channel) (i : Nat) (seed : UInt8) (k' : Channel) :
    ((p.withSeed k i seed).seeds.get k').length = (p.seeds.get k').length := by
  by_cases hk : k' = k
  · subst hk
    rw [withSeed, Channels.get_set_self, List.length_set]
  · rw [withSeed, Channels.get_set_of_ne _ hk]

theorem bits_eq_join (p : Prologue) :
    p.bits = p.header.bits ++ (seedBits p.seeds.join ++
      (p.chromaTable.headerBits ++ (p.lumaTable.headerBits ++ samplingBits p.sampling))) := by
  simp [bits, Channels.join, Channels.toList, seedBits_append]

/-- A prologue that was read has a seed for each block of each channel. -/
theorem Received.length_seeds {p : Prologue} {g : FrameGrids} (h : p.Received g) (k : Channel) :
    (p.seeds.get k).length = p.header.blocksW.toNat * p.header.blocksH.toNat := by
  cases k
  · exact h.luma_seeds.trans h.fit.size_luma
  · exact h.chromaA_seeds.trans h.fit.size_chroma
  · exact h.chromaB_seeds.trans h.fit.size_chroma

/-- A prologue that was read is read again with any other seeds, as many of them. -/
theorem reads_seeds_changed {pow : Power} {p : Prologue} {g : FrameGrids} {r r' : BitReader}
    (hread : (read pow).run r = .ok (p, g) r') {seeds : Channels (List UInt8)}
    (hlength : ∀ k, (seeds.get k).length = (p.seeds.get k).length) :
    Reads (read pow) ({ p with seeds } : Prologue).bits ({ p with seeds }, g) := by
  obtain ⟨full, s₁, s₂, s₃, s₄, s₅, s₆, hheader, hfull, hluma, hchromaA, hchromaB, hchromaTable,
    hlumaTable, hsampling, hgrids⟩ := parts_of_read hread
  have hlumaSeeds := reads_seeds seeds.luma
  have hchromaASeeds := reads_seeds seeds.chromaA
  have hchromaBSeeds := reads_seeds seeds.chromaB
  rw [show seeds.luma.length = _ from (hlength .luma).trans (length_of_list hluma)] at hlumaSeeds
  rw [show seeds.chromaA.length = _ from (hlength .chromaA).trans (length_of_list hchromaA)]
    at hchromaASeeds
  rw [show seeds.chromaB.length = _ from (hlength .chromaB).trans (length_of_list hchromaB)]
    at hchromaBSeeds
  have hfull' : Reads (lift p.header.grids) [] full := by
    rw [hfull]
    exact reads_lift_ok full
  have hgrids' : Reads (lift (({ p with seeds } : Prologue).grids pow)) [] g := by
    rw [show ({ p with seeds } : Prologue).grids pow = p.grids pow from rfl, hgrids]
    exact reads_lift_ok g
  have hreads : Reads (Prologue.read pow) _ _ :=
    (FrameHeader.determined_read.reads_of_run FrameHeader.spells_read hheader).bind (hfull'.bind
      (hlumaSeeds.bind (hchromaASeeds.bind (hchromaBSeeds.bind
        ((CodeTable.determined_read.reads_of_run CodeTable.spells_read hchromaTable).bind
          ((CodeTable.determined_read.reads_of_run CodeTable.spells_read hlumaTable).bind
            (((determined_readSampling _).reads_of_run (spells_readSampling _) hsampling).bind
              (hgrids'.bind (Reads.pure _)))))))))
  simpa [bits, Channels.toList, List.append_assoc] using hreads

end Prologue

namespace Model

/-- The pixels of all blocks as a decoder rebuilds them from seeds and hops. -/
def rebuilt (p : Predictor) (g : FrameGrids) (seeds : Channels (List UInt8))
    (hops : Channels (List (Array Hop))) : Channels (List Bytes) :=
  ⟨rebuildBlocks p g.luma seeds.luma hops.luma,
    rebuildBlocks p g.chroma seeds.chromaA hops.chromaA,
    rebuildBlocks p g.chroma seeds.chromaB hops.chromaB⟩

@[simp] theorem get_rebuilt (p : Predictor) (g : FrameGrids) (seeds : Channels (List UInt8))
    (hops : Channels (List (Array Hop))) (k : Channel) :
    (rebuilt p g seeds hops).get k =
      rebuildBlocks p (g.channels.get k) (seeds.get k) (hops.get k) := by
  cases k <;> rfl

theorem length_rebuildBlocks {p : Predictor} {g : BlockGrid} {seeds : List UInt8}
    {hops : List (Array Hop)} (hseeds : seeds.length = g.blocks.size)
    (hhops : hops.length = g.blocks.size) :
    (rebuildBlocks p g seeds hops).length = g.blocks.size := by
  simp [rebuildBlocks, hseeds, hhops]

/-- The seed of a block matters to that block alone. -/
theorem getElem?_rebuildBlocks_set (p : Predictor) (g : BlockGrid) (seeds : List UInt8)
    (hops : List (Array Hop)) {i j : Nat} (hij : j ≠ i) (seed : UInt8) :
    (rebuildBlocks p g (seeds.set i seed) hops)[j]? = (rebuildBlocks p g seeds hops)[j]? := by
  simp only [rebuildBlocks, List.getElem?_map, List.zip, List.getElem?_zipWith,
    List.getElem?_set_ne hij.symm]

/-- What a frame that was read was read from.  With any other seeds in their place, and any frame
they rebuild, that frame is read from the same hop symbols. -/
theorem reads_reseeded {m : Model} {h : FrameHeader} {frame : Frame} {r r' : BitReader}
    (hread : m.readFrame.run r = .ok (h, frame) r') :
    ∃ p g predictor hops symbols s, (Prologue.read m.pow).run r = .ok (p, g) s ∧ p.header = h ∧
      s.Takes symbols r' ∧ g.assemble h (rebuilt predictor g p.seeds hops) = .ok frame ∧
        (∀ k, (hops.get k).length = (g.channels.get k).blocks.size) ∧
          ∀ (seeds : Channels (List UInt8)) (frame' : Frame),
            (∀ k, (seeds.get k).length = (p.seeds.get k).length) →
              g.assemble h (rebuilt predictor g seeds hops) = .ok frame' →
                Reads m.readFrame (({ p with seeds } : Prologue).bits ++ symbols) (h, frame') := by
  obtain ⟨p, g, predictor, hops, s, hprologue, rfl, hpredictor, hhops, hframe⟩ :=
    hops_of_readFrame hread
  have hreceived := Prologue.received_of_read hprologue
  obtain ⟨symbols, htakes, hreads, -⟩ := determined_readHops _ _ _ hhops
  obtain ⟨hsizeL, hsizeA, hsizeB⟩ := sizes_of_readHops hhops
  have henough : g.sampleCount ≤ symbols.length := by
    have hleast := consumed_of_readHops hreceived.luma_table hreceived.chroma_table hhops
    have hconsumed := htakes.consumed_eq
    omega
  refine ⟨p, g, predictor, hops, symbols, s, hprologue, rfl, htakes, hframe, ?_, ?_⟩
  · intro k
    cases k
    · exact hsizeL.length_eq.symm
    · exact hsizeA.length_eq.symm
    · exact hsizeB.length_eq.symm
  · intro seeds frame' hlength hframe'
    have hassemble :
        Reads (lift (g.assemble p.header (rebuilt predictor g seeds hops))) [] frame' := by
      rw [hframe']
      exact reads_lift_ok frame'
    have hnew : Reads (lift (Predictor.new? m.tables p.header.ratio.toNat p.header.prediction)) []
        predictor := by
      rw [hpredictor]
      exact reads_lift_ok predictor
    have hsampled :
        Reads (readSampled predictor { p with seeds } g) symbols (p.header, frame') := by
      rw [readSampled_eq_readHops, ← List.append_nil symbols]
      exact hreads.bind (hassemble.map fun frame => (p.header, frame))
    have hguarded := hsampled.guard g.sampleCount .truncated henough
    rw [readFrame_eq_readSampled]
    exact (Prologue.reads_seeds_changed hprologue hlength).bind (hnew.bind hguarded)

end Model

/-- Pixels of one block show up nowhere else in a plane. -/
theorem BlockGrid.get_assemble_outside {g : BlockGrid} {width height : Nat}
    (h : g.Tiles width height) {pixels pixels' : List Bytes} {plane plane' : Plane}
    (hplane : g.assemble width height pixels = .ok plane)
    (hplane' : g.assemble width height pixels' = .ok plane')
    (hlength : pixels.length = g.blocks.size) (hlength' : pixels'.length = g.blocks.size) {i : Nat}
    (hi : i < g.blocks.size) (hsame : ∀ j, j ≠ i → pixels'[j]? = pixels[j]?) {x y : Nat}
    (hx : x < width) (hy : y < height) (hout : ¬ g.blocks[i].Covers x y) :
    plane'.get x y = plane.get x y := by
  obtain ⟨j, ⟨hj, hcovers⟩, -⟩ := h.covering.pixel x hx y hy
  have hne : j ≠ i := by
    rintro rfl
    exact hout hcovers
  have hpixels : pixels'[j] = pixels[j] := by
    have hget := hsame j hne
    rwa [List.getElem?_eq_getElem (by omega), List.getElem?_eq_getElem (by omega),
      Option.some.injEq] at hget
  rw [get_assemble h hplane hj (by omega) hcovers, get_assemble h hplane' hj (by omega) hcovers,
    hpixels]

/-- A frame of the same format and size that has other pixels, if any, within one block of one
channel. -/
structure Frame.DiffersWithin (f f' : Frame) (k : Channel) (b : Block) : Prop where
  chroma : f'.chroma = f.chroma
  others : ∀ k', k' ≠ k → f'.planes.get k' = f.planes.get k'
  width : (f'.planes.get k).width = (f.planes.get k).width
  height : (f'.planes.get k).height = (f.planes.get k).height
  outside : ∀ x < (f.planes.get k).width, ∀ y < (f.planes.get k).height, ¬ b.Covers x y →
    (f'.planes.get k).get x y = (f.planes.get k).get x y

theorem Frame.DiffersWithin.congr {f f' : Frame} {k : Channel} {b b' : Block}
    (h : f.DiffersWithin f' k b) (hcovers : ∀ x y, b.Covers x y ↔ b'.Covers x y) :
    f.DiffersWithin f' k b' := by
  refine { h with outside := fun x hx y hy hout => h.outside x hx y hy ?_ }
  exact fun hin => hout ((hcovers x y).mp hin)

/-- Where the seed of a block stands: behind the twelve bytes of the fixed fields, channel by
channel in block order. -/
def FrameHeader.seedPlace (h : FrameHeader) (k : Channel) (i : Nat) : Nat :=
  12 + (k.index * (h.blocksW.toNat * h.blocksH.toNat) + i)

namespace Model

theorem differsWithin_reseeded {p : Predictor} {g : FrameGrids} {h : FrameHeader} (fit : g.Fit h)
    {seeds : Channels (List UInt8)} {hops : Channels (List (Array Hop))} {f f' : Frame}
    {k : Channel} {i : Nat} {seed : UInt8} (hf : g.assemble h (rebuilt p g seeds hops) = .ok f)
    (hf' : g.assemble h (rebuilt p g (seeds.set k ((seeds.get k).set i seed)) hops) = .ok f')
    (hseeds : (seeds.get k).length = (g.channels.get k).blocks.size)
    (hhops : (hops.get k).length = (g.channels.get k).blocks.size)
    (hi : i < (g.channels.get k).blocks.size) :
    f.DiffersWithin f' k (g.channels.get k).blocks[i] := by
  have hplane := FrameGrids.plane_of_assemble hf
  have hplane' := FrameGrids.plane_of_assemble hf'
  simp only [get_rebuilt] at hplane hplane'
  obtain ⟨hwidth, hheight⟩ := BlockGrid.size_of_assemble (hplane k)
  obtain ⟨hwidth', hheight'⟩ := BlockGrid.size_of_assemble (hplane' k)
  refine {
    chroma := (FrameGrids.shape_of_assemble hf').1.trans (FrameGrids.shape_of_assemble hf).1.symm
    others := ?_
    width := hwidth'.trans hwidth.symm
    height := hheight'.trans hheight.symm
    outside := ?_ }
  · intro k' hk
    have hother := hplane' k'
    rw [Channels.get_set_of_ne _ hk, hplane k'] at hother
    exact (Except.ok.inj hother).symm
  · intro x hx y hy hout
    have hsame := hplane' k
    rw [Channels.get_set_self] at hsame
    refine BlockGrid.get_assemble_outside (fit.tiles k) (hplane k) hsame
      (length_rebuildBlocks hseeds hhops)
      (length_rebuildBlocks (by rw [List.length_set, hseeds]) hhops) hi
      (fun j hj => getElem?_rebuildBlocks_set _ _ _ _ hj _) (hwidth ▸ hx) (hheight ▸ hy) hout

end Model

namespace Prologue

theorem length_bits_withSeed (p : Prologue) (k : Channel) (i : Nat) (seed : UInt8) :
    (p.withSeed k i seed).bits.length = p.bits.length := by
  have hlength := p.length_get_withSeed k i seed
  have hluma := hlength .luma
  have hchromaA := hlength .chromaA
  have hchromaB := hlength .chromaB
  simp only [Channels.get] at hluma hchromaA hchromaB
  rw [length_bits, length_bits, hluma, hchromaA, hchromaB]
  rfl

/-- A byte string that begins with a prologue has each seed in its place, and with another byte
there it begins with the prologue that has this seed. -/
theorem bitsOf_withSeed {p : Prologue} {data : Bytes} {rest : List Bool}
    (hbits : bitsOf data = p.bits ++ rest)
    (hcount : ∀ k, (p.seeds.get k).length = p.header.blocksW.toNat * p.header.blocksH.toNat)
    (k : Channel) {i : Nat} (hi : i < p.header.blocksW.toNat * p.header.blocksH.toNat)
    (seed : UInt8) :
    (p.seeds.get k)[i]? = data[p.header.seedPlace k i]? ∧
      bitsOf (data.setIfInBounds (p.header.seedPlace k i) seed) =
        (p.withSeed k i seed).bits ++ rest := by
  have hseed := p.seeds.getElem?_join hcount k hi
  have hin : k.index * (p.header.blocksW.toNat * p.header.blocksH.toNat) + i <
      p.seeds.join.length := by
    have hsome : (p.seeds.get k)[i]? = some _ :=
      List.getElem?_eq_getElem (by rw [hcount k]; exact hi)
    exact (List.getElem?_eq_some_iff.mp (hseed.trans hsome)).1
  rw [bits_eq_join] at hbits
  simp only [List.append_assoc] at hbits
  obtain ⟨front, back, hdata, hfront, hfrontBits, hbackBits⟩ :=
    exists_bytes_around (n := 12) hbits p.header.length_bits
  constructor
  · rw [← Array.getElem?_toList, hdata, FrameHeader.seedPlace,
      List.getElem?_append_right (by omega), hfront, Nat.add_sub_cancel_left,
      List.getElem?_append_left hin, hseed]
  · have hchanged : (data.setIfInBounds (p.header.seedPlace k i) seed).toList =
        front ++ ((p.withSeed k i seed).seeds.join ++ back) := by
      rw [Array.toList_setIfInBounds, hdata, FrameHeader.seedPlace,
        List.set_append_right _ _ (by omega), hfront, Nat.add_sub_cancel_left,
        List.set_append_left _ _ hin, ← p.seeds.join_set hcount k hi]
      rfl
    have hset : data.setIfInBounds (p.header.seedPlace k i) seed =
        (front ++ ((p.withSeed k i seed).seeds.join ++ back)).toArray := by
      rw [← hchanged, Array.toArray_toList]
    rw [hset, bitsOf_toArray,
      seedBits_append, seedBits_append, hfrontBits, hbackBits, (p.withSeed k i seed).bits_eq_join]
    simp only [List.append_assoc]
    rfl

/-- The grids that are read with a prologue are cut like those of its header. -/
theorem cutAlike_of_read {m : Model} {p : Prologue} {full g : FrameGrids} {r r' : BitReader}
    (hread : (read m.pow).run r = .ok (p, g) r') (hfull : p.header.grids = .ok full)
    (k : Channel) : (full.channels.get k).CutAlike (g.channels.get k) := by
  obtain ⟨-, -, -, -, -, -, -, -, -, -, -, -, -, -, -, hgrids⟩ := parts_of_read hread
  exact cutAlike_grids hfull hgrids k

end Prologue

namespace Model

/-- A stream with another byte in the place of a seed has this seed in its prologue and is decoded
to a frame that differs at most within the block of the seed. -/
theorem decodeFrame_reseeded {m : Model} {data : Bytes} {d : DecodedFrame}
    (hd : m.decodeFrame data = .ok d) {full : FrameGrids} (hfull : d.header.grids = .ok full)
    (k : Channel) {i : Nat} (hi : i < (full.channels.get k).blocks.size) (seed : UInt8) :
    ∃ p n d', Prologue.inspect m.pow data = .ok (p, n) ∧
      (p.seeds.get k)[i]? = data[d.header.seedPlace k i]? ∧
      Prologue.inspect m.pow (data.setIfInBounds (d.header.seedPlace k i) seed) =
        .ok (p.withSeed k i seed, n) ∧
      m.decodeFrame (data.setIfInBounds (d.header.seedPlace k i) seed) = .ok d' ∧
      d'.header = d.header ∧ d'.consumed = d.consumed ∧
      d.frame.DiffersWithin d'.frame k (full.channels.get k).blocks[i] := by
  obtain ⟨h, frame, consumed⟩ := d
  obtain ⟨r, hrun, rfl⟩ := decodeFrame_eq_ok_iff.mp hd
  obtain ⟨p, g, predictor, hops, symbols, s, hprologue, rfl, hsymbols, hframe, hhops, hreads⟩ :=
    reads_reseeded hrun
  have hreceived := Prologue.received_of_read hprologue
  have fit := hreceived.fit
  have fullFit := FrameHeader.fit_of_grids hfull
  have hcount := hreceived.length_seeds
  have hlength := p.length_get_withSeed k i seed
  have htakes := Prologue.spells_read m.pow hprologue
  have hbits : bitsOf data = p.bits ++ (symbols ++ r.rest) := by
    rw [← BitReader.rest_ofBytes, htakes.rest_eq, hsymbols.rest_eq]
  obtain ⟨hplace, hchanged⟩ := Prologue.bitsOf_withSeed hbits hcount k
    (fullFit.size_blocks k ▸ hi) seed
  obtain ⟨frame', hframe'⟩ := g.exists_assemble
    ((FrameHeader.validate_eq_ok_iff _).mp hreceived.valid).1
    (rebuilt predictor g (p.withSeed k i seed).seeds hops)
  have hinspect := Prologue.inspect_of_reads
    (Prologue.reads_seeds_changed hprologue hlength) ⟨_, hchanged.symm⟩
  have hdecode := decodeFrame_of_reads (hreads _ frame' hlength hframe')
    ⟨r.rest, by rw [hchanged, List.append_assoc]; rfl⟩
  have hsame := p.length_bits_withSeed k i seed
  refine ⟨p, _, _, Prologue.inspect_eq_ok_iff.mpr ⟨g, s, hprologue, ?_⟩, hplace, hinspect, hdecode,
    rfl, ?_, ?_⟩
  · rw [htakes.consumed_eq, BitReader.consumed_ofBytes, Nat.zero_add]
    exact hsame.symm
  · rw [hsymbols.consumed_eq, htakes.consumed_eq, BitReader.consumed_ofBytes, Nat.zero_add,
      List.length_append]
    exact congrArg (· + symbols.length) hsame
  · have hsize : (full.channels.get k).blocks.size = (g.channels.get k).blocks.size :=
      (fullFit.size_blocks k).trans (fit.size_blocks k).symm
    have hi' : i < (g.channels.get k).blocks.size := hsize ▸ hi
    have hwithin := differsWithin_reseeded fit hframe hframe'
      ((hcount k).trans (fit.size_blocks k).symm) (hhops k) hi'
    have halike := Prologue.cutAlike_of_read hprologue hfull k
    exact hwithin.congr fun x y => halike.covers_iff (fullFit.tiles k) (fit.tiles k) hi hi'

end Model

end HopCodec

/-
The closed loop.  A scan depends on its hops alone, however they were chosen, so a decoder that is
handed the hops of an encoder repeats its scan pixel by pixel.
-/
import HopCodec.Frame.Block
import HopCodec.Proofs.Block.Grid

namespace HopCodec

namespace Predictor

variable (p : Predictor) (width : Nat) (seed : UInt8)

/-- The step and the predicted value that pixel `i` of a scan is chosen from. -/
def choiceAt (choice chooser : HopChoice) (i : Nat) : Hop :=
  chooser i (stateBefore width (p.scan width seed choice i)).step
    (p.predict width (p.scan width seed choice i))

/-- Two ways of choosing that agree along a scan scan alike. -/
theorem scan_congr {choice choice' : HopChoice} {count : Nat}
    (h : ∀ i, 0 < i → i < count →
      p.choiceAt width seed choice choice' i = p.choiceAt width seed choice choice i) :
    p.scan width seed choice' count = p.scan width seed choice count := by
  induction count with
  | zero => rfl
  | succ count ih =>
      have hbefore := ih fun i hpos hi => h i hpos (by omega)
      rw [scan_succ, scan_succ, hbefore]
      unfold scanNext
      rw [size_scan]
      by_cases hzero : count = 0
      · simp [hzero]
      · have hnext := h count (Nat.pos_of_ne_zero hzero) (by omega)
        unfold choiceAt at hnext
        simp only [hzero, if_false, hnext]

/-- The `i`-th pixel of a scan is the last one of the scan up to it. -/
theorem getElem?_scan (choice : HopChoice) {i count : Nat} (h : i < count) :
    (p.scan width seed choice count)[i]? = (p.scan width seed choice (i + 1))[i]? := by
  induction count with
  | zero => omega
  | succ count ih =>
      by_cases hlast : i = count
      · rw [hlast]
      · have hlt : i < (p.scan width seed choice count).size := by
          rw [size_scan]
          omega
        rw [← ih (by omega), scan_succ]
        unfold scanNext
        split <;> rw [Array.getElem?_push_lt hlt, Array.getElem?_eq_getElem hlt]

/-- The first pixel of a scan is its seed, with the null hop. -/
theorem getElem?_scan_zero (choice : HopChoice) {count : Nat} (h : 0 < count) :
    (p.scan width seed choice count)[0]? = some ⟨seed, .null, Adaptation.start.after .null⟩ := by
  rw [getElem?_scan p width seed choice h]
  simp [scanNext, scan, stateBefore]

/-- Any later pixel of a scan has the hop that was chosen for it, and the value the hop leads to. -/
theorem getElem?_scan_pos (choice : HopChoice) {i count : Nat} (hpos : 0 < i) (h : i < count) :
    (p.scan width seed choice count)[i]? =
      let before := stateBefore width (p.scan width seed choice i)
      let hop := p.choiceAt width seed choice choice i
      some ⟨p.tables.ladder p.ratio before.step (p.predict width (p.scan width seed choice i)) hop,
        hop, before.after hop⟩ := by
  have hne : i ≠ 0 := Nat.ne_of_gt hpos
  have hlast (pixel : ScannedPixel) :
      ((p.scan width seed choice i).push pixel)[i]? = some pixel := by
    rw [Array.getElem?_push, size_scan, if_pos rfl]
  rw [getElem?_scan p width seed choice h, scan_succ]
  simp only [scanNext, size_scan, hne, if_false]
  rw [hlast]
  rfl

theorem getD_hops_scan (choice : HopChoice) {i count : Nat} (hpos : 0 < i) (h : i < count) :
    (p.scan width seed choice count).hops.getD i .null =
      p.choiceAt width seed choice choice i := by
  have hpixel := getElem?_scan_pos p width seed choice hpos h
  simp [Scan.hops, Array.getD_eq_getD_getElem?, hpixel]

/-- Prescribing the hops of a scan repeats it, pixel by pixel. -/
theorem scan_chooseFrom_hops (choice : HopChoice) {k count : Nat} (hk : k ≤ count) :
    p.scan width seed (chooseFrom (p.scan width seed choice count).hops) k =
      p.scan width seed choice k := by
  apply scan_congr
  intro i hpos hi
  exact getD_hops_scan p width seed choice hpos (Nat.lt_of_lt_of_le hi hk)

@[simp] theorem size_hops_scan (choice : HopChoice) (count : Nat) :
    (p.scan width seed choice count).hops.size = count := by
  simp [Scan.hops]

@[simp] theorem size_values_scan (choice : HopChoice) (count : Nat) :
    (p.scan width seed choice count).values.size = count := by
  simp [Scan.values]

/-- The decoder repeats the encoder's scan of a block. -/
theorem decodeBlock_encodeBlock (height : Nat) (pixels : Bytes) :
    p.decodeBlock width height (pixels.getD 0 0) (p.encodeBlock width height pixels).hops =
      p.encodeBlock width height pixels :=
  scan_chooseFrom_hops p width (pixels.getD 0 0) (p.chooseNearest pixels) (Nat.le_refl _)

/-- A coded block holds one hop for each of its samples. -/
theorem size_hops_codeBlock (plane : Plane) (b : Block) :
    (p.codeBlock plane b).hops.size = b.sampleCount := by
  simp [codeBlock, encodeBlock, Block.sampleCount]

/-- A block is rebuilt from its seed and hops as the encoder left it. -/
theorem rebuildBlock_codeBlock (plane : Plane) (b : Block) :
    p.rebuildBlock b (p.codeBlock plane b).seed (p.codeBlock plane b).hops =
      (p.codeBlock plane b).pixels := by
  simp only [rebuildBlock, codeBlock, decodeBlock_encodeBlock]

/-- A block that drops no sample is coded from its own pixels. -/
theorem codeBlock_of_full (plane : Plane) {b : Block}
    (hfull : b.x.samples = b.x.length ∧ b.y.samples = b.y.length) :
    p.codeBlock plane b =
      let pixels := plane.crop b.x.start b.y.start b.width b.height
      let scan := p.encodeBlock b.width b.height pixels
      ⟨pixels.getD 0 0, scan.hops, scan.values⟩ := by
  have hkept := Block.isDownsampled_of_full hfull
  obtain ⟨hx, hy⟩ := hfull
  simp only [codeBlock, blockSamples, blockPixels, hkept, Bool.false_eq_true, if_false, hx, hy]
  rfl

/-- A block that drops no sample is rebuilt to the values of its scan. -/
theorem rebuildBlock_of_full {b : Block}
    (hfull : b.x.samples = b.x.length ∧ b.y.samples = b.y.length) (seed : UInt8)
    (hops : Array Hop) :
    p.rebuildBlock b seed hops = (p.decodeBlock b.width b.height seed hops).values := by
  have hkept := Block.isDownsampled_of_full hfull
  obtain ⟨hx, hy⟩ := hfull
  simp only [rebuildBlock, blockPixels, hkept, Bool.false_eq_true, if_false, hx, hy]
  rfl

/-- A block that drops samples is coded from the means of its cells. -/
theorem codeBlock_of_reduced (plane : Plane) {b : Block} (hreduced : b.isDownsampled = true) :
    p.codeBlock plane b =
      let pixels := plane.crop b.x.start b.y.start b.width b.height
      let samples := (BlockCells.ofBlock b).downsample pixels b.width
      let scan := p.encodeBlock b.x.samples b.y.samples samples
      ⟨samples.getD 0 0, scan.hops, (BlockCells.ofBlock b).upsample scan.values⟩ := by
  simp only [codeBlock, blockSamples, blockPixels, hreduced, if_true]

/-- A block that drops samples is rebuilt to the values of its scan, spread over its pixels. -/
theorem rebuildBlock_of_reduced {b : Block} (hreduced : b.isDownsampled = true) (seed : UInt8)
    (hops : Array Hop) :
    p.rebuildBlock b seed hops =
      (BlockCells.ofBlock b).upsample
        (p.decodeBlock b.x.samples b.y.samples seed hops).values := by
  simp only [rebuildBlock, blockPixels, hreduced, if_true]

end Predictor

end HopCodec

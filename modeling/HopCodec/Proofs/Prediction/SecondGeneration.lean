/-
The second generation of a block.  Every reconstructed value is one that the nearest-hop search
answers with the hop that made it, so coding the reconstruction takes the same hops again.
-/
import HopCodec.Proofs.Ladder.Sweep
import HopCodec.Proofs.Prediction.ClosedLoop

namespace HopCodec

namespace Adaptation

def InRange (s : Adaptation) : Prop :=
  stepFloor ≤ s.step ∧ s.step ≤ stepCeiling

theorem inRange_start : start.InRange := by
  unfold InRange
  decide

theorem inRange_after {s : Adaptation} (h : s.InRange) (hop : Hop) : (s.after hop).InRange := by
  obtain ⟨hfloor, hceiling⟩ := h
  unfold stepFloor at hfloor
  unfold stepCeiling at hceiling
  unfold after
  split
  · simp only [InRange, stepFloor, stepCeiling]
    omega
  · simp only [InRange, stepFloor, stepCeiling]
    omega

/-- The tables have a sheet for every step that a scan can use. -/
theorem InRange.covered {s : Adaptation} (h : s.InRange) :
    1 ≤ s.step ∧ s.step < Tables.stepBound :=
  ⟨Nat.le_trans (by decide) h.1, Nat.lt_of_le_of_lt h.2 (by decide)⟩

end Adaptation

namespace Predictor

variable (p : Predictor) (width : Nat) (seed : UInt8) (choice : HopChoice)

/-- If every state of a scan is in range, so is the one the next pixel starts from. -/
theorem inRange_stateBefore {s : Scan} (h : ∀ pixel ∈ s, pixel.state.InRange) :
    (stateBefore width s).InRange := by
  unfold stateBefore
  split
  · exact Adaptation.inRange_start
  · cases hback : s.back? with
    | none => exact Adaptation.inRange_start
    | some pixel => exact h pixel (Array.mem_of_back? hback)

theorem inRange_scan (count : Nat) :
    ∀ pixel ∈ p.scan width seed choice count, pixel.state.InRange := by
  induction count with
  | zero =>
      intro pixel hmem
      simp [scan] at hmem
  | succ count ih =>
      have hbefore := inRange_stateBefore width ih
      intro pixel hmem
      rw [scan_succ, scanNext] at hmem
      split at hmem
      · rcases Array.mem_push.mp hmem with hold | rfl
        · exact ih pixel hold
        · exact Adaptation.inRange_after hbefore .null
      · rcases Array.mem_push.mp hmem with hold | rfl
        · exact ih pixel hold
        · exact Adaptation.inRange_after hbefore _

/-- The step never leaves the range from its floor to its ceiling. -/
theorem inRange_stateBefore_scan (i : Nat) :
    (stateBefore width (p.scan width seed choice i)).InRange :=
  inRange_stateBefore width (p.inRange_scan width seed choice i)

theorem getD_values_scan_zero {count : Nat} (h : 0 < count) :
    (p.scan width seed choice count).values.getD 0 0 = seed := by
  have hpixel := p.getElem?_scan_zero width seed choice h
  simp [Scan.values, Array.getD_eq_getD_getElem?, hpixel]

theorem getD_values_scan_pos {i count : Nat} (hpos : 0 < i) (h : i < count) :
    (p.scan width seed choice count).values.getD i 0 =
      p.tables.ladder p.ratio (stateBefore width (p.scan width seed choice i)).step
        (p.predict width (p.scan width seed choice i))
        (p.choiceAt width seed choice choice i) := by
  have hpixel := p.getElem?_scan_pos width seed choice hpos h
  simp [Scan.values, Array.getD_eq_getD_getElem?, hpixel]

/-- Coding the reconstruction of a block repeats its scan. -/
theorem encodeBlock_values (ht : p.tables.Swept) (hratio : ratioMin ≤ p.ratio ∧ p.ratio ≤ ratioMax)
    (height : Nat) (pixels : Bytes) :
    p.encodeBlock width height (p.encodeBlock width height pixels).values =
      p.encodeBlock width height pixels := by
  rcases Nat.eq_zero_or_pos (width * height) with hempty | hpos
  · unfold encodeBlock
    rw [hempty]
    rfl
  unfold encodeBlock
  rw [getD_values_scan_zero p width _ _ hpos]
  apply scan_congr
  intro i hi hlt
  obtain ⟨hstep, hstep'⟩ :=
    (p.inRange_stateBefore_scan width (pixels.getD 0 0) (p.chooseNearest pixels) i).covered
  obtain ⟨hordered, hnearest⟩ := ht p.ratio _
    (p.predict width (p.scan width (pixels.getD 0 0) (p.chooseNearest pixels) i)) hratio.1
    hratio.2 hstep hstep'
  unfold choiceAt
  simp only [chooseNearest]
  rw [hnearest, hnearest, getD_values_scan_pos p width _ _ hi hlt]
  unfold choiceAt
  simp only [chooseNearest]
  rw [hnearest]
  exact Ladder.swept_swept hordered _

end Predictor

end HopCodec

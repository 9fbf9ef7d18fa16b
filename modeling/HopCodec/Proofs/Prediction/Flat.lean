/-
Flat blocks.  Around pixels of one value every rule predicts that value, and the null hop keeps it:
a scan of such pixels never leaves it.
-/
import HopCodec.Proofs.Prediction.SecondGeneration

namespace HopCodec

/-- The null hop reconstructs the prediction, wherever a predictor may look. -/
def Tables.NullKeeps (t : Tables) : Prop :=
  ∀ ratio step predicted, Predictor.ratioMin ≤ ratio → ratio ≤ Predictor.ratioMax →
    1 ≤ step → step < Tables.stepBound → 1 ≤ predicted →
      t.ladder ratio step predicted .null = predicted

theorem Ladder.toValue_toNat {v : UInt8} (h : 1 ≤ v) : toValue v.toNat = v := by
  have hlt := v.toNat_lt
  have hle : 1 ≤ v.toNat := UInt8.le_iff_toNat_le.mp h
  apply UInt8.toNat_inj.mp
  rw [toNat_toValue]
  omega

/-- The ladders of the codec keep what the null hop predicts, whatever the power function. -/
theorem Tables.nullKeeps_build (pow : Power) : (Tables.build pow).NullKeeps := by
  intro ratio step predicted _ _ _ _ h
  rw [build_ladder, Ladder.around_null, Ladder.toValue_toNat h]

theorem Ladder.null_even (step : Nat) {predicted : UInt8} (h : 1 ≤ predicted) :
    Ladder.even step predicted .null = predicted := by
  rw [even, HopMap.get_ofFn, show Hop.null.index.val = 4 from rfl, Nat.add_sub_cancel,
    toValue_toNat h]

/-- All pixels scanned so far are of one value, with the null hop. -/
def Scan.Flat (s : Scan) (v : UInt8) : Prop :=
  ∀ pixel ∈ s, pixel.value = v ∧ pixel.hop = .null

namespace Scan.Flat

variable {s : Scan} {v : UInt8}

theorem value_eq (h : s.Flat v) {i : Nat} (hi : i < s.size) : s.value i = v := by
  rw [Scan.value, Array.getElem?_eq_getElem hi]
  exact (h _ (Array.getElem_mem hi)).1

theorem values_eq (h : s.Flat v) : s.values = Array.replicate s.size v :=
  Array.eq_replicate_iff.mpr ⟨Array.size_map .., fun value hvalue => by
    obtain ⟨pixel, hpixel, rfl⟩ := Array.mem_map.mp hvalue
    exact (h pixel hpixel).1⟩

theorem hops_eq (h : s.Flat v) : s.hops = Array.replicate s.size .null :=
  Array.eq_replicate_iff.mpr ⟨Array.size_map .., fun hop hhop => by
    obtain ⟨pixel, hpixel, rfl⟩ := Array.mem_map.mp hhop
    exact (h pixel hpixel).2⟩

theorem push (h : s.Flat v) (state : Adaptation) : Scan.Flat (s.push ⟨v, .null, state⟩) v := by
  intro pixel hmem
  rcases Array.mem_push.mp hmem with hold | rfl
  · exact h pixel hold
  · exact ⟨rfl, rfl⟩

end Scan.Flat

namespace Predictor

variable (p : Predictor) (width : Nat) {v : UInt8}

/-- Every rule predicts the value that all neighbours have. -/
theorem predict_flat {s : Scan} (h : s.Flat v) (hpos : 0 < s.size) : p.predict width s = v := by
  have hleft : s.value (s.size - 1) = v := h.value_eq (Nat.sub_lt hpos Nat.one_pos)
  have hmean : (v.toNat + v.toNat) / 2 = v.toNat := by omega
  unfold predict
  dsimp only
  by_cases htop : s.size / width = 0
  · rw [if_pos htop, hleft]
  have hwidth : 0 < width := Nat.pos_of_ne_zero fun hzero => htop (by rw [hzero, Nat.div_zero])
  have habove : width ≤ s.size := Nat.not_lt.mp (mt Nat.div_eq_of_lt htop)
  have hup : s.value (s.size - width) = v := h.value_eq (Nat.sub_lt hpos hwidth)
  rw [if_neg htop]
  by_cases hfirst : s.size % width = 0
  · rw [if_pos hfirst, hup]
  rw [if_neg hfirst, hleft]
  by_cases hlast : s.size % width = width - 1
  · rw [if_pos hlast, hup, hmean, UInt8.ofNat_toNat]
  · -- A pixel that is neither first nor last in its row has a corner to its upper right.
    have hcolumn := Nat.mod_lt s.size hwidth
    have hcorner : s.value (s.size - width + 1) = v := h.value_eq (by omega)
    have hblend : (4 * v.toNat + 3 * v.toNat) / 7 = v.toNat := by omega
    rw [if_neg hlast, hcorner, hmean, hblend, UInt8.ofNat_toNat]
    cases p.prediction <;> rfl

/-- One more pixel of the same value takes the null hop. -/
theorem flat_scanNext (ht : p.tables.Swept) (hnull : p.tables.NullKeeps)
    (hratio : ratioMin ≤ p.ratio ∧ p.ratio ≤ ratioMax) (hv : 1 ≤ v) {pixels : Bytes} {s : Scan}
    (hs : s.Flat v) (hstate : (stateBefore width s).InRange) (hpixel : pixels.getD s.size 0 = v) :
    Scan.Flat (p.scanNext width v (p.chooseNearest pixels) s) v := by
  unfold scanNext
  by_cases hempty : s.size = 0
  · rw [if_pos hempty]
    exact hs.push _
  · obtain ⟨hstep, hstep'⟩ := hstate.covered
    obtain ⟨hordered, hnearest⟩ := ht p.ratio _ v hratio.1 hratio.2 hstep hstep'
    have hkept := hnull p.ratio _ v hratio.1 hratio.2 hstep hstep' hv
    have hhop : p.chooseNearest pixels s.size (stateBefore width s).step v = .null := by
      rw [chooseNearest, hpixel, hnearest]
      have hswept := Ladder.swept_null hordered
      rwa [hkept] at hswept
    simp only [hempty, if_false, p.predict_flat width hs (Nat.pos_of_ne_zero hempty), hhop, hkept]
    exact hs.push _

/-- A scan of pixels of one value stays on that value. -/
theorem flat_scan (ht : p.tables.Swept) (hnull : p.tables.NullKeeps)
    (hratio : ratioMin ≤ p.ratio ∧ p.ratio ≤ ratioMax) (hv : 1 ≤ v) {pixels : Bytes} {count : Nat}
    (hpixels : ∀ i, i < count → pixels.getD i 0 = v) :
    Scan.Flat (p.scan width v (p.chooseNearest pixels) count) v := by
  induction count with
  | zero =>
      intro pixel hmem
      simp [scan] at hmem
  | succ count ih =>
      have hbefore := ih fun i hi => hpixels i (Nat.lt_succ_of_lt hi)
      rw [scan_succ]
      refine p.flat_scanNext width ht hnull hratio hv hbefore
        (p.inRange_stateBefore_scan width v _ count) ?_
      rw [size_scan]
      exact hpixels count (Nat.lt_succ_self count)

theorem flat_encodeBlock (ht : p.tables.Swept) (hnull : p.tables.NullKeeps)
    (hratio : ratioMin ≤ p.ratio ∧ p.ratio ≤ ratioMax) (hv : 1 ≤ v) (height : Nat) :
    (p.encodeBlock width height (Array.replicate (width * height) v)).Flat v := by
  have hpixels : ∀ i, i < width * height → (Array.replicate (width * height) v).getD i 0 = v := by
    intro i hi
    simp [Array.getD_eq_getD_getElem?, hi]
  unfold encodeBlock
  rcases Nat.eq_zero_or_pos (width * height) with hempty | hpos
  · intro pixel hmem
    rw [hempty] at hmem
    simp [scan] at hmem
  · rw [hpixels 0 hpos]
    exact p.flat_scan width ht hnull hratio hv hpixels

end Predictor

end HopCodec

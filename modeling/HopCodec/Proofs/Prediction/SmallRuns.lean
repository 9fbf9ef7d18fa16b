/-
Runs of small hops.  The state behind a pixel of a decoded block follows from one number, however
long the scan has been: how many small hops in a row end with that pixel, counted within its row.
-/
import HopCodec.Proofs.Prediction.ClosedLoop

namespace HopCodec

/-- The small hops are the middle three. -/
theorem Hop.isSmall_eq (h : Hop) : h.isSmall = decide (3 ≤ h.index.val ∧ h.index.val ≤ 5) := by
  cases h <;> rfl

/-- Whether the hop of a pixel counts as small.  That of the corner does, whatever it is. -/
def countsSmall (hops : Array Hop) (width x y : Nat) : Bool :=
  decide (x = 0 ∧ y = 0) ||
    hops[y * width + x]?.any fun hop => decide (3 ≤ hop.index.val ∧ hop.index.val ≤ 5)

/-- How many hops in a row that count as small end with pixel `(x, y)`, in row `y` alone. -/
def smallRun (hops : Array Hop) (width x y : Nat) : Nat :=
  ((List.range (x + 1)).reverse.takeWhile fun column => countsSmall hops width column y).length

/-- Two rows of four pixels.  A row starts its own run, and a large hop ends one. -/
example :
    let hops := #[.pos4, .null, .neg1, .pos1, .neg1, .pos2, .null, .null]
    (List.range 4).map (smallRun hops 4 · 0) = [1, 2, 3, 4] ∧
      (List.range 4).map (smallRun hops 4 · 1) = [1, 0, 1, 2] := by
  decide

theorem smallRun_zero (hops : Array Hop) (width y : Nat) :
    smallRun hops width 0 y = if countsSmall hops width 0 y then 1 else 0 := by
  unfold smallRun
  cases hsmall : countsSmall hops width 0 y <;> simp [hsmall]

theorem smallRun_succ (hops : Array Hop) (width x y : Nat) :
    smallRun hops width (x + 1) y =
      if countsSmall hops width (x + 1) y then smallRun hops width x y + 1 else 0 := by
  unfold smallRun
  rw [List.range_succ, List.reverse_append, List.reverse_singleton, List.singleton_append,
    List.takeWhile_cons]
  cases countsSmall hops width (x + 1) y with
  | true => rfl
  | false => rfl

namespace Adaptation

/-- The state behind a run of small hops. -/
def behind (run : Nat) : Adaptation :=
  ⟨if run = 0 then 10 else max 4 (11 - run), decide (0 < run)⟩

/-- A fresh row starts a run with its first hop. -/
theorem start_after (hop : Hop) : start.after hop = behind (if hop.isSmall then 1 else 0) := by
  cases hop <;> rfl

/-- A small hop makes a run longer by one, any other ends it. -/
theorem behind_after (run : Nat) (hop : Hop) :
    (behind run).after hop = behind (if hop.isSmall then run + 1 else 0) := by
  cases hsmall : hop.isSmall with
  | false => simp [after, hsmall, behind, stepCeiling]
  | true =>
      cases run with
      | zero => simp [after, hsmall, behind, stepCeiling]
      | succ run =>
          simp only [after, hsmall, behind, stepFloor]
          simp
          omega

end Adaptation

namespace Predictor

variable (p : Predictor) (width : Nat) (seed : UInt8) (choice : HopChoice)

/-- The hop that a scan takes at a pixel. -/
def hopTaken (i : Nat) : Hop :=
  if i = 0 then .null else p.choiceAt width seed choice choice i

theorem getElem?_states_scan {i count : Nat} (h : i < count) :
    (p.scan width seed choice count).states[i]? =
      some ((stateBefore width (p.scan width seed choice i)).after
        (p.hopTaken width seed choice i)) := by
  rw [Scan.states, Array.getElem?_map]
  rcases Nat.eq_zero_or_pos i with rfl | hpos
  · rw [p.getElem?_scan_zero width seed choice h]
    simp [hopTaken, scan, stateBefore]
  · rw [p.getElem?_scan_pos width seed choice hpos h, hopTaken, if_neg (Nat.ne_of_gt hpos)]
    rfl

/-- Every row starts from the fresh state. -/
theorem stateBefore_scan_column_zero (y : Nat) :
    stateBefore width (p.scan width seed choice (y * width)) = .start := by
  rw [stateBefore, size_scan, Nat.mul_mod_left, if_pos rfl]

/-- Within a row, a pixel starts from the state behind the one to its left. -/
theorem getElem?_states_left {x y count : Nat} (hx : x + 1 < width)
    (h : y * width + x < count) :
    (p.scan width seed choice count).states[y * width + x]? =
      some (stateBefore width (p.scan width seed choice (y * width + (x + 1)))) := by
  have hcolumn : (y * width + (x + 1)) % width = x + 1 := by
    rw [Nat.mul_add_mod', Nat.mod_eq_of_lt hx]
  have hlast : (p.scan width seed choice (y * width + (x + 1))).back? =
      (p.scan width seed choice (y * width + x + 1))[y * width + x]? := by
    rw [Array.back?_eq_getElem?, size_scan]
    rfl
  have hstate := p.getElem?_states_scan width seed choice (Nat.lt_succ_self (y * width + x))
  rw [Scan.states, Array.getElem?_map] at hstate ⊢
  rw [getElem?_scan p width seed choice h, stateBefore, size_scan, hcolumn,
    if_neg (Nat.succ_ne_zero x), hlast, hstate]
  rfl

/-- The hop that a decoder takes counts as small exactly if it is, the corner's apart. -/
theorem isSmall_hopTaken {hops : Array Hop} {x y : Nat} (hx : x < width)
    (h : y * width + x < hops.size) :
    (p.hopTaken width seed (chooseFrom hops) (y * width + x)).isSmall =
      countsSmall hops width x y := by
  have hcorner : y * width + x = 0 ↔ x = 0 ∧ y = 0 := by
    have hpos : 0 < width := Nat.zero_lt_of_lt hx
    simp only [Nat.add_eq_zero_iff, Nat.mul_eq_zero]
    omega
  have hhop : hops[y * width + x]? = some hops[y * width + x] := Array.getElem?_eq_getElem h
  unfold hopTaken countsSmall
  by_cases hzero : y * width + x = 0
  · rw [if_pos hzero, decide_eq_true (hcorner.mp hzero), Bool.true_or]
    rfl
  · rw [if_neg hzero, decide_eq_false (mt hcorner.mpr hzero), Bool.false_or, hhop, Option.any_some,
      Hop.isSmall_eq]
    simp only [choiceAt, chooseFrom, Array.getD_eq_getD_getElem?, hhop, Option.getD_some]

/-- The state behind a pixel is the one behind its run of small hops. -/
theorem getElem?_states_chooseFrom {hops : Array Hop} {x y count : Nat} (hx : x < width)
    (h : y * width + x < count) (hcount : count ≤ hops.size) :
    (p.scan width seed (chooseFrom hops) count).states[y * width + x]? =
      some (.behind (smallRun hops width x y)) := by
  have hsmall := p.isSmall_hopTaken width seed hx (Nat.lt_of_lt_of_le h hcount)
  induction x with
  | zero =>
      rw [p.getElem?_states_scan width seed _ h, smallRun_zero, ← hsmall, Nat.add_zero,
        stateBefore_scan_column_zero, Adaptation.start_after]
  | succ x ih =>
      have hbefore : y * width + x < count := by omega
      have hx' : x < width := Nat.lt_of_succ_lt hx
      have hleft := ih hx' hbefore
        (p.isSmall_hopTaken width seed hx' (Nat.lt_of_lt_of_le hbefore hcount))
      rw [p.getElem?_states_left width seed _ hx hbefore, Option.some.injEq] at hleft
      rw [p.getElem?_states_scan width seed _ h, hleft, smallRun_succ, ← hsmall,
        Adaptation.behind_after]

end Predictor

end HopCodec

/-
The sweep over an ordered ladder.  Its distinct values rise strictly, each with the hop that has
priority among those that reach it; a target that is such a value is answered by that hop.
-/
import Mathlib.Data.List.Basic
import HopCodec.Prediction

namespace HopCodec

namespace Ladder

theorem prior_eq (r s : Rung) : r.prior s = r ∨ r.prior s = s := by
  unfold Rung.prior
  split
  · exact .inl rfl
  · exact .inr rfl

theorem value_prior {r s : Rung} (h : r.value = s.value) : (r.prior s).value = s.value := by
  rcases prior_eq r s with hprior | hprior
  · rw [hprior, h]
  · rw [hprior]

theorem rank_prior_le (r s : Rung) :
    (r.prior s).hop.rank ≤ r.hop.rank ∧ (r.prior s).hop.rank ≤ s.hop.rank := by
  unfold Rung.prior
  split
  · next hlt => exact ⟨Nat.le_refl _, Nat.le_of_lt hlt⟩
  · next hge => exact ⟨Nat.not_lt.mp hge, Nat.le_refl _⟩

/-- Of two rungs, a null rung has priority. -/
theorem prior_null {r s : Rung} (h : r.hop = .null ∨ s.hop = .null) :
    (r.prior s).hop = .null := by
  have hnull {r : Rung} (hrank : r.hop.rank = 0) : r.hop = .null := Hop.rank_injective hrank
  unfold Rung.prior
  split
  · next hlt =>
      rcases h with hr | hs
      · exact hr
      · rw [hs] at hlt
        exact absurd hlt (Nat.not_lt_zero _)
  · next hge =>
      rcases h with hr | hs
      · rw [hr] at hge
        exact hnull (Nat.le_zero.mp (Nat.not_lt.mp hge))
      · exact hs

theorem mem_of_mem_mergeEqual {rungs : List Rung} {r : Rung} (h : r ∈ mergeEqual rungs) :
    r ∈ rungs := by
  induction rungs generalizing r with
  | nil => exact h
  | cons a rest ih =>
      rw [mergeEqual] at h
      split at h
      · next hnil =>
          rw [List.mem_singleton.mp h]
          exact List.mem_cons_self
      · next s more hmerged =>
          rw [hmerged] at ih
          split at h
          · rcases List.mem_cons.mp h with rfl | hmore
            · rcases prior_eq a s with heq | heq
              · rw [heq]
                exact List.mem_cons_self
              · rw [heq]
                exact List.mem_cons_of_mem a (ih List.mem_cons_self)
            · exact List.mem_cons_of_mem a (ih (List.mem_cons_of_mem s hmore))
          · rcases List.mem_cons.mp h with rfl | hmore
            · exact List.mem_cons_self
            · exact List.mem_cons_of_mem a (ih hmore)

/-- Merging equal neighbours of a rising list leaves a strictly rising one. -/
theorem pairwise_mergeEqual {rungs : List Rung}
    (h : rungs.Pairwise fun r s => r.value ≤ s.value) :
    (mergeEqual rungs).Pairwise fun r s => r.value < s.value := by
  induction rungs with
  | nil => exact .nil
  | cons a rest ih =>
      rw [List.pairwise_cons] at h
      have hrest := ih h.2
      rw [mergeEqual]
      split
      · exact List.pairwise_singleton _ _
      · next s more hmerged =>
          rw [hmerged] at hrest
          have hle : a.value ≤ s.value := by
            apply h.1
            apply mem_of_mem_mergeEqual
            rw [hmerged]
            exact List.mem_cons_self
          rw [List.pairwise_cons] at hrest
          split
          · next heq =>
              rw [List.pairwise_cons, value_prior heq]
              exact hrest
          · next hne =>
              have hlt : a.value < s.value := UInt8.lt_of_le_of_ne hle hne
              rw [List.pairwise_cons, List.pairwise_cons]
              refine ⟨?_, hrest⟩
              intro r hr
              rcases List.mem_cons.mp hr with rfl | hmore
              · exact hlt
              · exact UInt8.lt_trans hlt (hrest.1 r hmore)

/-- A ladder's rungs in hop index order. -/
theorem pairwise_rungs {l : Ladder} (h : l.Ordered) :
    (Hop.all.map fun hop => (⟨l hop, hop⟩ : Rung)).Pairwise fun r s => r.value ≤ s.value := by
  rw [List.pairwise_map]
  have hsorted : Hop.all.Pairwise fun a b => a.index ≤ b.index := by decide
  exact hsorted.imp fun hle => h _ _ hle

theorem pairwise_distinct {l : Ladder} (h : l.Ordered) :
    l.distinct.Pairwise fun r s => r.value < s.value :=
  pairwise_mergeEqual (pairwise_rungs h)

/-- The null hop has priority over all others, so merging never drops it. -/
theorem exists_null_mergeEqual {rungs : List Rung} (h : ∃ r ∈ rungs, r.hop = .null) :
    ∃ r ∈ mergeEqual rungs, r.hop = .null := by
  induction rungs with
  | nil => exact h
  | cons a rest ih =>
      rw [List.exists_mem_cons_iff] at h
      rw [mergeEqual]
      split
      · next hnil =>
          rw [hnil] at ih
          refine ⟨a, List.mem_cons_self, h.resolve_right fun hrest => ?_⟩
          obtain ⟨r, hr, -⟩ := ih hrest
          cases hr
      · next s more hmerged =>
          rw [hmerged, List.exists_mem_cons_iff] at ih
          split
          · rw [List.exists_mem_cons_iff]
            rcases h with ha | hrest
            · exact .inl (prior_null (.inl ha))
            · exact (ih hrest).imp_left fun hs => prior_null (.inr hs)
          · rw [List.exists_mem_cons_iff, List.exists_mem_cons_iff]
            exact h.imp_right ih

theorem exists_null_distinct (l : Ladder) : ∃ r ∈ l.distinct, r.hop = .null :=
  exists_null_mergeEqual ⟨_, List.mem_map_of_mem (Hop.mem_all .null), rfl⟩

/-- A rung stands for the value its hop reaches. -/
theorem value_of_mem_distinct {l : Ladder} {r : Rung} (h : r ∈ l.distinct) :
    l r.hop = r.value := by
  have hmem := mem_of_mem_mergeEqual h
  obtain ⟨hop, -, rfl⟩ := List.mem_map.mp hmem
  rfl

/-- Climbing goes to a rung of the list, and leaves only rungs of the list above it. -/
theorem mem_of_mem_climb {target : UInt8} {lo : Rung} {above : List Rung} {r : Rung}
    (h : r ∈ (climb target lo above).1 :: (climb target lo above).2) : r ∈ lo :: above := by
  induction above generalizing lo with
  | nil => exact h
  | cons hi rest ih =>
      rw [climb] at h
      split at h
      · exact List.mem_cons_of_mem lo (ih h)
      · exact h

/-- Climbing in two stages is climbing at once. -/
theorem climb_climb {target target' : UInt8} (hle : target ≤ target') (lo : Rung)
    (above : List Rung) :
    climb target' (climb target lo above).1 (climb target lo above).2 =
      climb target' lo above := by
  induction above generalizing lo with
  | nil => rfl
  | cons hi rest ih =>
      rw [climb]
      split
      · next hstep =>
          rw [ih hi, climb, if_pos (UInt8.le_trans hstep hle)]
      · rfl

/-- The climb to the value of a rung ends on that rung. -/
theorem climb_value {lo : Rung} {above : List Rung}
    (h : (lo :: above).Pairwise fun r s => r.value < s.value) {r : Rung}
    (hr : r ∈ lo :: above) : (climb r.value lo above).1 = r := by
  induction above generalizing lo with
  | nil => exact (List.mem_singleton.mp hr).symm
  | cons hi rest ih =>
      rw [List.pairwise_cons] at h
      rw [climb]
      rcases List.mem_cons.mp hr with rfl | hmem
      · rw [if_neg (UInt8.not_le.mpr (h.1 hi List.mem_cons_self))]
      · have hle : hi.value ≤ r.value := by
          rcases List.mem_cons.mp hmem with rfl | hrest
          · exact UInt8.le_refl _
          · exact UInt8.le_of_lt ((List.pairwise_cons.mp h.2).1 r hrest)
        rw [if_pos hle]
        exact ih h.2 hmem

/-- The choice falls on a rung of the list. -/
theorem exists_choose (target : UInt8) (lo : Rung) (above : List Rung) :
    ∃ r ∈ lo :: above, choose target lo above = r.hop := by
  cases above with
  | nil => exact ⟨lo, List.mem_cons_self, rfl⟩
  | cons hi rest =>
      have hhi : hi ∈ lo :: hi :: rest := List.mem_cons_of_mem lo List.mem_cons_self
      simp only [choose]
      split
      · exact ⟨lo, List.mem_cons_self, rfl⟩
      · split
        · exact ⟨lo, List.mem_cons_self, rfl⟩
        · split
          · exact ⟨hi, hhi, rfl⟩
          · rcases prior_eq lo hi with heq | heq
            · exact ⟨lo, List.mem_cons_self, by rw [heq]⟩
            · exact ⟨hi, hhi, by rw [heq]⟩

theorem choose_value (r : Rung) (above : List Rung) : choose r.value r above = r.hop := by
  cases above with
  | nil => rfl
  | cons hi rest => rw [choose, if_pos (UInt8.le_refl _)]

/-- The answer for one target: climb, then choose. -/
def answer (lo : Rung) (above : List Rung) (target : UInt8) : Hop :=
  choose target (climb target lo above).1 (climb target lo above).2

/-- A sweep over rising targets answers each of them as if it stood alone. -/
theorem sweepFrom_eq_map {targets : List UInt8} (h : targets.Pairwise (· ≤ ·)) (lo : Rung)
    (above : List Rung) : sweepFrom lo above targets = targets.map (answer lo above) := by
  induction targets generalizing lo above with
  | nil => rfl
  | cons target rest ih =>
      rw [List.pairwise_cons] at h
      have hrest : sweepFrom (climb target lo above).1 (climb target lo above).2 rest =
          rest.map (answer lo above) := by
        rw [ih h.2]
        apply List.map_congr_left
        intro target' hmem
        rw [answer, climb_climb (h.1 target' hmem)]
        rfl
      rw [List.map_cons, ← hrest]
      rfl

theorem pairwise_allValues : allValues.Pairwise (· ≤ ·) := by
  rw [allValues, List.pairwise_map]
  refine List.pairwise_lt_range.imp_of_mem ?_
  intro i j hi hj hlt
  rw [List.mem_range] at hi hj
  rw [UInt8.le_iff_toNat_le, UInt8.toNat_ofNat_of_lt' hi, UInt8.toNat_ofNat_of_lt' hj]
  exact Nat.le_of_lt hlt

theorem getElem?_allValues (target : UInt8) : allValues[target.toNat]? = some target := by
  have hlt := target.toNat_lt
  simp [allValues, hlt]

def swept (l : Ladder) (target : UInt8) : Hop :=
  l.sweep.toArray.getD target.toNat .null

theorem swept_eq_answer {l : Ladder} {lo : Rung} {above : List Rung}
    (h : l.distinct = lo :: above) (target : UInt8) : l.swept target = answer lo above target := by
  unfold swept sweep
  rw [h]
  simp only [sweepFrom_eq_map pairwise_allValues]
  simp [Array.getD_eq_getD_getElem?, getElem?_allValues]

theorem exists_distinct (l : Ladder) : ∃ lo above, l.distinct = lo :: above := by
  cases hdistinct : l.distinct with
  | nil =>
      unfold distinct Hop.all at hdistinct
      rw [List.map_cons, mergeEqual] at hdistinct
      split at hdistinct
      · cases hdistinct
      · split at hdistinct <;> cases hdistinct
  | cons lo above => exact ⟨lo, above, rfl⟩

/-- The value of a rung is answered with its hop. -/
theorem swept_of_mem_distinct {l : Ladder} (h : l.Ordered) {r : Rung} (hr : r ∈ l.distinct) :
    l.swept (l r.hop) = r.hop := by
  obtain ⟨lo, above, hdistinct⟩ := exists_distinct l
  have hvalue := value_of_mem_distinct hr
  have hsorted := pairwise_distinct h
  rw [hdistinct] at hr hsorted
  rw [hvalue, swept_eq_answer hdistinct, answer, climb_value hsorted hr, choose_value]

/-- A value that an ordered ladder answers a target with is answered with the same hop. -/
theorem swept_swept {l : Ladder} (h : l.Ordered) (target : UInt8) :
    l.swept (l (l.swept target)) = l.swept target := by
  obtain ⟨lo, above, hdistinct⟩ := exists_distinct l
  obtain ⟨r, hr, hhop⟩ := exists_choose target (climb target lo above).1 (climb target lo above).2
  have hmem : r ∈ l.distinct := by
    rw [hdistinct]
    exact mem_of_mem_climb hr
  have hanswer : l.swept target = r.hop := (swept_eq_answer hdistinct target).trans hhop
  rw [hanswer, swept_of_mem_distinct h hmem]

/-- The value that the null hop leads to is answered with the null hop. -/
theorem swept_null {l : Ladder} (h : l.Ordered) : l.swept (l .null) = .null := by
  obtain ⟨r, hr, hnull⟩ := exists_null_distinct l
  rw [← hnull]
  exact swept_of_mem_distinct h hr

end Ladder

/-- Tables made by sweeping ordered ladders, wherever a predictor may look. -/
def Tables.Swept (t : Tables) : Prop :=
  ∀ ratio step predicted, Predictor.ratioMin ≤ ratio → ratio ≤ Predictor.ratioMax →
    1 ≤ step → step < Tables.stepBound →
      (t.ladder ratio step predicted).Ordered ∧
        ∀ target, t.nearest ratio step target predicted =
          (t.ladder ratio step predicted).swept target

def Tables.ofLadders (ladder : (ratio step : Nat) → (predicted : UInt8) → Ladder) : Tables :=
  ⟨ladder, fun ratio step target predicted => (ladder ratio step predicted).swept target⟩

theorem Tables.swept_ofLadders {ladder : (ratio step : Nat) → (predicted : UInt8) → Ladder}
    (h : ∀ ratio step predicted, (ladder ratio step predicted).Ordered) :
    (Tables.ofLadders ladder).Swept :=
  fun ratio step predicted _ _ _ _ => ⟨h ratio step predicted, fun _ => rfl⟩

theorem Ladder.toNat_toValue (n : Nat) : (toValue n).toNat = min (max n 1) 255 := by
  have hlt : min (max n 1) 255 < UInt8.size := by
    simp only [UInt8.size]
    omega
  exact UInt8.toNat_ofNat_of_lt' hlt

def Ladder.even (step : Nat) (predicted : UInt8) : Ladder :=
  HopMap.ofFn fun h => toValue (predicted.toNat + h.index.val * step - 4 * step)

theorem Ladder.ordered_even (step : Nat) (predicted : UInt8) :
    (Ladder.even step predicted).Ordered := by
  intro g h hle
  have hmul : g.index.val * step ≤ h.index.val * step := Nat.mul_le_mul_right step hle
  rw [UInt8.le_iff_toNat_le, even, HopMap.get_ofFn, HopMap.get_ofFn, toNat_toValue,
    toNat_toValue]
  omega

end HopCodec

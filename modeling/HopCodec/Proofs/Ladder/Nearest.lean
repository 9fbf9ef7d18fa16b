/-
The sweep finds what a search over all hops would.  Of the hops that come closest to a target, the
first one in priority order is unique, and on an ordered ladder the sweep answers with it.
-/
import HopCodec.Proofs.Ladder.Sweep

namespace HopCodec

namespace Ladder

/-- A rung comes closer to the target than another, or as close and its hop has no less priority. -/
def Rung.Beats (target : UInt8) (r s : Rung) : Prop :=
  distance r.value target < distance s.value target ∨
    distance r.value target = distance s.value target ∧ r.hop.rank ≤ s.hop.rank

namespace Rung

variable {target : UInt8} {r s t : Rung}

theorem Beats.refl (target : UInt8) (r : Rung) : r.Beats target r :=
  .inr ⟨rfl, Nat.le_refl _⟩

theorem Beats.trans (hrs : r.Beats target s) (hst : s.Beats target t) : r.Beats target t := by
  unfold Beats at *
  omega

/-- Of two rungs above the target, the lower one is better. -/
theorem beats_of_le_of_lt (htarget : target ≤ r.value) (hlt : r.value < s.value) :
    r.Beats target s := by
  rw [UInt8.le_iff_toNat_le] at htarget
  rw [UInt8.lt_iff_toNat_lt] at hlt
  left
  unfold distance
  omega

/-- Of two rungs below the target, the upper one is better. -/
theorem beats_of_lt_of_le (hlt : s.value < r.value) (htarget : r.value ≤ target) :
    r.Beats target s := by
  rw [UInt8.le_iff_toNat_le] at htarget
  rw [UInt8.lt_iff_toNat_lt] at hlt
  left
  unfold distance
  omega

/-- Of two rungs that are as close to the target, the one with priority is better. -/
theorem prior_beats (h : distance r.value target = distance s.value target) :
    (r.prior s).Beats target r ∧ (r.prior s).Beats target s := by
  unfold prior
  split
  · next hlt => exact ⟨.refl target r, .inr ⟨h, Nat.le_of_lt hlt⟩⟩
  · next hge => exact ⟨.inr ⟨h.symm, Nat.not_lt.mp hge⟩, .refl target s⟩

end Rung

/-- The first hop in priority order among those that come closest to the target. -/
def Closest (l : Ladder) (target : UInt8) (h : Hop) : Prop :=
  ∀ g, Rung.Beats target ⟨l h, h⟩ ⟨l g, g⟩

namespace Closest

variable {l : Ladder} {target : UInt8} {g h : Hop}

theorem unique (hg : l.Closest target g) (hh : l.Closest target h) : g = h := by
  have hgh := hg h
  have hhg := hh g
  apply Hop.rank_injective
  simp only [Rung.Beats] at hgh hhg
  omega

theorem distance_le (hh : l.Closest target h) (g : Hop) :
    distance (l h) target ≤ distance (l g) target := by
  have hg := hh g
  simp only [Rung.Beats] at hg
  omega

/-- A target that the ladder reaches is reached. -/
theorem exact (hh : l.Closest target h) (hg : l g = target) : l h = target := by
  have hle := hh.distance_le g
  apply UInt8.toNat_inj.mp
  rw [hg] at hle
  unfold distance at hle
  omega

end Closest

/-- A search in the order of the ranks finds the first of the hops that come closest. -/
theorem foldl_beats {l : Ladder} {target : UInt8} {hops : List Hop} {best : Hop}
    (hsorted : (best :: hops).Pairwise fun g h => g.rank < h.rank) {found : Hop}
    (hfound : hops.foldl (fun best h =>
      if distance (l h) target < distance (l best) target then h else best) best = found) :
    ∀ g ∈ best :: hops, Rung.Beats target ⟨l found, found⟩ ⟨l g, g⟩ := by
  induction hops generalizing best with
  | nil =>
      intro g hg
      rw [List.mem_singleton.mp hg, ← hfound]
      exact .refl target _
  | cons h rest ih =>
      rw [List.pairwise_cons] at hsorted
      obtain ⟨hbest, hrest⟩ := hsorted
      rw [List.foldl_cons] at hfound
      split at hfound
      · next hcloser =>
          have hbeats := ih hrest hfound
          intro g hg
          rcases List.mem_cons.mp hg with rfl | hmem
          · exact (hbeats h List.mem_cons_self).trans (.inl hcloser)
          · exact hbeats g hmem
      · next hfarther =>
          have hskip : Rung.Beats target ⟨l best, best⟩ ⟨l h, h⟩ := by
            have hrank := hbest h List.mem_cons_self
            simp only [Rung.Beats]
            omega
          have hbeats := ih (List.pairwise_cons.mpr ⟨fun g hg => hbest g (.tail h hg),
            (List.pairwise_cons.mp hrest).2⟩) hfound
          intro g hg
          rcases List.mem_cons.mp hg with rfl | hmem
          · exact hbeats _ List.mem_cons_self
          · rcases List.mem_cons.mp hmem with rfl | hmem'
            · exact (hbeats best List.mem_cons_self).trans hskip
            · exact hbeats g (.tail best hmem')

/-- The search over all hops finds the closest one. -/
theorem closest_nearest (l : Ladder) (target : UInt8) : l.Closest target (l.nearest target) := by
  intro g
  have hsorted : (Hop.null :: Hop.priority.tail).Pairwise fun g h => g.rank < h.rank := by decide
  have hfirst : Hop.priority.tail.foldl (fun best h =>
      if distance (l h) target < distance (l best) target then h else best) .null =
        l.nearest target := by
    rw [nearest, Hop.priority, List.foldl_cons, if_neg (Nat.lt_irrefl _)]
    rfl
  exact foldl_beats hsorted hfirst g (Hop.mem_priority g)

/-- Merging keeps for every rung one of its value that has no less priority. -/
theorem exists_mem_mergeEqual {rungs : List Rung} {r : Rung} (h : r ∈ rungs) :
    ∃ s ∈ mergeEqual rungs, s.value = r.value ∧ s.hop.rank ≤ r.hop.rank := by
  induction rungs with
  | nil => cases h
  | cons a rest ih =>
      rw [mergeEqual]
      split
      · next hmerged =>
          rw [hmerged] at ih
          rcases List.mem_cons.mp h with rfl | hrest
          · exact ⟨r, List.mem_cons_self, rfl, Nat.le_refl _⟩
          · obtain ⟨s, hs, -⟩ := ih hrest
            cases hs
      · next s more hmerged =>
          rw [hmerged] at ih
          split
          · next heq =>
              have hvalue := value_prior heq
              obtain ⟨hleft, hright⟩ := rank_prior_le a s
              rcases List.mem_cons.mp h with rfl | hrest
              · exact ⟨_, List.mem_cons_self, hvalue.trans heq.symm, hleft⟩
              · obtain ⟨t, ht, htvalue, htrank⟩ := ih hrest
                rcases List.mem_cons.mp ht with rfl | hmore
                · exact ⟨_, List.mem_cons_self, hvalue.trans htvalue, Nat.le_trans hright htrank⟩
                · exact ⟨t, List.mem_cons_of_mem _ hmore, htvalue, htrank⟩
          · rcases List.mem_cons.mp h with rfl | hrest
            · exact ⟨r, List.mem_cons_self, rfl, Nat.le_refl _⟩
            · obtain ⟨t, ht, hrep⟩ := ih hrest
              exact ⟨t, List.mem_cons_of_mem _ ht, hrep⟩

section Answer

variable {target : UInt8} {lo : Rung} {above : List Rung}
  (hsorted : (lo :: above).Pairwise fun r s => r.value < s.value)

include hsorted

/-- If the target lies below all rungs but the first one, the choice is the best of them. -/
theorem exists_choose_beats (habove : ∀ hi ∈ above, target < hi.value) :
    ∃ r ∈ lo :: above, choose target lo above = r.hop ∧ ∀ s ∈ lo :: above, r.Beats target s := by
  cases above with
  | nil =>
      refine ⟨lo, List.mem_cons_self, rfl, fun s hs => ?_⟩
      rw [List.mem_singleton.mp hs]
      exact .refl target lo
  | cons hi rest =>
      rw [List.pairwise_cons, List.pairwise_cons] at hsorted
      obtain ⟨hlo, hhi, -⟩ := hsorted
      have hover := habove hi List.mem_cons_self
      have hrest : ∀ s ∈ rest, hi.Beats target s := fun s hs =>
        Rung.beats_of_le_of_lt (UInt8.le_of_lt hover) (hhi s hs)
      -- What beats the rungs on both sides of the target beats those farther up.
      have hall {r : Rung} (hleft : r.Beats target lo) (hright : r.Beats target hi) :
          ∀ s ∈ lo :: hi :: rest, r.Beats target s := by
        intro s hs
        rcases List.mem_cons.mp hs with rfl | hs
        · exact hleft
        rcases List.mem_cons.mp hs with rfl | hs
        · exact hright
        · exact hright.trans (hrest s hs)
      have hmem : hi ∈ lo :: hi :: rest := .tail lo (.head rest)
      simp only [choose]
      split
      · next hle =>
          exact ⟨lo, .head _, rfl, hall (.refl target lo)
            (Rung.beats_of_le_of_lt hle (hlo hi (.head rest)))⟩
      · split
        · next hbelow => exact ⟨lo, .head _, rfl, hall (.refl target lo) (.inl hbelow)⟩
        · next hbelow =>
            split
            · next hcloser => exact ⟨hi, hmem, rfl, hall (.inl hcloser) (.refl target hi)⟩
            · next hcloser =>
                have heq : distance lo.value target = distance hi.value target := by omega
                obtain ⟨hleft, hright⟩ := Rung.prior_beats heq
                refine ⟨lo.prior hi, ?_, rfl, hall hleft hright⟩
                rcases prior_eq lo hi with hprior | hprior <;> rw [hprior]
                · exact .head _
                · exact hmem

/-- The answer for a target is the hop of the best rung. -/
theorem exists_answer_beats :
    ∃ r ∈ lo :: above, answer lo above target = r.hop ∧ ∀ s ∈ lo :: above, r.Beats target s := by
  induction above generalizing lo with
  | nil => exact exists_choose_beats hsorted fun hi hmem => nomatch hmem
  | cons hi rest ih =>
      have hstep := List.pairwise_cons.mp hsorted
      rw [answer, climb]
      split
      · next hle =>
          obtain ⟨r, hr, hanswer, hbeats⟩ := ih hstep.2
          have hlow : hi.Beats target lo :=
            Rung.beats_of_lt_of_le (hstep.1 hi (.head rest)) hle
          refine ⟨r, .tail lo hr, hanswer, fun s hs => ?_⟩
          rcases List.mem_cons.mp hs with rfl | hs
          · exact (hbeats hi (.head rest)).trans hlow
          · exact hbeats s hs
      · next hgt =>
          have hover : target < hi.value := UInt8.not_le.mp hgt
          refine exists_choose_beats hsorted fun s hs => ?_
          rcases List.mem_cons.mp hs with rfl | hs
          · exact hover
          · exact UInt8.lt_trans hover ((List.pairwise_cons.mp hstep.2).1 s hs)

end Answer

/-- A list of rungs stands for hops of a ladder: its values rise, they are those of the hops, and
every hop has a rung of its value with no less priority. -/
structure Collects (l : Ladder) (hops : List Hop) (rungs : List Rung) : Prop where
  rising : rungs.Pairwise fun r s => r.value < s.value
  standing : ∀ r ∈ rungs, r.hop ∈ hops ∧ l r.hop = r.value
  covering : ∀ g ∈ hops, ∃ r ∈ rungs, r.value = l g ∧ r.hop.rank ≤ g.rank

theorem collects_distinct {l : Ladder} (h : l.Ordered) : l.Collects Hop.all l.distinct where
  rising := pairwise_distinct h
  standing := fun r hr => ⟨Hop.mem_all r.hop, value_of_mem_distinct hr⟩
  covering := fun g _ => exists_mem_mergeEqual (List.mem_map_of_mem (Hop.mem_all g))

/-- Rungs that stand for all hops answer each target with the closest hop. -/
theorem Collects.closest_answer {l : Ladder} {lo : Rung} {above : List Rung}
    (hc : l.Collects Hop.all (lo :: above)) (target : UInt8) :
    l.Closest target (answer lo above target) := by
  obtain ⟨r, hr, hanswer, hbeats⟩ : ∃ r ∈ lo :: above, answer lo above target = r.hop ∧
      ∀ s ∈ lo :: above, r.Beats target s := exists_answer_beats hc.rising
  have hrung : (⟨l r.hop, r.hop⟩ : Rung) = r := congrArg (Rung.mk · r.hop) (hc.standing r hr).2
  rw [hanswer]
  intro g
  obtain ⟨s, hs, hvalue, hrank⟩ := hc.covering g (Hop.mem_all g)
  have hsame : s.Beats target ⟨l g, g⟩ := .inr ⟨by rw [hvalue], hrank⟩
  rw [hrung]
  exact (hbeats s hs).trans hsame

/-- On an ordered ladder the sweep answers each target with the closest hop. -/
theorem closest_swept {l : Ladder} (h : l.Ordered) (target : UInt8) :
    l.Closest target (l.swept target) := by
  obtain ⟨lo, above, hdistinct⟩ := exists_distinct l
  rw [swept_eq_answer hdistinct]
  exact (hdistinct ▸ collects_distinct h).closest_answer target

/-- The sweep finds what the search over all hops finds. -/
theorem swept_eq_nearest {l : Ladder} (h : l.Ordered) (target : UInt8) :
    l.swept target = l.nearest target :=
  (closest_swept h target).unique (closest_nearest l target)

end Ladder

end HopCodec

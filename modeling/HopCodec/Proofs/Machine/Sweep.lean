/-
The sweep on the machine finds what a search over all hops would.  The places in use hold the
distinct values of the ladder, each with the hop that has priority; the pointer stays on them, and
climbs as the plain sweep does.
-/
import HopCodec.Machine.Sweep
import HopCodec.Proofs.Ladder.Nearest
import HopCodec.Proofs.Machine.Word

namespace HopCodec

open Ladder (Rung)

/-- The ladder of nine bytes in hop index order. -/
def Ladder.ofBytes (ladder : Bytes) : Ladder :=
  HopMap.ofFn fun hop => ladder.getD hop.index 0

theorem Ladder.get_ofBytes (ladder : Bytes) (hop : Hop) :
    Ladder.ofBytes ladder hop = ladder.getD hop.index 0 :=
  HopMap.get_ofFn _ hop

namespace Ladder

/-- Take a rung in behind the others.  If the last one has its value, one of the two stays. -/
def absorb (rungs : List Rung) (r : Rung) : List Rung :=
  match rungs.getLast? with
  | none => [r]
  | some last =>
      if last.value = r.value then rungs.dropLast ++ [r.prior last] else rungs ++ [r]

theorem absorb_concat (front : List Rung) (last r : Rung) :
    absorb (front ++ [last]) r =
      if last.value = r.value then front ++ [r.prior last] else front ++ [last] ++ [r] := by
  simp [absorb]

section Collects

variable {l : Ladder} {hops : List Hop} {rungs : List Rung} {h : Hop}

theorem length_absorb_le (rungs : List Rung) (r : Rung) :
    (absorb rungs r).length ≤ rungs.length + 1 := by
  rcases List.eq_nil_or_concat rungs with rfl | ⟨front, last, rfl⟩
  · exact Nat.le_refl 1
  · rw [List.concat_eq_append, absorb_concat]
    split <;> simp

theorem Collects.nil (l : Ladder) : l.Collects [] [] :=
  ⟨.nil, by simp, by simp⟩

/-- A rung that is higher than all others is put behind them. -/
theorem Collects.push (hc : l.Collects hops rungs) (habove : ∀ r ∈ rungs, r.value < l h) :
    l.Collects (hops ++ [h]) (rungs ++ [⟨l h, h⟩]) where
  rising := by
    rw [List.pairwise_append]
    refine ⟨hc.rising, List.pairwise_singleton _ _, fun r hr s hs => ?_⟩
    rw [List.mem_singleton.mp hs]
    exact habove r hr
  standing := by
    intro r hr
    rcases List.mem_append.mp hr with hold | hnew
    · exact ⟨List.mem_append_left _ (hc.standing r hold).1, (hc.standing r hold).2⟩
    · rw [List.mem_singleton.mp hnew]
      exact ⟨List.mem_append_right _ (List.mem_singleton_self h), rfl⟩
  covering := by
    intro g hg
    rcases List.mem_append.mp hg with hold | hnew
    · obtain ⟨r, hr, hcover⟩ := hc.covering g hold
      exact ⟨r, List.mem_append_left _ hr, hcover⟩
    · rw [List.mem_singleton.mp hnew]
      exact ⟨_, List.mem_append_right _ (List.mem_singleton_self _), rfl, Nat.le_refl _⟩

/-- A hop with the value of the last rung is merged with it. -/
theorem Collects.merge {front : List Rung} {last : Rung}
    (hc : l.Collects hops (front ++ [last])) (hvalue : last.value = l h) :
    l.Collects (hops ++ [h]) (front ++ [Rung.prior ⟨l h, h⟩ last]) := by
  have hsame : (Rung.prior ⟨l h, h⟩ last).value = last.value := value_prior hvalue.symm
  obtain ⟨hnew, hold⟩ := rank_prior_le ⟨l h, h⟩ last
  have hrising := List.pairwise_append.mp hc.rising
  refine ⟨?_, ?_, ?_⟩
  · rw [List.pairwise_append]
    refine ⟨hrising.1, List.pairwise_singleton _ _, fun r hr s hs => ?_⟩
    rw [List.mem_singleton.mp hs, hsame]
    exact hrising.2.2 r hr last (List.mem_singleton_self last)
  · intro r hr
    rcases List.mem_append.mp hr with hfront | hlast
    · obtain ⟨hmem, hstands⟩ := hc.standing r (List.mem_append_left _ hfront)
      exact ⟨List.mem_append_left _ hmem, hstands⟩
    · rw [List.mem_singleton.mp hlast]
      rcases prior_eq ⟨l h, h⟩ last with hprior | hprior
      · rw [hprior]
        exact ⟨List.mem_append_right _ (List.mem_singleton_self h), rfl⟩
      · rw [hprior]
        obtain ⟨hmem, hstands⟩ :=
          hc.standing last (List.mem_append_right _ (List.mem_singleton_self last))
        exact ⟨List.mem_append_left _ hmem, hstands⟩
  · intro g hg
    rcases List.mem_append.mp hg with hgold | hgnew
    · obtain ⟨r, hr, hcover, hrank⟩ := hc.covering g hgold
      rcases List.mem_append.mp hr with hfront | hlast
      · exact ⟨r, List.mem_append_left _ hfront, hcover, hrank⟩
      · obtain rfl := List.mem_singleton.mp hlast
        exact ⟨_, List.mem_append_right _ (List.mem_singleton_self _), hsame.trans hcover,
          Nat.le_trans hold hrank⟩
    · rw [List.mem_singleton.mp hgnew]
      exact ⟨_, List.mem_append_right _ (List.mem_singleton_self _), hsame.trans hvalue, hnew⟩

/-- Taking in the hops of a rising ladder one after another collects them. -/
theorem Collects.absorb (hc : l.Collects hops rungs) (habove : ∀ g ∈ hops, l g ≤ l h) :
    l.Collects (hops ++ [h]) (absorb rungs ⟨l h, h⟩) := by
  have hle : ∀ r ∈ rungs, r.value ≤ l h := fun r hr =>
    (hc.standing r hr).2 ▸ habove r.hop (hc.standing r hr).1
  rcases List.eq_nil_or_concat rungs with rfl | ⟨front, last, rfl⟩
  · exact hc.push fun r hr => nomatch hr
  · rw [List.concat_eq_append] at *
    rw [absorb_concat]
    split
    · next hvalue => exact hc.merge hvalue
    · next hne =>
        have hlast := UInt8.lt_of_le_of_ne
          (hle last (List.mem_append_right _ (List.mem_singleton_self last))) hne
        refine hc.push fun r hr => ?_
        rcases List.mem_append.mp hr with hfront | hmem
        · exact UInt8.lt_trans ((List.pairwise_append.mp hc.rising).2.2 r hfront last
            (List.mem_singleton_self last)) hlast
        · rw [List.mem_singleton.mp hmem]
          exact hlast

end Collects

end Ladder

namespace Machine

open Ladder (absorb)

namespace Distinct

/-- The places in use hold a list of rungs. -/
structure Holds (d : Distinct) (rungs : List Rung) : Prop where
  size : d.rungs.size = 9
  count : d.count = rungs.length
  get : ∀ i (hi : i < rungs.length), d.rungs[i]? = some rungs[i]

variable {d : Distinct} {rungs : List Rung}

theorem holds_none : none.Holds [] :=
  ⟨Array.size_replicate, rfl, fun i hi => absurd hi (Nat.not_lt_zero i)⟩

theorem Holds.fetch (hd : d.Holds rungs) {i : Nat} (hi : i < rungs.length) :
    Machine.fetch d.rungs i = .ok rungs[i] := by
  rw [Machine.fetch, hd.get i hi]

/-- Putting a rung behind the others. -/
theorem Holds.push (hd : d.Holds rungs) (hroom : rungs.length < 9) (r : Rung) :
    ∃ d', d.push r = .ok d' ∧ d'.Holds (rungs ++ [r]) := by
  have hword : 9 < wordSize := by decide
  have hcount := hd.count
  have hplace : d.count < d.rungs.size := by rw [hcount, hd.size]; exact hroom
  refine ⟨⟨d.rungs.setIfInBounds d.count r, d.count + 1⟩, ?_, ?_, ?_, ?_⟩
  · rw [Distinct.push, store_eq hplace, ok_bind, add_eq (by omega)]
    rfl
  · rw [Array.size_setIfInBounds, hd.size]
  · rw [List.length_append, hcount]
    rfl
  · intro i hi
    rw [List.length_append, List.length_singleton] at hi
    rw [Array.getElem?_setIfInBounds]
    by_cases hlast : i = rungs.length
    · subst hlast
      rw [if_pos hcount, if_pos (hcount ▸ hplace)]
      simp
    · rw [if_neg (by omega), hd.get i (by omega), List.getElem_append_left (by omega)]

/-- Putting a rung in the place of the last one. -/
theorem Holds.replace {front : List Rung} {last : Rung} (hd : d.Holds (front ++ [last]))
    (hroom : front.length < 9) (r : Rung) :
    store d.rungs front.length r = .ok (d.rungs.setIfInBounds front.length r) ∧
      Holds { d with rungs := d.rungs.setIfInBounds front.length r } (front ++ [r]) := by
  have hplace : front.length < d.rungs.size := by rw [hd.size]; exact hroom
  refine ⟨store_eq hplace r, ?_, ?_, ?_⟩
  · rw [Array.size_setIfInBounds, hd.size]
  · rw [hd.count, List.length_append, List.length_append]
    rfl
  · intro i hi
    rw [List.length_append, List.length_singleton] at hi
    rw [Array.getElem?_setIfInBounds]
    by_cases hlast : i = front.length
    · subst hlast
      rw [if_pos rfl, if_pos hplace]
      simp
    · have hget := hd.get i (by rw [List.length_append, List.length_singleton]; exact hi)
      rw [if_neg (by omega), hget, List.getElem_append_left (by omega),
        List.getElem_append_left (by omega)]

/-- The machine takes the value of a hop in as the plain list does. -/
theorem Holds.take {ladder : Bytes} (hladder : ladder.size = 9) (hd : d.Holds rungs)
    (hroom : rungs.length < 9) (hop : Hop) :
    ∃ d', d.take ladder hop = .ok d' ∧
      d'.Holds (absorb rungs ⟨Ladder.ofBytes ladder hop, hop⟩) := by
  have hindex : hop.index.val < ladder.size := lt_of_lt_of_eq hop.index.isLt hladder.symm
  have hvalue := Ladder.get_ofBytes ladder hop
  have hcount := hd.count
  rw [Distinct.take, fetch_eq_getD hindex 0, ok_bind, ← hvalue]
  rcases List.eq_nil_or_concat rungs with rfl | ⟨front, last, rfl⟩
  · rw [if_neg (by rw [hcount]; exact Nat.lt_irrefl 0)]
    exact hd.push hroom _
  · rw [List.concat_eq_append] at *
    rw [List.length_append, List.length_singleton] at hcount hroom
    have hlast : front.length < (front ++ [last]).length := by simp
    have hfetch := hd.fetch hlast
    rw [List.getElem_concat_length rfl] at hfetch
    rw [if_pos (by omega), sub_eq (by omega), ok_bind, hcount, Nat.add_sub_cancel, hfetch, ok_bind,
      Ladder.absorb_concat]
    by_cases hsame : last.value = Ladder.ofBytes ladder hop
    · rw [if_pos hsame, if_pos hsame, Rung.prior]
      by_cases hrank : hop.rank < last.hop.rank
      · obtain ⟨hstore, hholds⟩ := hd.replace (by omega) ⟨Ladder.ofBytes ladder hop, hop⟩
        rw [hcount] at hholds
        rw [if_pos hrank, if_pos hrank, hsame, ok_bind, hstore]
        exact ⟨_, rfl, hholds⟩
      · rw [if_neg hrank, if_neg hrank]
        exact ⟨d, rfl, hd⟩
    · rw [if_neg hsame, if_neg hsame]
      exact hd.push (by simpa using hroom) _

/-- Taking in the hops of a rising ladder one after another. -/
theorem exists_collected {ladder : Bytes} (hladder : ladder.size = 9) {done hops : List Hop}
    (hrising : (done ++ hops).Pairwise fun g h =>
      Ladder.ofBytes ladder g ≤ Ladder.ofBytes ladder h)
    (hroom : rungs.length + hops.length ≤ 9) (hd : d.Holds rungs)
    (hc : (Ladder.ofBytes ladder).Collects done rungs) :
    ∃ d' rungs', hops.foldlM (take ladder) d = .ok d' ∧ d'.Holds rungs' ∧ rungs'.length ≤ 9 ∧
      (Ladder.ofBytes ladder).Collects (done ++ hops) rungs' := by
  induction hops generalizing d rungs done with
  | nil => exact ⟨d, rungs, rfl, hd, hroom, by rwa [List.append_nil]⟩
  | cons hop rest ih =>
      rw [List.length_cons] at hroom
      obtain ⟨d', htake, hd'⟩ := hd.take hladder (by omega) hop
      have habove : ∀ g ∈ done, Ladder.ofBytes ladder g ≤ Ladder.ofBytes ladder hop :=
        fun g hg => (List.pairwise_append.mp hrising).2.2 g hg hop List.mem_cons_self
      rw [List.append_cons] at hrising
      rw [List.foldlM_cons, htake, ok_bind, List.append_cons]
      refine ih hrising ?_ hd' (hc.absorb habove)
      have hlength := Ladder.length_absorb_le rungs ⟨Ladder.ofBytes ladder hop, hop⟩
      omega

/-- Climbing on the machine is climbing in the list, up to where the next value is above the
original. -/
theorem Holds.climb (hd : d.Holds rungs) (hfew : rungs.length ≤ 9) (original : UInt8) {j : Nat}
    (hj : j < rungs.length) {fuel : Nat} (hfuel : rungs.length ≤ j + fuel) :
    ∃ k, ∃ hk : k < rungs.length, d.climb original fuel j = .ok k ∧
      Ladder.climb original rungs[j] (rungs.drop (j + 1)) = (rungs[k], rungs.drop (k + 1)) ∧
        ∀ hnext : k + 1 < rungs.length, original < rungs[k + 1].value := by
  induction fuel generalizing j with
  | zero => omega
  | succ fuel ih =>
      have hword : 9 < wordSize := by decide
      rw [Distinct.climb, add_eq (by omega), ok_bind, hd.count]
      by_cases hnext : j + 1 < rungs.length
      · rw [if_pos hnext, hd.fetch hnext, ok_bind, List.drop_eq_getElem_cons hnext, Ladder.climb]
        by_cases hle : rungs[j + 1].value ≤ original
        · rw [if_pos hle, if_pos hle]
          exact ih hnext (by omega)
        · rw [if_neg hle, if_neg hle, ← List.drop_eq_getElem_cons hnext]
          exact ⟨j, hj, rfl, rfl, fun _ => UInt8.not_le.mp hle⟩
      · rw [if_neg hnext, List.drop_eq_nil_of_le (Nat.not_lt.mp hnext), Ladder.climb,
          ← List.drop_eq_nil_of_le (Nat.not_lt.mp hnext)]
        exact ⟨j, hj, rfl, rfl, fun h => absurd h hnext⟩

/-- Settling between the rungs on either side of an original, by distance and then by priority. -/
theorem settle_eq (lo hi : Rung) (below above : Nat) :
    (if below ≠ above then if below < above then .ok lo.hop else .ok hi.hop
      else if lo.hop.rank < hi.hop.rank then .ok lo.hop else .ok hi.hop : Run Hop) =
    .ok (if below < above then lo.hop else if above < below then hi.hop
      else (lo.prior hi).hop) := by
  rcases Nat.lt_trichotomy below above with hlt | rfl | hgt
  · rw [if_pos (Nat.ne_of_lt hlt), if_pos hlt, if_pos hlt]
  · rw [if_neg (not_not_intro rfl), if_neg (Nat.lt_irrefl below), if_neg (Nat.lt_irrefl below),
      Rung.prior]
    split <;> rfl
  · rw [if_pos (Nat.ne_of_gt hgt), if_neg (Nat.lt_asymm hgt), if_neg (Nat.lt_asymm hgt),
      if_pos hgt]

/-- Choosing on the machine is choosing in the list, where the next value is above the original. -/
theorem Holds.choose (hd : d.Holds rungs) (hfew : rungs.length ≤ 9) (original : UInt8) {j : Nat}
    (hj : j < rungs.length)
    (habove : ∀ hnext : j + 1 < rungs.length, original < rungs[j + 1].value) :
    d.choose original j = .ok (Ladder.choose original rungs[j] (rungs.drop (j + 1))) := by
  have hword : 9 < wordSize := by decide
  rw [Distinct.choose, hd.fetch hj, ok_bind]
  by_cases hle : original ≤ rungs[j].value
  · rw [if_pos hle]
    cases rungs.drop (j + 1) with
    | nil => rfl
    | cons hi rest => rw [Ladder.choose, if_pos hle]; rfl
  rw [if_neg hle, add_eq (by omega), ok_bind, hd.count]
  by_cases hnext : j + 1 < rungs.length
  · have hlow := UInt8.lt_iff_toNat_lt.mp (UInt8.not_le.mp hle)
    have hhigh := UInt8.lt_iff_toNat_lt.mp (habove hnext)
    have hbelow : Ladder.distance rungs[j].value original =
        original.toNat - rungs[j].value.toNat := by
      unfold Ladder.distance
      omega
    have habove : Ladder.distance rungs[j + 1].value original =
        rungs[j + 1].value.toNat - original.toNat := by
      unfold Ladder.distance
      omega
    rw [if_neg (by omega), ok_bind, hd.fetch hnext, ok_bind, sub_eq (by omega), ok_bind,
      sub_eq (by omega), ok_bind, List.drop_eq_getElem_cons hnext, Ladder.choose, if_neg hle,
      hbelow, habove]
    exact settle_eq _ _ _ _
  · rw [if_pos (by omega), List.drop_eq_nil_of_le (Nat.not_lt.mp hnext)]
    rfl

/-- The answers of a list of rungs to the originals before the `n`-th one. -/
def callsTo (lo : Rung) (above : List Rung) (n : Nat) : Array (Nat × Hop) :=
  ((List.range n).map fun o => (o, Ladder.answer lo above (UInt8.ofNat o))).toArray

theorem callsTo_succ (lo : Rung) (above : List Rung) (n : Nat) :
    callsTo lo above (n + 1) =
      (callsTo lo above n).push (n, Ladder.answer lo above (UInt8.ofNat n)) := by
  simp [callsTo, List.range_succ]

/-- The originals before the `n`-th one are answered.  From where the pointer is, those to come are
climbed to as from the first rung. -/
structure Passed (lo : Rung) (above : List Rung) (n : Nat) (s : Nat × Array (Nat × Hop)) :
    Prop where
  place : s.1 < (lo :: above).length
  reached : ∀ target : UInt8, n ≤ target.toNat →
    Ladder.climb target (lo :: above)[s.1] ((lo :: above).drop (s.1 + 1)) =
      Ladder.climb target lo above
  calls : s.2 = callsTo lo above n

section Sweep

variable {lo : Rung} {above : List Rung} (hd : d.Holds (lo :: above))
  (hfew : (lo :: above).length ≤ 9)

include hd hfew

/-- An original value is answered. -/
theorem exists_answer {n : Nat} (hn : n < 256) {s : Nat × Array (Nat × Hop)}
    (hs : Passed lo above n s) : ∃ t, d.answer n s = .ok t ∧ Passed lo above (n + 1) t := by
  have hvalue : (UInt8.ofNat n).toNat = n := UInt8.toNat_ofNat_of_lt' hn
  obtain ⟨k, hk, hclimb, hrungs, hover⟩ :=
    hd.climb hfew (UInt8.ofNat n) hs.place (by omega : (lo :: above).length ≤ s.1 + 9)
  rw [hs.reached (UInt8.ofNat n) (Nat.le_of_eq hvalue.symm)] at hrungs
  have hanswer : Ladder.choose (UInt8.ofNat n) (lo :: above)[k] ((lo :: above).drop (k + 1)) =
      Ladder.answer lo above (UInt8.ofNat n) := by
    rw [Ladder.answer, hrungs]
  refine ⟨(k, callsTo lo above (n + 1)), ?_, hk, fun target htarget => ?_, rfl⟩
  · rw [Distinct.answer, hclimb, ok_bind, hd.choose hfew (UInt8.ofNat n) hk hover, ok_bind, hanswer,
      hs.calls, callsTo_succ]
    rfl
  · have hle : UInt8.ofNat n ≤ target := by
      rw [UInt8.le_iff_toNat_le, hvalue]
      omega
    have htwice := Ladder.climb_climb hle lo above
    rwa [hrungs] at htwice

/-- All original values are answered. -/
theorem exists_answers :
    ∃ j, loop d.answer 256 (0, #[]) = .ok (j, callsTo lo above 256) := by
  have hstart : Passed lo above 0 (0, #[]) := ⟨Nat.succ_pos _, fun _ _ => rfl, rfl⟩
  obtain ⟨⟨j, calls⟩, hloop, hend⟩ := exists_loop (Passed lo above) hstart
    fun n hn s hs => exists_answer hd hfew hn hs
  exact ⟨j, hend.calls ▸ hloop⟩

end Sweep

end Distinct

open Distinct

/-- On an ordered ladder the sweep of the machine ends well.  It answers every original in rising
order, each with the hop that the plain sweep answers with. -/
theorem fillBestHops_eq {ladder : Bytes} (hladder : ladder.size = 9)
    (hordered : (Ladder.ofBytes ladder).Ordered) :
    ∃ calls, fillBestHops ladder = .ok calls ∧ calls.toList =
      (List.range 256).map fun o => (o, (Ladder.ofBytes ladder).swept (UInt8.ofNat o)) := by
  have hrising : ([] ++ Hop.all).Pairwise fun g h =>
      Ladder.ofBytes ladder g ≤ Ladder.ofBytes ladder h := by
    have hsorted : Hop.all.Pairwise fun g h => g.index ≤ h.index := by decide
    exact hsorted.imp fun hle => hordered _ _ hle
  obtain ⟨d, rungs, htake, hd, hfew, hc⟩ :=
    exists_collected hladder hrising (by decide) holds_none (.nil _)
  rw [List.nil_append] at hc
  cases rungs with
  | nil =>
      obtain ⟨r, hr, -⟩ := hc.covering .null (Hop.mem_all .null)
      cases hr
  | cons lo above =>
      obtain ⟨j, hloop⟩ := exists_answers hd hfew
      refine ⟨callsTo lo above 256, ?_, ?_⟩
      · rw [fillBestHops, htake, ok_bind, hloop]
        rfl
      · refine List.map_congr_left fun o _ => ?_
        rw [(hc.closest_answer (UInt8.ofNat o)).unique
          (Ladder.closest_swept hordered (UInt8.ofNat o))]

/-- How far the value of a hop is from an original. -/
def gap (ladder : Bytes) (original : Nat) (hop : Hop) : Nat :=
  ((ladder.getD hop.index 0).toNat - original : Int).natAbs

/-- A hop comes first in priority order among those whose values are nearest to an original. -/
structure FirstNearest (ladder : Bytes) (original : Nat) (hop : Hop) : Prop where
  nearest : ∀ g, gap ladder original hop ≤ gap ladder original g
  first : ∀ g, gap ladder original g = gap ladder original hop →
    Hop.priority.idxOf hop ≤ Hop.priority.idxOf g

theorem firstNearest_of_closest {ladder : Bytes} {original : Nat} (horiginal : original < 256)
    {hop : Hop} (h : (Ladder.ofBytes ladder).Closest (UInt8.ofNat original) hop) :
    FirstNearest ladder original hop := by
  have hgap (g : Hop) : gap ladder original g =
      Ladder.distance (Ladder.ofBytes ladder g) (UInt8.ofNat original) := by
    rw [gap, Ladder.distance, Ladder.get_ofBytes, UInt8.toNat_ofNat_of_lt' horiginal]
    omega
  refine ⟨fun g => ?_, fun g hg => ?_⟩
  · rw [hgap, hgap]
    exact h.distance_le g
  · rw [hgap, hgap] at hg
    have hbeats := h g
    simp only [Rung.Beats] at hbeats
    rw [← Hop.rank_eq_idxOf, ← Hop.rank_eq_idxOf]
    omega

/-- A sorted ladder of nine bytes is ordered. -/
theorem ordered_ofBytes {ladder : Bytes} (hladder : ladder.size = 9)
    (hsorted : ladder.toList.Pairwise (· ≤ ·)) : (Ladder.ofBytes ladder).Ordered := by
  intro g h hle
  have hg : g.index.val < ladder.size := lt_of_lt_of_eq g.index.isLt hladder.symm
  have hh : h.index.val < ladder.size := lt_of_lt_of_eq h.index.isLt hladder.symm
  rw [Ladder.get_ofBytes, Ladder.get_ofBytes]
  rcases Nat.lt_or_eq_of_le (Fin.le_def.mp hle) with hlt | heq
  · have hget :=
      List.pairwise_iff_getElem.mp hsorted _ _ (by simpa using hg) (by simpa using hh) hlt
    simpa [Array.getD_eq_getD_getElem?, hg, hh] using hget
  · rw [heq]
    exact UInt8.le_refl _

/-- The sweep over a sorted ladder of nine bytes is the search over all hops: it ends well, goes
through every original value once in rising order, and answers each with the hop that comes first in
priority order among those whose values are nearest. -/
theorem fillBestHops_exhaustive {ladder : Bytes} (hladder : ladder.size = 9)
    (hsorted : ladder.toList.Pairwise (· ≤ ·)) :
    ∃ calls, fillBestHops ladder = .ok calls ∧
      calls.toList.map Prod.fst = List.range 256 ∧
        ∀ call ∈ calls.toList, FirstNearest ladder call.1 call.2 := by
  have hordered := ordered_ofBytes hladder hsorted
  obtain ⟨calls, hrun, hcalls⟩ := fillBestHops_eq hladder hordered
  refine ⟨calls, hrun, ?_, fun call hcall => ?_⟩
  · rw [hcalls, List.map_map]
    exact List.map_id _
  · rw [hcalls] at hcall
    obtain ⟨original, horiginal, rfl⟩ := List.mem_map.mp hcall
    exact firstNearest_of_closest (List.mem_range.mp horiginal)
      (Ladder.closest_swept hordered (UInt8.ofNat original))

/-- A ladder with repeated values at both ends and around the null hop. -/
theorem fillBestHops_exhaustive_repeated :
    ∃ calls, fillBestHops #[1, 1, 5, 5, 5, 9, 200, 255, 255] = .ok calls ∧
      calls.toList.map Prod.fst = List.range 256 ∧
        ∀ call ∈ calls.toList,
          FirstNearest #[1, 1, 5, 5, 5, 9, 200, 255, 255] call.1 call.2 :=
  fillBestHops_exhaustive rfl (by decide)

end Machine

end HopCodec

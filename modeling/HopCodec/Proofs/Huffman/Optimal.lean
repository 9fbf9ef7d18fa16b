/-
Fewest bits.  Merging the two lightest trees is never wrong: whatever depths the trees of a forest
are given, the two lightest can be moved to the greatest depth side by side at no cost, and a pair
side by side costs what the merged tree costs one level up.
-/
import Mathlib.Algebra.BigOperators.Ring.List
import Mathlib.Algebra.Order.BigOperators.Group.List
import Mathlib.Data.List.Sort
import HopCodec.Proofs.Huffman.Tree

namespace HopCodec

open Codeword (share share_pos two_pow_mul_share two_pow_sub_mul_share)

namespace HopTree

def LightestFirst (forest : List HopTree) : Prop :=
  forest.Pairwise fun s t => s.weight ≤ t.weight

theorem lightestFirst_insert {t : HopTree} {forest : List HopTree} (h : LightestFirst forest) :
    LightestFirst (insert t forest) := by
  induction forest with
  | nil => exact List.pairwise_singleton _ _
  | cons s rest ih =>
      obtain ⟨hfirst, hrest⟩ := List.pairwise_cons.mp h
      unfold insert
      split
      · next hle =>
          refine List.pairwise_cons.mpr ⟨fun u hu => ?_, ih hrest⟩
          rcases List.mem_cons.mp ((insert_perm t rest).mem_iff.mp hu) with rfl | hu
          · exact hle
          · exact hfirst u hu
      · next hlt =>
          refine List.pairwise_cons.mpr ⟨fun u hu => ?_, h⟩
          rcases List.mem_cons.mp hu with rfl | hu
          · exact Nat.le_of_not_le hlt
          · exact Nat.le_trans (Nat.le_of_not_le hlt) (hfirst u hu)

/-- What the trees of a forest cost when each is put at a depth of its own. -/
def cost (forest : List HopTree) (depths : List Nat) : Nat :=
  (List.zipWith (fun t depth => t.weight * depth) forest depths).sum

@[simp] theorem cost_cons (t : HopTree) (forest : List HopTree) (depth : Nat)
    (depths : List Nat) :
    cost (t :: forest) (depth :: depths) = t.weight * depth + cost forest depths :=
  rfl

def innerWeight : HopTree → Nat
  | leaf _ _ => 0
  | node left right => (node left right).weight + left.innerWeight + right.innerWeight

/-- Of two trees the lighter one goes deeper. -/
theorem swap_le {w w' l l' : Nat} (hw : w ≤ w') (hl : l ≤ l') :
    w * l' + w' * l ≤ w * l + w' * l' := by
  obtain ⟨v, rfl⟩ := Nat.exists_eq_add_of_le hw
  obtain ⟨k, rfl⟩ := Nat.exists_eq_add_of_le hl
  have hgain : w * (l + k) + (w + v) * l + v * k = w * l + (w + v) * (l + k) := by ring
  omega

theorem cost_orderedInsert_le {t : HopTree} {forest : List HopTree} {depth : Nat}
    {depths : List Nat} (h : LightestFirst (t :: forest))
    (hlength : depths.length = forest.length) :
    cost (t :: forest) (depths.orderedInsert (· ≥ ·) depth) ≤
      cost (t :: forest) (depth :: depths) := by
  induction depths generalizing t forest with
  | nil => exact Nat.le_refl _
  | cons l rest ih =>
      obtain ⟨s, forest, rfl⟩ := List.exists_cons_of_length_eq_add_one hlength.symm
      obtain ⟨hfirst, hforest⟩ := List.pairwise_cons.mp h
      rw [List.orderedInsert_cons]
      split
      · exact Nat.le_refl _
      · next hlt =>
          have hswap := swap_le (hfirst s List.mem_cons_self) (Nat.le_of_not_le hlt)
          have hrest := ih hforest (Nat.succ.inj hlength)
          simp only [cost_cons] at hrest ⊢
          omega

/-- Depths in falling order cost no more than the same depths in any order. -/
theorem cost_insertionSort_le {forest : List HopTree} {depths : List Nat}
    (h : LightestFirst forest) (hlength : depths.length = forest.length) :
    cost forest (depths.insertionSort (· ≥ ·)) ≤ cost forest depths := by
  induction depths generalizing forest with
  | nil => exact Nat.le_refl _
  | cons l rest ih =>
      obtain ⟨t, forest, rfl⟩ := List.exists_cons_of_length_eq_add_one hlength.symm
      have hrest := ih (List.pairwise_cons.mp h).2 (Nat.succ.inj hlength)
      have hsorted : (rest.insertionSort (· ≥ ·)).length = forest.length := by
        rw [List.length_insertionSort]
        exact Nat.succ.inj hlength
      calc cost (t :: forest) ((rest.insertionSort (· ≥ ·)).orderedInsert (· ≥ ·) l)
          ≤ cost (t :: forest) (l :: rest.insertionSort (· ≥ ·)) := cost_orderedInsert_le h hsorted
        _ ≤ cost (t :: forest) (l :: rest) := by
          rw [cost_cons, cost_cons]
          exact Nat.add_le_add_left hrest _

/-- A tree keeps its depth when it is inserted. -/
theorem exists_cost_insert (t : HopTree) (depth : Nat) {forest : List HopTree}
    {depths : List Nat} (hlength : depths.length = forest.length) :
    ∃ depths', depths'.Perm (depth :: depths) ∧
      cost (insert t forest) depths' = cost (t :: forest) (depth :: depths) := by
  induction forest generalizing depths with
  | nil => exact ⟨depth :: depths, .refl _, rfl⟩
  | cons s rest ih =>
      obtain ⟨l, depths, rfl⟩ := List.exists_cons_of_length_eq_add_one hlength
      unfold insert
      split
      · obtain ⟨depths', hperm, hcost⟩ := ih (Nat.succ.inj hlength)
        refine ⟨l :: depths', (hperm.cons l).trans (.swap depth l depths), ?_⟩
        simp only [cost_cons] at hcost ⊢
        omega
      · exact ⟨depth :: l :: depths, .refl _, rfl⟩

/-- Nothing lies deeper than `l` but one tree: it can move up to `l`, and the pair then has the
room of one tree a level above. -/
theorem room_of_deepest {l longest : Nat} {rest : List Nat} (hrest : ∀ k ∈ rest, k ≤ l)
    (hl : l ≤ maxCodeLength)
    (hroom : share longest + (share l + (rest.map share).sum) ≤ 2 ^ maxCodeLength) :
    0 < l ∧ share (l - 1) + (rest.map share).sum ≤ 2 ^ maxCodeLength := by
  have hdvd : share l ∣ (rest.map share).sum := by
    refine List.dvd_sum fun s hs => ?_
    obtain ⟨k, hk, rfl⟩ := List.mem_map.mp hs
    exact ⟨2 ^ (l - k), by rw [Nat.mul_comm, two_pow_sub_mul_share (hrest k hk) hl]⟩
  obtain ⟨q, hq⟩ := hdvd
  -- all shares are multiples of the smallest, so room for a bit more is room for one more of it
  have hfull := two_pow_mul_share hl
  have hlong := share_pos longest
  have hq' : q + 1 < 2 ^ l := by
    refine Nat.lt_of_mul_lt_mul_right (a := share l) ?_
    rw [hfull, Nat.add_mul, Nat.one_mul, Nat.mul_comm q]
    omega
  have hpair : (q + 2) * share l ≤ 2 ^ maxCodeLength := by
    rw [← hfull]
    exact Nat.mul_le_mul_right _ hq'
  have hpos : 0 < l := by
    by_contra hzero
    obtain rfl : l = 0 := by omega
    omega
  refine ⟨hpos, ?_⟩
  have hup : share (l - 1 + 1) + share (l - 1 + 1) = share (l - 1) := share_succ (by omega)
  rw [Nat.sub_add_cancel hpos] at hup
  rw [hq, ← hup]
  calc share l + share l + share l * q = (q + 2) * share l := by ring
    _ ≤ 2 ^ maxCodeLength := hpair

/-- One merge.  Whatever depths the trees have, there are depths for the trees left that cost less
by the weight of the new node. -/
theorem exists_cost_merge {s t : HopTree} {rest : List HopTree} {depths : List Nat}
    (h : LightestFirst (s :: t :: rest)) (hlength : depths.length = (s :: t :: rest).length)
    (hshort : ∀ l ∈ depths, l ≤ maxCodeLength)
    (hroom : (depths.map share).sum ≤ 2 ^ maxCodeLength) :
    ∃ depths', depths'.length = rest.length + 1 ∧ (∀ l ∈ depths', l ≤ maxCodeLength) ∧
      (depths'.map share).sum ≤ 2 ^ maxCodeLength ∧
      (node s t).weight + cost (insert (node s t) rest) depths' ≤ cost (s :: t :: rest) depths := by
  have hperm := List.perm_insertionSort (· ≥ ·) depths
  have hfalling := List.pairwise_insertionSort (· ≥ ·) depths
  have hcost := cost_insertionSort_le h hlength
  obtain ⟨longest, more, hsorted⟩ := List.exists_cons_of_length_eq_add_one
    (hperm.length_eq.trans hlength)
  rw [hsorted] at hperm hfalling hcost
  obtain ⟨l, others, rfl⟩ := List.exists_cons_of_length_eq_add_one
    (Nat.succ.inj (hperm.length_eq.trans hlength))
  obtain ⟨hdeepest, hfalling⟩ := List.pairwise_cons.mp hfalling
  have hothers := (List.pairwise_cons.mp hfalling).1
  have hcount : others.length = rest.length :=
    Nat.succ.inj (Nat.succ.inj (hperm.length_eq.trans hlength))
  have hlong : l ≤ longest := hdeepest l List.mem_cons_self
  have hl : l ≤ maxCodeLength := hshort l (hperm.mem_iff.mp (by simp))
  rw [← (hperm.map share).sum_eq, List.map_cons, List.map_cons, List.sum_cons,
    List.sum_cons] at hroom
  obtain ⟨hpos, hroom'⟩ := room_of_deepest hothers hl hroom
  obtain ⟨depths', hperm', hcost'⟩ := exists_cost_insert (node s t) (l - 1) hcount
  refine ⟨depths', ?_, ?_, ?_, ?_⟩
  · rw [hperm'.length_eq, List.length_cons, hcount]
  · intro k hk
    rcases List.mem_cons.mp (hperm'.mem_iff.mp hk) with rfl | hk
    · omega
    · exact Nat.le_trans (hothers k hk) hl
  · rw [(hperm'.map share).sum_eq, List.map_cons, List.sum_cons]
    exact hroom'
  · have hup : s.weight * l ≤ s.weight * longest := Nat.mul_le_mul_left _ hlong
    obtain ⟨k, rfl⟩ := Nat.exists_eq_add_of_lt hpos
    have hlevel : (node s t).weight + (node s t).weight * (0 + k + 1 - 1) =
        s.weight * (0 + k + 1) + t.weight * (0 + k + 1) := by
      rw [Nat.add_sub_cancel, weight]
      ring
    rw [hcost', cost_cons]
    simp only [cost_cons] at hcost
    omega

/-- The merged tree costs no more than the forest at any depths that have room. -/
theorem innerWeight_le_cost {forest : List HopTree} {tree : HopTree} {depths : List Nat}
    (hmerge : merge? forest = some tree) (h : LightestFirst forest)
    (hlength : depths.length = forest.length) (hshort : ∀ l ∈ depths, l ≤ maxCodeLength)
    (hroom : (depths.map share).sum ≤ 2 ^ maxCodeLength) :
    tree.innerWeight ≤ (forest.map innerWeight).sum + cost forest depths := by
  induction forest using merge?.induct generalizing depths with
  | case1 => rw [merge?] at hmerge; cases hmerge
  | case2 t =>
      rw [merge?] at hmerge
      cases hmerge
      simp
  | case3 s t rest ih =>
      rw [merge?] at hmerge
      obtain ⟨depths', hlength', hshort', hroom', hcost⟩ :=
        exists_cost_merge h hlength hshort hroom
      have hrest : LightestFirst rest := (List.pairwise_cons.mp (List.pairwise_cons.mp h).2).2
      have htree := ih hmerge (lightestFirst_insert hrest)
        (by rw [hlength', length_insert]) hshort' hroom'
      have hinner := ((insert_perm (node s t) rest).map innerWeight).sum_eq
      simp only [List.map_cons, List.sum_cons, innerWeight] at hinner ⊢
      omega

def Counts (m : Histogram) : HopTree → Prop
  | leaf hop count => count = m hop
  | node left right => left.Counts m ∧ right.Counts m

theorem counts_merge? {m : Histogram} {forest : List HopTree} {tree : HopTree}
    (hmerge : merge? forest = some tree) (h : ∀ t ∈ forest, t.Counts m) : tree.Counts m := by
  induction forest using merge?.induct with
  | case1 => rw [merge?] at hmerge; cases hmerge
  | case2 t =>
      rw [merge?] at hmerge
      cases hmerge
      exact h _ List.mem_cons_self
  | case3 s t rest ih =>
      rw [merge?] at hmerge
      refine ih hmerge fun u hu => ?_
      rcases List.mem_cons.mp ((insert_perm _ _).mem_iff.mp hu) with rfl | hu
      · exact ⟨h s (by simp), h t (by simp)⟩
      · exact h u (by simp [hu])

/-- The leaves of a tree cost the weights of its inner nodes, and the whole weight for every level
above the root. -/
theorem sum_depths {m : Histogram} {t : HopTree} (h : t.Counts m) (depth : Nat) :
    ((t.depths depth).map fun e => m e.1 * e.2).sum = t.innerWeight + t.weight * depth := by
  induction t generalizing depth with
  | leaf hop count =>
      obtain rfl := h
      simp [depths, innerWeight, weight]
  | node left right ihl ihr =>
      simp only [depths, List.map_append, List.sum_append, ihl h.1, ihr h.2, innerWeight, weight]
      ring

end HopTree

namespace Histogram

open HopTree CodeTable

/-- What the counted hops take when every hop is coded in as many bits as `lengths` says. -/
def bitsAt (m : Histogram) (lengths : HopMap Nat) : Nat :=
  (Hop.all.map fun h => m h * lengths h).sum

theorem sum_map_filter {α : Type} {f : α → Nat} {p : α → Bool} {list : List α}
    (h : ∀ a ∈ list, p a = false → f a = 0) : ((list.filter p).map f).sum = (list.map f).sum := by
  induction list with
  | nil => rfl
  | cons a rest ih =>
      have hrest := ih fun b hb => h b (List.mem_cons_of_mem a hb)
      rw [List.filter_cons, List.map_cons, List.sum_cons]
      split
      · rw [List.map_cons, List.sum_cons, hrest]
      · next hout => rw [hrest, h a List.mem_cons_self (by simpa using hout), Nat.zero_add]

/-- Hops that do not occur take no bits. -/
theorem bitsAt_eq_used (m : Histogram) (lengths : HopMap Nat) :
    m.bitsAt lengths = (m.used.map fun h => m h * lengths h).sum := by
  refine (sum_map_filter fun h _ hout => ?_).symm
  have hzero : m h = 0 := by simpa using hout
  rw [hzero, Nat.zero_mul]

theorem encodedBits_eq_bitsAt {m : Histogram} {lengths : HopMap Nat} {t : CodeTable}
    (hfeasible : Feasible lengths) (ht : canonical lengths m = .ok t)
    (hcover : ∀ h, 0 < m h → lengths h ≠ unusedLength) : t.encodedBits m = m.bitsAt lengths := by
  have hitem : ∀ h, ((t.code? h).map fun c => c.length * m h).getD 0 = m h * lengths h := by
    intro h
    rcases Nat.eq_zero_or_pos (m h) with hzero | hpos
    · rw [hzero, Nat.zero_mul]
      cases t.code? h <;> rfl
    · obtain ⟨c, hc, hlength⟩ := (hfeasible.code?_canonical ht h).2 (hcover h hpos)
      rw [hc, Option.map_some, Option.getD_some, hlength, Nat.mul_comm]
  simp only [encodedBits, hitem, bitsAt, List.sum_eq_foldl, List.foldl_map]

theorem lightestFirst_forest (m : Histogram) : LightestFirst (forest m) := by
  have hkeep : ∀ (hops : List Hop) (trees : List HopTree), LightestFirst trees →
      LightestFirst (hops.foldl (fun sum h => HopTree.insert (leaf h (m h)) sum) trees) := by
    intro hops
    induction hops with
    | nil => exact fun _ h => h
    | cons h rest ih => exact fun trees htrees => ih _ (lightestFirst_insert htrees)
  exact hkeep m.used [] .nil

/-- The forest of the counted hops costs what the counted hops cost. -/
theorem cost_forest (m : Histogram) (lengths : HopMap Nat) :
    cost (forest m) ((forest m).map fun t => (t.hops.map lengths).sum) = m.bitsAt lengths := by
  have hleaves := ((forest_perm m).map fun t => t.weight * (t.hops.map lengths).sum).sum_eq
  rw [List.map_map] at hleaves
  rw [cost, List.zipWith_map_right, List.zipWith_self, hleaves, bitsAt_eq_used]
  rfl

/-- The merged tree, coded from its base, costs no more than any lengths that have room. -/
theorem tree_le_bitsAt {m : Histogram} {tree : HopTree} (htree : merge? (forest m) = some tree)
    (hperm : tree.hops.Perm m.used) {lengths : HopMap Nat} (hfeasible : Feasible lengths)
    (hcover : ∀ h, 0 < m h → lengths h ≠ unusedLength) :
    tree.innerWeight + tree.weight * tree.base ≤ m.bitsAt lengths := by
  have hcounts : ∀ t ∈ forest m, ∃ h ∈ m.used, t = leaf h (m h) := by
    intro t ht
    obtain ⟨h, hused, rfl⟩ := List.mem_map.mp ((forest_perm m).mem_iff.mp ht)
    exact ⟨h, hused, rfl⟩
  cases tree with
  | leaf hop count =>
      -- a lone hop takes one bit, and no legal length is shorter
      have hcount : count = m hop :=
        counts_merge? htree fun t ht => by
          obtain ⟨h, -, rfl⟩ := hcounts t ht
          rfl
      have hused : m.used = [hop] := List.perm_singleton.mp hperm.symm
      have hpos : 0 < m hop := mem_used.mp (by simp [hused])
      rw [bitsAt_eq_used, hused, hcount]
      simpa [innerWeight, weight, base] using
        Nat.mul_le_mul_left (m hop) (hfeasible.legal hop (hcover hop hpos)).1
  | node left right =>
      have hlegal : ∀ h ∈ m.used, lengths h ≤ maxCodeLength := fun h hused =>
        (hfeasible.legal h (hcover h (mem_used.mp hused))).2
      have hroom : ((m.used.map lengths).map share).sum ≤ 2 ^ maxCodeLength := by
        have hsub : m.used.Sublist (usedHops lengths) :=
          List.monotone_filter_right _ fun h hpos => by
            simpa using hcover h (by simpa using hpos)
        rw [List.map_map]
        exact Nat.le_trans ((hsub.map _).sum_le_sum fun _ _ => Nat.zero_le _) hfeasible.room
      have hdepths : ((forest m).map fun t => (t.hops.map lengths).sum).Perm
          (m.used.map lengths) := by
        have hleaves := (forest_perm m).map fun t => (t.hops.map lengths).sum
        simpa [List.map_map, Function.comp_def, hops] using hleaves
      have hinner : ((forest m).map innerWeight).sum = 0 := by
        refine List.sum_eq_zero fun n hn => ?_
        obtain ⟨t, ht, rfl⟩ := List.mem_map.mp hn
        obtain ⟨h, -, rfl⟩ := hcounts t ht
        rfl
      have hcost := innerWeight_le_cost htree (lightestFirst_forest m) (by rw [List.length_map])
        (fun l hl => by
          obtain ⟨h, hused, rfl⟩ := List.mem_map.mp (hdepths.mem_iff.mp hl)
          exact hlegal h hused)
        ((hdepths.map share).sum_eq ▸ hroom)
      rw [hinner, cost_forest, Nat.zero_add] at hcost
      exact hcost

/-- The code lengths of a histogram are the depths in its merged tree. -/
theorem exists_depths {m : Histogram} (h : ∃ hop, 0 < m hop) :
    ∃ tree lengths, merge? (forest m) = some tree ∧ tree.hops.Perm m.used ∧
      m.codeLengths? = some lengths ∧ ∀ e ∈ tree.depths tree.base, lengths e.1 = e.2 := by
  obtain ⟨tree, htree, hperm, hlengths⟩ := exists_tree h
  have hnodup := hperm.nodup_iff.mpr m.used_nodup
  exact ⟨tree, tree.lengths, htree, hperm, hlengths, lengths_of_mem_depths hnodup⟩

section Depths

variable {m : Histogram} {tree : HopTree} {lengths : HopMap Nat}

theorem bitsAt_of_depths (htree : merge? (forest m) = some tree) (hperm : tree.hops.Perm m.used)
    (hdepth : ∀ e ∈ tree.depths tree.base, lengths e.1 = e.2) :
    m.bitsAt lengths = tree.innerWeight + tree.weight * tree.base := by
  have hcounts : tree.Counts m := counts_merge? htree fun t ht => by
    obtain ⟨h, -, rfl⟩ := List.mem_map.mp ((forest_perm m).mem_iff.mp ht)
    rfl
  rw [bitsAt_eq_used, ← (hperm.map _).sum_eq, ← map_fst_depths tree tree.base, List.map_map,
    ← sum_depths hcounts]
  congr 1
  refine List.map_congr_left fun e he => ?_
  rw [Function.comp_apply, hdepth e he]

/-- Nine leaves lie at depth nine at most. -/
theorem length_le_of_depths (hperm : tree.hops.Perm m.used)
    (hdepth : ∀ e ∈ tree.depths tree.base, lengths e.1 = e.2) :
    ∀ hop ∈ m.used, lengths hop ≤ 9 := by
  intro hop hused
  rw [← hperm.mem_iff, ← map_fst_depths tree tree.base] at hused
  obtain ⟨e, he, rfl⟩ := List.mem_map.mp hused
  have hbound := (depths_bound tree tree.base e he).2
  have hbase := tree.base_le_one
  have hfew := hperm.length_eq ▸ m.length_used_le
  rw [hdepth e he]
  omega

theorem bitsAt_le_total {most : Nat} (h : ∀ hop ∈ m.used, lengths hop ≤ most) :
    m.bitsAt lengths ≤ most * m.total := by
  have hall : (Hop.all.map fun hop => m hop * most).sum = most * m.total := by
    rw [List.sum_map_mul_right, Nat.mul_comm, total, ← List.sum_eq_foldl]
    rfl
  rw [bitsAt_eq_used]
  calc (m.used.map fun hop => m hop * lengths hop).sum
      ≤ (m.used.map fun hop => m hop * most).sum :=
        List.sum_le_sum fun hop hused => Nat.mul_le_mul_left _ (h hop hused)
    _ ≤ (Hop.all.map fun hop => m hop * most).sum :=
        (List.filter_sublist.map _).sum_le_sum fun _ _ => Nat.zero_le _
    _ = most * m.total := hall

end Depths

/-- A histogram that counts something has a table with codewords for just the counted hops; it
codes them in no more bits than any lengths that a table can be built from. -/
theorem exists_optimal {m : Histogram} (h : ∃ hop, 0 < m hop) :
    ∃ t, m.codeTable = .ok t ∧ (∀ hop, (t.code? hop).isSome ↔ 0 < m hop) ∧
      t.encodedBits m ≤ 9 * m.total ∧
      ∀ lengths, Feasible lengths → (∀ hop, 0 < m hop → lengths hop ≠ unusedLength) →
        t.encodedBits m ≤ m.bitsAt lengths := by
  obtain ⟨tree, lengths, htree, hperm, hlengths, hdepth⟩ := exists_depths h
  obtain ⟨lengths', hlengths', hfeasible, hcover⟩ := exists_codeLengths h
  obtain rfl := Option.some.inj (hlengths.symm.trans hlengths')
  obtain ⟨-, t, -, -, ht, -⟩ := hfeasible.exists_canonical m
  have hbits : t.encodedBits m = m.bitsAt lengths :=
    encodedBits_eq_bitsAt hfeasible ht fun hop => (hcover hop).mp
  refine ⟨t, by rw [codeTable, hlengths]; exact ht, fun hop => ?_, ?_, ?_⟩
  · obtain ⟨hunused, hused⟩ := hfeasible.code?_canonical ht hop
    rw [hcover hop]
    constructor
    · intro hsome hlength
      rw [hunused hlength] at hsome
      cases hsome
    · intro hlength
      obtain ⟨c, hc, -⟩ := hused hlength
      rw [hc]
      rfl
  · rw [hbits]
    exact bitsAt_le_total (length_le_of_depths hperm hdepth)
  · intro others hothers hcover'
    rw [hbits, bitsAt_of_depths htree hperm hdepth]
    exact tree_le_bitsAt htree hperm hothers hcover'

end Histogram

end HopCodec

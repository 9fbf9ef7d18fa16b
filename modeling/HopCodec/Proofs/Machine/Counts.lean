/-
Counting hops and weighing codes on the machine.  The nodes of the heap stand for the trees of a
forest, and the climb of a leaf to its root is as long as the leaf is deep.
-/
import HopCodec.Proofs.Huffman.Optimal
import HopCodec.Proofs.Machine.Heap

namespace HopCodec.Machine

namespace Counts

theorem foldlM_increment_eq {hops : List Hop} {m : Histogram}
    (h : ∀ hop, m hop + hops.length < wordSize) :
    hops.foldlM increment m = .ok (m.addAll hops) := by
  induction hops generalizing m with
  | nil => rfl
  | cons g rest ih =>
      have hg := h g
      rw [List.length_cons] at hg
      rw [List.foldlM_cons, increment, add_eq (by omega), ok_bind, pure_eq_ok, ok_bind]
      refine ih fun hop => ?_
      have hhop := h hop
      rw [List.length_cons] at hhop
      rw [HopMap.get_set]
      split
      · next heq =>
          subst heq
          omega
      · omega

theorem ofHops_eq {hops : List Hop} (h : hops.length < wordSize) :
    ofHops hops = .ok (Histogram.ofList hops) := by
  refine foldlM_increment_eq fun hop => ?_
  have hzero : Histogram.empty hop = 0 := HopMap.get_const 0 hop
  rw [hzero, Nat.zero_add]
  exact h

theorem foldlM_merge_eq {m n : Histogram} {hops : List Hop} (hnodup : hops.Nodup)
    (h : ∀ hop ∈ hops, m hop + n hop < wordSize) :
    hops.foldlM (fun sum hop => do return sum.set hop (← add (sum hop) (n hop))) m =
      .ok (HopMap.ofFn fun hop => if hop ∈ hops then m hop + n hop else m hop) := by
  induction hops generalizing m with
  | nil =>
      rw [List.foldlM_nil, pure_eq_ok]
      exact congrArg Except.ok (HopMap.ext fun hop => by simp)
  | cons g rest ih =>
      obtain ⟨hnew, hrest⟩ := List.nodup_cons.mp hnodup
      have hg := h g List.mem_cons_self
      have hget : ∀ hop ∈ rest, (m.set g (m g + n g)) hop = m hop := by
        intro hop hmem
        have hne : g ≠ hop := by
          rintro rfl
          exact hnew hmem
        rw [HopMap.get_set, if_neg hne]
      have hsum := ih hrest (m := m.set g (m g + n g)) fun hop hmem => by
        rw [hget hop hmem]
        exact h hop (List.mem_cons_of_mem g hmem)
      rw [List.foldlM_cons, add_eq hg, ok_bind, pure_eq_ok, ok_bind, hsum]
      refine congrArg Except.ok (HopMap.ext fun hop => ?_)
      rw [HopMap.get_ofFn, HopMap.get_ofFn]
      by_cases hmem : hop ∈ rest
      · rw [if_pos hmem, if_pos (List.mem_cons_of_mem g hmem), hget hop hmem]
      · rw [if_neg hmem, HopMap.get_set]
        by_cases heq : g = hop
        · subst heq
          simp
        · have hout : hop ∉ g :: rest := by
            rw [List.mem_cons]
            rintro (rfl | hin)
            · exact heq rfl
            · exact hmem hin
          rw [if_neg heq, if_neg hout]

theorem merge_eq {m n : Histogram} (h : ∀ hop, m hop + n hop < wordSize) :
    merge m n = .ok (m.merge n) := by
  rw [merge, foldlM_merge_eq (by decide) fun hop _ => h hop]
  refine congrArg Except.ok (HopMap.ext fun hop => ?_)
  rw [HopMap.get_ofFn, if_pos (Hop.mem_all hop), Histogram.get_merge]

theorem total_eq {m : Histogram} {most : Nat} (h : ∀ hop, m hop ≤ most)
    (hroom : 9 * most < wordSize) : total m = .ok m.total := by
  have hle : (Hop.all.map m.get).sum ≤ Hop.all.length * most := sum_map_le fun hop _ => h hop
  have hlength : Hop.all.length = 9 := rfl
  have hsum : (m.toList.map id).sum = (Hop.all.map m.get).sum := by
    rw [List.map_id]
    rfl
  rw [hlength] at hle
  have htotal : m.toList.foldlM add 0 = .ok (0 + (m.toList.map id).sum) :=
    foldlM_add (f := id) (by omega)
  rw [total, htotal, Nat.zero_add, List.map_id, List.sum_eq_foldl]
  rfl

theorem encodedBits_eq_sum (t : CodeTable) (m : Histogram) :
    t.encodedBits m = ((Table.filed t).map fun e => e.2.length * m e.1).sum := by
  have hlist : ∀ hops : List Hop,
      (hops.map fun h => ((t.code? h).map fun c => c.length * m h).getD 0).sum =
        ((hops.filterMap fun h => (t.code? h).map fun c => (h, c)).map
          fun e => e.2.length * m e.1).sum := by
    intro hops
    induction hops with
    | nil => rfl
    | cons h rest ih => cases hc : t.code? h <;> simp [hc, ih]
  rw [Table.filed, ← hlist, CodeTable.encodedBits, List.sum_eq_foldl, List.foldl_map]

/-- The size of the coded hops is a word as long as it fits one. -/
theorem encodedBits_eq {t : CodeTable} {m : Histogram} (h : t.encodedBits m < wordSize) :
    encodedBits (.ofPlain t) m = .ok (t.encodedBits m) := by
  have hplain : (Table.ofPlain t).plain = t := rfl
  rw [encodedBits_eq_sum] at h ⊢
  have hitem : ∀ e ∈ Table.filed t, mul e.2.length (m e.1) = .ok (e.2.length * m e.1) := by
    intro e he
    have hle : e.2.length * m e.1 ≤ ((Table.filed t).map fun e => e.2.length * m e.1).sum :=
      List.le_sum_of_mem (List.mem_map_of_mem he)
    exact mul_eq (Nat.lt_of_le_of_lt hle h)
  rw [encodedBits, hplain, foldlM_add_eq hitem (by rwa [Nat.zero_add]), Nat.zero_add]

/-- Nine codewords of fourteen bits at most bound the size of the coded hops. -/
theorem encodedBits_le {t : CodeTable} (ht : t.Sound) {m : Histogram} {most : Nat}
    (h : ∀ hop, m hop ≤ most) : t.encodedBits m ≤ 126 * most := by
  have hlength : (Table.filed t).length ≤ 9 := List.length_filterMap_le _ _
  have hsum : ((Table.filed t).map fun e => e.2.length * m e.1).sum ≤
      (Table.filed t).length * (14 * most) :=
    sum_map_le fun e he =>
      Nat.mul_le_mul (ht.length_le e.1 e.2 (Table.mem_filed.mp he)) (h e.1)
  have hmost : (Table.filed t).length * (14 * most) ≤ 9 * (14 * most) :=
    Nat.mul_le_mul_right _ hlength
  rw [encodedBits_eq_sum]
  omega

/-- The size of the coded hops is a number that fits a word. -/
theorem exists_encodedBits {t : CodeTable} (ht : t.Sound) {m : Histogram} {most : Nat}
    (h : ∀ hop, m hop ≤ most) (hroom : 126 * most < wordSize) :
    ∃ bits, encodedBits (.ofPlain t) m = .ok bits ∧ bits ≤ 126 * most :=
  ⟨_, encodedBits_eq (Nat.lt_of_le_of_lt (encodedBits_le ht h) hroom), encodedBits_le ht h⟩

theorem foldlM_set_eq {β : Type} {f : β → Run Nat} {value : Hop → Nat} {items : List (Hop × β)}
    (h : ∀ e ∈ items, f e.2 = .ok (value e.1)) (start : HopMap Nat) :
    items.foldlM (fun lengths e => do return lengths.set e.1 (← f e.2)) start =
      .ok (items.foldl (fun lengths e => lengths.set e.1 (value e.1)) start) := by
  induction items generalizing start with
  | nil => rfl
  | cons e rest ih =>
      rw [List.foldlM_cons, h e List.mem_cons_self, ok_bind, pure_eq_ok, ok_bind,
        ih (fun g hg => h g (List.mem_cons_of_mem e hg)) _, List.foldl_cons]

/-- Counted hops, at least two, get their depths in the merged tree. -/
theorem climbs_eq {m : Histogram} {tree : HopTree} {parents : Parents} {e : Nat × Nat}
    (htree : StandsFor m.used parents e tree) (hperm : tree.hops.Perm m.used)
    (hsize : m.used.length ≤ parents.size) {lengths : HopMap Nat}
    (hlengths : ∀ d ∈ tree.depths 0, lengths d.1 = d.2) :
    ∀ leaf ∈ m.used.zipIdx, parents.climb parents.size leaf.2 0 = .ok (lengths leaf.1) := by
  rintro ⟨hop, leaf⟩ hmem
  have hleaf : m.used[leaf]? = some hop := List.mem_zipIdx_iff_getElem?.mp hmem
  have hhop : hop ∈ (tree.depths 0).map Prod.fst := by
    rw [HopTree.map_fst_depths, hperm.mem_iff]
    exact List.mem_of_getElem? hleaf
  obtain ⟨d, hd, rfl⟩ := List.mem_map.mp hhop
  obtain ⟨leaf', hleaf', hclimbs⟩ := htree.climbs d hd
  have hsame : leaf = leaf' := by
    have hlt := (List.getElem?_eq_some_iff.mp hleaf).1
    exact (List.getElem?_inj hlt m.used_nodup).mp (hleaf.trans hleaf'.symm)
  subst hsame
  have hdepth := (HopTree.depths_bound tree 0 d hd).2
  rw [hperm.length_eq, Nat.zero_add] at hdepth
  have hfew := m.length_used_le
  rw [climb_eq hclimbs htree.root (by omega) (by omega), Nat.zero_add, hlengths d hd]

/-- Setting the listed hops to the values that a map has gives the map, if they are all that
matter. -/
theorem foldl_zipIdx_set {used : List Hop} (hnodup : used.Nodup) {lengths start : HopMap Nat}
    (hother : ∀ hop, hop ∉ used → lengths hop = start hop) :
    used.zipIdx.foldl (fun sum d => sum.set d.1 (lengths d.1)) start = lengths := by
  have hlist : ((used.zipIdx.map fun d => (d.1, lengths d.1)).map Prod.fst) = used := by
    rw [List.map_map]
    exact List.zipIdx_map_fst 0 used
  have hnodup' : ((used.zipIdx.map fun d => (d.1, lengths d.1)).map Prod.fst).Nodup := by
    rw [hlist]
    exact hnodup
  have hget := Histogram.get_foldl_set hnodup' start
  rw [List.foldl_map] at hget
  refine HopMap.ext fun hop => ?_
  by_cases hmem : hop ∈ used
  · have hpair : (hop, lengths hop) ∈ used.zipIdx.map fun d => (d.1, lengths d.1) := by
      rw [← List.zipIdx_map_fst 0 used] at hmem
      obtain ⟨d, hd, rfl⟩ := List.mem_map.mp hmem
      exact List.mem_map.mpr ⟨d, hd, rfl⟩
    exact (hget hop).1 _ hpair
  · rw [(hget hop).2 (by rw [hlist]; exact hmem), ← hother hop hmem]

theorem codeLengths_single {m : Histogram} {h : Hop} (hused : m.used = [h])
    {lengths : HopMap Nat} (hlengths : m.codeLengths? = some lengths) :
    codeLengths m = .ok lengths := by
  have hforest : HopTree.forest m = [.leaf h (m h)] := by
    rw [HopTree.forest, hused]
    rfl
  rw [Histogram.codeLengths?, hforest, HopTree.merge?] at hlengths
  cases hlengths
  rw [codeLengths]
  simp only [hused]
  rfl

/-- The climbs of the leaves give the lengths that the depths of the tree give. -/
theorem codeLengths_many {m : Histogram} {g h : Hop} {rest : List Hop}
    (hused : m.used = g :: h :: rest) (hsum : (m.used.map m.get).sum < wordSize)
    {lengths : HopMap Nat} (hlengths : m.codeLengths? = some lengths) :
    codeLengths m = .ok lengths := by
  have hcounts : ∃ hop, 0 < m hop := ⟨g, Histogram.mem_used.mp (by simp [hused])⟩
  obtain ⟨parents, e, tree, hmerge, htree, hstands, hsize⟩ :=
    exists_merge_ofUsed (by simp [hused]) hsum
  obtain ⟨tree', htree', hperm, hread⟩ := Histogram.exists_tree hcounts
  obtain rfl := Option.some.inj (htree'.symm.trans htree)
  obtain rfl := Option.some.inj (hread.symm.trans hlengths)
  have hnodup := hperm.nodup_iff.mpr m.used_nodup
  have hmany : 2 ≤ tree'.hops.length := by
    rw [hperm.length_eq, hused]
    simp
  have hdepths := Histogram.lengths_of_mem_depths hnodup
  rw [HopTree.base_eq_zero hmany] at hdepths
  have hfold : m.used.zipIdx.foldlM
      (fun sum d => do return sum.set d.1 (← parents.climb parents.size d.2 0))
      (HopMap.const unusedLength) = .ok (m.used.zipIdx.foldl
        (fun sum d => sum.set d.1 (tree'.lengths d.1)) (HopMap.const unusedLength)) :=
    foldlM_set_eq (f := fun leaf => parents.climb parents.size leaf 0)
      (climbs_eq hstands hperm hsize hdepths) _
  have hother : ∀ hop, hop ∉ m.used → tree'.lengths hop = HopMap.const unusedLength hop := by
    intro hop hmem
    rw [← hperm.mem_iff] at hmem
    exact (Histogram.lengths_of_not_mem hnodup hmem).trans (HopMap.get_const _ hop).symm
  rw [codeLengths]
  simp only [hused]
  rw [← hused, hmerge, ok_bind, hfold, foldl_zipIdx_set m.used_nodup hother]

theorem codeLengths_eq {m : Histogram} (hused : ∃ hop, 0 < m hop)
    (hsum : (m.used.map m.get).sum < wordSize) {lengths : HopMap Nat}
    (hlengths : m.codeLengths? = some lengths) : codeLengths m = .ok lengths := by
  rcases hlist : m.used with - | ⟨g, - | ⟨h, rest⟩⟩
  · obtain ⟨hop, hpos⟩ := hused
    have hmem := Histogram.mem_used.mpr hpos
    rw [hlist] at hmem
    exact absurd hmem List.not_mem_nil
  · exact codeLengths_single hlist hlengths
  · exact codeLengths_many hlist hsum hlengths

/-- A histogram that counts something has the table of the plain codec, as long as its counts can be
added up. -/
theorem codeTable_eq_of_sum {m : Histogram} (hused : ∃ hop, 0 < m hop)
    (hsum : (m.used.map m.get).sum < wordSize) :
    codeTable m = lift ((m.codeTable.mapError Fault.table).map Table.ofPlain) := by
  obtain ⟨lengths, hlengths, -, -⟩ := Histogram.exists_codeLengths hused
  rw [codeTable, codeLengths_eq hused hsum hlengths, ok_bind, Table.canonical_eq,
    Histogram.codeTable, hlengths]

theorem codeTable_eq {m : Histogram} {most : Nat} (hused : ∃ hop, 0 < m hop)
    (h : ∀ hop, m hop ≤ most) (hroom : 9 * most < wordSize) :
    codeTable m = lift ((m.codeTable.mapError Fault.table).map Table.ofPlain) := by
  have hsum : (m.used.map m.get).sum ≤ m.used.length * most := sum_map_le fun hop _ => h hop
  have hfew := Nat.mul_le_mul_right most m.length_used_le
  exact codeTable_eq_of_sum hused (by omega)

/-- The table of a histogram that counts something has codewords for just the counted hops, and no
lengths that a table can be built from code these hops in fewer bits. -/
theorem codeTable_fewest_bits {m : Histogram} (hused : ∃ hop, 0 < m hop)
    (hroom : 9 * m.total < wordSize) :
    ∃ t, m.codeTable = .ok t ∧ codeTable m = .ok (.ofPlain t) ∧
      (∀ hop, (t.code? hop).isSome ↔ 0 < m hop) ∧
      encodedBits (.ofPlain t) m = .ok (t.encodedBits m) ∧
      ∀ lengths other, Table.canonical lengths (HopMap.const 0) = .ok other →
        (∀ hop, 0 < m hop → lengths hop ≠ unusedLength) →
          t.encodedBits m ≤ m.bitsAt lengths := by
  obtain ⟨t, ht, hcodes, hbits, hfewest⟩ := Histogram.exists_optimal hused
  have hmost : ∀ hop, m hop ≤ m.total := by
    intro hop
    rw [Histogram.total, ← List.sum_eq_foldl]
    exact List.le_sum_of_mem (List.mem_map_of_mem (Hop.mem_all hop))
  have htable : codeTable m = .ok (.ofPlain t) := by
    rw [codeTable_eq hused hmost hroom, ht]
    rfl
  refine ⟨t, ht, htable, hcodes, encodedBits_eq (by omega), ?_⟩
  intro lengths other hother hcover
  rw [Table.canonical_eq] at hother
  cases hplain : CodeTable.canonical lengths (HopMap.const 0) with
  | error fault => rw [hplain] at hother; cases hother
  | ok plain => exact hfewest lengths (CodeTable.feasible_of_canonical hplain) hcover

/-- Counts for which every merge but the first takes the tree merged last. -/
def fibonacci : Histogram :=
  ⟨#v[0, 1, 2, 5, 8, 3, 1, 0, 0]⟩

theorem codeTable_fewest_bits_fibonacci :
    (∃ hop, 0 < fibonacci hop) ∧ 9 * fibonacci.total < wordSize ∧
      ∃ t, fibonacci.codeTable = .ok t ∧ codeTable fibonacci = .ok (.ofPlain t) ∧
        (∀ hop, (t.code? hop).isSome ↔ 0 < fibonacci hop) ∧
        encodedBits (.ofPlain t) fibonacci = .ok (t.encodedBits fibonacci) ∧
        ∀ lengths other, Table.canonical lengths (HopMap.const 0) = .ok other →
          (∀ hop, 0 < fibonacci hop → lengths hop ≠ unusedLength) →
            t.encodedBits fibonacci ≤ fibonacci.bitsAt lengths := by
  have hused : ∃ hop, 0 < fibonacci hop := ⟨.null, by decide⟩
  have hroom : 9 * fibonacci.total < wordSize := by decide
  exact ⟨hused, hroom, codeTable_fewest_bits hused hroom⟩

end Counts

end HopCodec.Machine

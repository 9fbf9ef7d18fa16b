/-
Tables built from counts.  Merging keeps the leaves of a forest, and the leaves of a binary tree
fill the whole interval of bit strings, so the depths of the last tree are lengths that a
canonical table can always be built from.
-/
import HopCodec.Huffman.Tree
import HopCodec.Proofs.Huffman.Canonical

namespace HopCodec

open Codeword (share share_pos)

namespace HopTree

def hops : HopTree → List Hop
  | leaf hop _ => [hop]
  | node left right => left.hops ++ right.hops

theorem hops_ne_nil (t : HopTree) : t.hops ≠ [] := by
  induction t with
  | leaf hop count => simp [hops]
  | node left right ihl _ => simp [hops, ihl]

theorem insert_perm (t : HopTree) (forest : List HopTree) :
    (insert t forest).Perm (t :: forest) := by
  induction forest with
  | nil => exact .refl _
  | cons s rest ih =>
      unfold insert
      split
      · exact (ih.cons s).trans (.swap t s rest)
      · exact .refl _

/-- Merging a forest keeps its leaves. -/
theorem merge?_hops {forest : List HopTree} (h : forest ≠ []) :
    ∃ tree, merge? forest = some tree ∧ tree.hops.Perm (forest.flatMap hops) := by
  induction forest using merge?.induct with
  | case1 => exact absurd rfl h
  | case2 t => exact ⟨t, by rw [merge?], by simp⟩
  | case3 s t rest ih =>
      have hperm := insert_perm (node s t) rest
      obtain ⟨tree, htree, hleaves⟩ := ih fun hnil => by simp [hnil] at hperm
      refine ⟨tree, by rw [merge?]; exact htree, hleaves.trans ?_⟩
      have hflat := hperm.flatMap_right hops
      simpa [hops] using hflat

/-- Inserting trees one by one collects them all. -/
theorem foldl_insert_perm (trees forest : List HopTree) :
    (trees.foldl (fun sum t => insert t sum) forest).Perm (forest ++ trees) := by
  induction trees generalizing forest with
  | nil => simp
  | cons t rest ih =>
      rw [List.foldl_cons]
      exact (ih (insert t forest)).trans
        (((insert_perm t forest).append_right rest).trans List.perm_middle.symm)

theorem forest_perm (m : Histogram) : (forest m).Perm (m.used.map fun h => leaf h (m h)) := by
  have hleaves := foldl_insert_perm (m.used.map fun h => leaf h (m h)) []
  rw [List.foldl_map] at hleaves
  exact hleaves

theorem forest_hops (m : Histogram) : ((forest m).flatMap hops).Perm m.used := by
  have hleaves := (forest_perm m).flatMap_right hops
  simpa [List.flatMap_map, hops] using hleaves

theorem map_fst_depths (t : HopTree) (depth : Nat) : (t.depths depth).map Prod.fst = t.hops := by
  induction t generalizing depth with
  | leaf hop count => rfl
  | node left right ihl ihr => simp [depths, hops, ihl, ihr]

/-- A leaf lies at most as deep as there are other leaves. -/
theorem depths_bound (t : HopTree) (depth : Nat) :
    ∀ e ∈ t.depths depth, depth ≤ e.2 ∧ e.2 < depth + t.hops.length := by
  induction t generalizing depth with
  | leaf hop count => simp [depths, hops]
  | node left right ihl ihr =>
      have hleft := List.length_pos_iff.mpr left.hops_ne_nil
      have hright := List.length_pos_iff.mpr right.hops_ne_nil
      intro e he
      simp only [depths, List.mem_append] at he
      simp only [hops, List.length_append]
      rcases he with he | he
      · have := ihl (depth + 1) e he
        omega
      · have := ihr (depth + 1) e he
        omega

theorem share_succ {depth : Nat} (h : depth < maxCodeLength) :
    share (depth + 1) + share (depth + 1) = share depth := by
  have hpos : maxCodeLength - depth = (maxCodeLength - (depth + 1)) + 1 := by omega
  unfold share
  rw [hpos, Nat.pow_succ]
  omega

/-- The leaves below a node together have the share of the node. -/
theorem sum_share_depths (t : HopTree) (depth : Nat)
    (h : depth + t.hops.length ≤ maxCodeLength + 1) :
    ((t.depths depth).map fun e => share e.2).sum = share depth := by
  induction t generalizing depth with
  | leaf hop count => simp [depths]
  | node left right ihl ihr =>
      have hleft := List.length_pos_iff.mpr left.hops_ne_nil
      have hright := List.length_pos_iff.mpr right.hops_ne_nil
      simp only [hops, List.length_append] at h
      simp only [depths, List.map_append, List.sum_append]
      rw [ihl (depth + 1) (by omega), ihr (depth + 1) (by omega), share_succ (by omega)]

/-- The depth of the root: a lone leaf is coded in one bit. -/
def base : HopTree → Nat
  | leaf _ _ => 1
  | node _ _ => 0

theorem base_le_one (t : HopTree) : t.base ≤ 1 := by
  cases t <;> simp [base]

theorem depths_base_pos (t : HopTree) : ∀ e ∈ t.depths t.base, 0 < e.2 := by
  cases t with
  | leaf hop count => simp [depths, base]
  | node left right =>
      intro e he
      simp only [depths, base, List.mem_append] at he
      rcases he with he | he
      · exact (depths_bound left 1 e he).1
      · exact (depths_bound right 1 e he).1

/-- Two leaves lie below a node. -/
theorem base_eq_zero {t : HopTree} (h : 2 ≤ t.hops.length) : t.base = 0 := by
  cases t with
  | leaf hop count =>
      simp only [hops, List.length_singleton] at h
      omega
  | node left right => rfl

/-- The code lengths read off a tree: the depths of its hops. -/
def lengths (t : HopTree) : HopMap Nat :=
  (t.depths t.base).foldl (fun lengths e => lengths.set e.1 e.2) (HopMap.const unusedLength)

end HopTree

namespace Histogram

open HopTree CodeTable

theorem mem_used {m : Histogram} {h : Hop} : h ∈ m.used ↔ 0 < m h := by
  simp [used, Hop.mem_all]

theorem used_nodup (m : Histogram) : m.used.Nodup := by
  have hall : Hop.all.Nodup := by decide
  exact hall.filter _

theorem length_used_le (m : Histogram) : m.used.length ≤ 9 :=
  List.length_filter_le _ _

/-- Setting distinct hops one by one gives each its value. -/
theorem get_foldl_set {list : List (Hop × Nat)} (hnodup : (list.map Prod.fst).Nodup)
    (start : HopMap Nat) (h : Hop) :
    (∀ n, (h, n) ∈ list → (list.foldl (fun m e => m.set e.1 e.2) start) h = n) ∧
      (h ∉ list.map Prod.fst → (list.foldl (fun m e => m.set e.1 e.2) start) h = start h) := by
  induction list generalizing start with
  | nil => simp
  | cons e rest ih =>
      simp only [List.map_cons, List.nodup_cons] at hnodup
      obtain ⟨hlisted, hother⟩ := ih hnodup.2 (start.set e.1 e.2)
      simp only [List.foldl_cons, List.map_cons, List.mem_cons, not_or]
      constructor
      · rintro n (rfl | hmem)
        · rw [hother hnodup.1, HopMap.get_set, if_pos rfl]
        · exact hlisted n hmem
      · rintro ⟨hne, hmem⟩
        rw [hother hmem, HopMap.get_set, if_neg (Ne.symm hne)]

/-- Lengths that are depths in a tree take the room of its leaves. -/
theorem kraftSum_eq_depths {tree : HopTree} {lengths : HopMap Nat}
    (hperm : (usedHops lengths).Perm tree.hops)
    (hdepth : ∀ e ∈ tree.depths tree.base, lengths e.1 = e.2) :
    kraftSum lengths = ((tree.depths tree.base).map fun e => share e.2).sum := by
  rw [kraftSum, (hperm.map _).sum_eq, ← map_fst_depths tree tree.base, List.map_map]
  congr 1
  apply List.map_congr_left
  intro e he
  simp only [Function.comp_apply, hdepth e he]

section Lengths

variable {tree : HopTree} (hnodup : tree.hops.Nodup)

include hnodup

theorem lengths_of_mem_depths : ∀ e ∈ tree.depths tree.base, tree.lengths e.1 = e.2 := by
  have hdistinct : ((tree.depths tree.base).map Prod.fst).Nodup := by
    rwa [map_fst_depths]
  exact fun e he => (get_foldl_set hdistinct (HopMap.const unusedLength) e.1).1 e.2 he

theorem lengths_of_not_mem {h : Hop} (hmem : h ∉ tree.hops) : tree.lengths h = unusedLength := by
  rw [← map_fst_depths tree tree.base] at hnodup hmem
  rw [HopTree.lengths, (get_foldl_set hnodup (HopMap.const unusedLength) h).2 hmem]
  exact HopMap.get_const _ h

variable (hshort : tree.hops.length ≤ 9)

omit hnodup in
include hshort in
theorem legalLength_of_mem_depths : ∀ e ∈ tree.depths tree.base, LegalLength e.2 := by
  intro e he
  have hbound := (depths_bound tree tree.base e he).2
  have hbase := tree.base_le_one
  refine ⟨depths_base_pos tree e he, ?_⟩
  unfold maxCodeLength
  omega

include hshort

/-- Just the hops of a tree have a length. -/
theorem mem_hops_iff {h : Hop} : h ∈ tree.hops ↔ tree.lengths h ≠ unusedLength := by
  constructor
  · intro hmem
    rw [← map_fst_depths tree tree.base] at hmem
    obtain ⟨e, he, rfl⟩ := List.mem_map.mp hmem
    have hlegal := (legalLength_of_mem_depths hshort e he).2
    rw [lengths_of_mem_depths hnodup e he]
    unfold maxCodeLength at hlegal
    unfold unusedLength
    omega
  · intro hused
    by_contra hmem
    exact hused (lengths_of_not_mem hnodup hmem)

theorem usedHops_lengths : (usedHops tree.lengths).Perm tree.hops := by
  rw [List.perm_ext_iff_of_nodup (usedHops_nodup tree.lengths) hnodup]
  intro h
  rw [mem_usedHops, mem_hops_iff hnodup hshort]

theorem kraftSum_lengths : kraftSum tree.lengths = share tree.base := by
  have hbase : tree.base + tree.hops.length ≤ maxCodeLength + 1 := by
    have hle := tree.base_le_one
    unfold maxCodeLength
    omega
  rw [kraftSum_eq_depths (usedHops_lengths hnodup hshort) (lengths_of_mem_depths hnodup),
    sum_share_depths tree tree.base hbase]

/-- The lengths read off a tree over distinct hops are feasible. -/
theorem feasible_lengths : Feasible tree.lengths := by
  refine ⟨?_, ?_, ?_⟩
  · intro h hused
    rw [← mem_hops_iff hnodup hshort, ← map_fst_depths tree tree.base] at hused
    obtain ⟨e, he, rfl⟩ := List.mem_map.mp hused
    rw [lengths_of_mem_depths hnodup e he]
    exact legalLength_of_mem_depths hshort e he
  · obtain ⟨h, hmem⟩ := List.exists_mem_of_ne_nil _ tree.hops_ne_nil
    exact ⟨h, (mem_hops_iff hnodup hshort).mp hmem⟩
  · rw [kraftSum_lengths hnodup hshort]
    exact Nat.pow_le_pow_right (by omega) (Nat.sub_le _ _)

end Lengths

/-- A histogram that counts something has a tree over the counted hops, and its code lengths are
the depths in that tree. -/
theorem exists_tree {m : Histogram} (h : ∃ hop, 0 < m hop) :
    ∃ tree, merge? (forest m) = some tree ∧ tree.hops.Perm m.used ∧
      m.codeLengths? = some tree.lengths := by
  have hne : forest m ≠ [] := by
    intro hnil
    obtain ⟨hop, hpos⟩ := h
    have hperm := forest_hops m
    rw [hnil, List.flatMap_nil] at hperm
    have hmem := mem_used.mpr hpos
    rw [← hperm.mem_iff] at hmem
    cases hmem
  obtain ⟨tree, htree, hleaves⟩ := merge?_hops hne
  refine ⟨tree, htree, hleaves.trans (forest_hops m), ?_⟩
  rw [codeLengths?, htree]
  cases tree <;> rfl

/-- Code lengths for a histogram that counts something: feasible, and used for just the counted
hops. -/
theorem exists_codeLengths {m : Histogram} (h : ∃ hop, 0 < m hop) :
    ∃ lengths, m.codeLengths? = some lengths ∧ Feasible lengths ∧
      ∀ hop, 0 < m hop ↔ lengths hop ≠ unusedLength := by
  obtain ⟨tree, -, hperm, hlengths⟩ := exists_tree h
  have hnodup := hperm.nodup_iff.mpr m.used_nodup
  have hshort := hperm.length_eq ▸ m.length_used_le
  refine ⟨tree.lengths, hlengths, feasible_lengths hnodup hshort, fun hop => ?_⟩
  rw [← mem_hops_iff hnodup hshort, hperm.mem_iff, mem_used]

/-- A histogram that counts something has a table, canonical for feasible lengths, with a
codeword for every counted hop. -/
theorem exists_codeTable {m : Histogram} (h : ∃ hop, 0 < m hop) :
    ∃ lengths t, m.codeTable = .ok t ∧ Feasible lengths ∧ canonical lengths m = .ok t ∧
      ∀ hop, 0 < m hop → ∃ c, t.code? hop = some c := by
  obtain ⟨lengths, hlengths, hfeasible, hcover⟩ := exists_codeLengths h
  obtain ⟨-, t, -, -, ht, -⟩ := hfeasible.exists_canonical m
  refine ⟨lengths, t, by rw [codeTable, hlengths]; exact ht, hfeasible, ht, ?_⟩
  intro hop hpos
  obtain ⟨c, hc, -⟩ := (hfeasible.code?_canonical ht hop).2 ((hcover hop).mp hpos)
  exact ⟨c, hc⟩

/-- A table of a histogram is canonical for feasible lengths. -/
theorem feasible_of_codeTable {m : Histogram} {t : CodeTable} (ht : m.codeTable = .ok t) :
    ∃ lengths counts, Feasible lengths ∧ canonical lengths counts = .ok t := by
  unfold codeTable at ht
  split at ht
  · cases ht
  · next lengths _ => exact ⟨lengths, m, feasible_of_canonical ht, ht⟩

end Histogram

end HopCodec

/-
The heap of a merge stands for a forest.  Each of its nodes is the root of one tree, and every leaf
of that tree reaches the root by as many steps through the parents as it lies deep.
-/
import HopCodec.Machine.Counts
import HopCodec.Proofs.Huffman.Tree
import HopCodec.Proofs.Machine.Table

namespace HopCodec

namespace HopTree

theorem depths_succ (t : HopTree) (depth : Nat) :
    t.depths (depth + 1) = (t.depths depth).map fun e => (e.1, e.2 + 1) := by
  induction t generalizing depth with
  | leaf hop count => rfl
  | node left right ihl ihr => rw [depths, ihl, ihr, depths, List.map_append]

end HopTree

namespace Machine

/-- A climb of some steps from one node to another. -/
inductive Climbs (parents : Parents) : (steps node root : Nat) → Prop
  | stay (node : Nat) : Climbs parents 0 node node
  | step {steps node above root : Nat} (hparent : parents[node]? = some (some above))
      (hrest : Climbs parents steps above root) : Climbs parents (steps + 1) node root

def Extends (parents parents' : Parents) : Prop :=
  ∀ node above : Nat, parents[node]? = some (some above) → parents'[node]? = some (some above)

variable {parents parents' : Parents}

theorem Climbs.extend {steps node root : Nat} (h : Climbs parents steps node root)
    (hextends : Extends parents parents') : Climbs parents' steps node root := by
  induction h with
  | stay node => exact .stay node
  | step hparent _ ih => exact .step (hextends _ _ hparent) ih

/-- A climb goes on where the root has found a parent. -/
theorem Climbs.append {steps node root above : Nat} (h : Climbs parents steps node root)
    (hparent : parents[root]? = some (some above)) : Climbs parents (steps + 1) node above := by
  induction h with
  | stay node => exact .step hparent (.stay above)
  | step hfirst _ ih => exact .step hfirst (ih hparent)

/-- A climb to a root counts its steps. -/
theorem climb_eq {steps node root : Nat} (h : Climbs parents steps node root)
    (hroot : parents[root]? = some none) {fuel depth : Nat} (hfuel : steps < fuel)
    (hdepth : depth + steps < 256) : parents.climb fuel node depth = .ok (depth + steps) := by
  induction h generalizing fuel depth with
  | stay node =>
      obtain ⟨fuel, rfl⟩ := Nat.exists_eq_succ_of_ne_zero (Nat.ne_of_gt hfuel)
      rw [Parents.climb, fetch, hroot]
      rfl
  | step hparent _ ih =>
      obtain ⟨fuel, rfl⟩ := Nat.exists_eq_succ_of_ne_zero (Nat.ne_of_gt (Nat.zero_lt_of_lt hfuel))
      rw [Parents.climb, fetch, hparent]
      simp only [ok_bind]
      rw [fit_eq (by omega), ok_bind, ih hroot (by omega) (by omega)]
      congr 1
      omega

/-- A weighted node stands for a tree: it has no parent, and each leaf climbs up to it. -/
structure StandsFor (used : List Hop) (parents : Parents) (e : Nat × Nat) (t : HopTree) : Prop where
  weight_eq : e.1 = t.weight
  root : parents[e.2]? = some none
  climbs : ∀ d ∈ t.depths 0, ∃ leaf, used[leaf]? = some d.1 ∧ Climbs parents d.2 leaf e.2

/-- A heap stands for a forest, tree by tree. -/
def HeapFor (used : List Hop) (parents : Parents) (heap : Heap) (forest : List HopTree) : Prop :=
  List.Forall₂ (StandsFor used parents) heap forest ∧ (heap.map Prod.snd).Nodup

variable {used : List Hop}

theorem insert_perm (e : Nat × Nat) (heap : Heap) : (Heap.insert e heap).Perm (e :: heap) := by
  induction heap with
  | nil => exact .refl _
  | cons f rest ih =>
      unfold Heap.insert
      split
      · exact (ih.cons f).trans (.swap e f rest)
      · exact .refl _

/-- A node younger than all others goes where its tree goes. -/
theorem forall₂_insert {heap : Heap} {forest : List HopTree}
    (h : List.Forall₂ (StandsFor used parents) heap forest) {e : Nat × Nat} {t : HopTree}
    (he : StandsFor used parents e t) (hyoung : ∀ f ∈ heap, f.2 ≤ e.2) :
    List.Forall₂ (StandsFor used parents) (Heap.insert e heap) (HopTree.insert t forest) := by
  induction h with
  | nil => exact .cons he .nil
  | cons hhead htail ih =>
      rename_i f s rest trees
      have hage := hyoung f List.mem_cons_self
      have hrest := ih fun g hg => hyoung g (List.mem_cons_of_mem f hg)
      have horder : (f.1 < e.1 ∨ f.1 = e.1 ∧ f.2 ≤ e.2) ↔ s.weight ≤ t.weight := by
        rw [← hhead.weight_eq, ← he.weight_eq]
        omega
      rw [Heap.insert, HopTree.insert]
      by_cases hle : s.weight ≤ t.weight
      · rw [if_pos hle, if_pos (horder.mpr hle)]
        exact .cons hhead hrest
      · rw [if_neg hle, if_neg fun hbefore => hle (horder.mp hbefore)]
        exact .cons he (.cons hhead htail)

theorem lt_size_of_root {node : Nat} (h : parents[node]? = some none) : node < parents.size := by
  obtain ⟨hlt, -⟩ := Array.getElem?_eq_some_iff.mp h
  exact hlt

def joined (parents : Parents) (a b : Nat) : Parents :=
  ((parents.push none).setIfInBounds a (some parents.size)).setIfInBounds b (some parents.size)

section Joined

variable {a b : Nat}

theorem size_joined : (joined parents a b).size = parents.size + 1 := by
  simp [joined]

theorem getElem?_joined_of_ne {i : Nat} (ha : a ≠ i) (hb : b ≠ i) (hi : i < parents.size) :
    (joined parents a b)[i]? = parents[i]? := by
  rw [joined, Array.getElem?_setIfInBounds_ne hb, Array.getElem?_setIfInBounds_ne ha,
    Array.getElem?_push_lt hi, Array.getElem?_eq_getElem hi]

theorem getElem?_joined_left (ha : a < parents.size) :
    (joined parents a b)[a]? = some (some parents.size) := by
  have hlt : a < (parents.push none).size := by simpa using Nat.lt_succ_of_lt ha
  rw [joined, Array.getElem?_setIfInBounds]
  by_cases heq : b = a
  · simp [heq, Nat.lt_succ_of_lt ha]
  · rw [if_neg heq, Array.getElem?_setIfInBounds, if_pos rfl, if_pos hlt]

theorem getElem?_joined_right (hb : b < parents.size) :
    (joined parents a b)[b]? = some (some parents.size) := by
  rw [joined, Array.getElem?_setIfInBounds, if_pos rfl]
  simp [Nat.lt_succ_of_lt hb]

theorem getElem?_joined_new (ha : a < parents.size) (hb : b < parents.size) :
    (joined parents a b)[parents.size]? = some none := by
  rw [joined, Array.getElem?_setIfInBounds_ne (Nat.ne_of_lt hb),
    Array.getElem?_setIfInBounds_ne (Nat.ne_of_lt ha)]
  simp

theorem extends_joined (ha : parents[a]? = some none) (hb : parents[b]? = some none) :
    Extends parents (joined parents a b) := by
  intro node above hparent
  obtain ⟨hlt, -⟩ := Array.getElem?_eq_some_iff.mp hparent
  have hne : a ≠ node := by
    rintro rfl
    rw [ha] at hparent
    cases hparent
  have hne' : b ≠ node := by
    rintro rfl
    rw [hb] at hparent
    cases hparent
  rw [getElem?_joined_of_ne hne hne' hlt, hparent]

end Joined

/-- The new node stands for both trees together. -/
theorem standsFor_joined {e f : Nat × Nat} {s t : HopTree} (he : StandsFor used parents e s)
    (hf : StandsFor used parents f t) :
    StandsFor used (joined parents e.2 f.2) (e.1 + f.1, parents.size) (.node s t) := by
  have hlt := lt_size_of_root he.root
  have hlt' := lt_size_of_root hf.root
  have hextends := extends_joined he.root hf.root
  refine ⟨by rw [HopTree.weight, he.weight_eq, hf.weight_eq], getElem?_joined_new hlt hlt', ?_⟩
  intro d hd
  rw [HopTree.depths, HopTree.depths_succ, HopTree.depths_succ, List.mem_append] at hd
  rcases hd with hd | hd
  · obtain ⟨c, hc, rfl⟩ := List.mem_map.mp hd
    obtain ⟨leaf, hleaf, hclimbs⟩ := he.climbs c hc
    exact ⟨leaf, hleaf, (hclimbs.extend hextends).append (getElem?_joined_left hlt)⟩
  · obtain ⟨c, hc, rfl⟩ := List.mem_map.mp hd
    obtain ⟨leaf, hleaf, hclimbs⟩ := hf.climbs c hc
    exact ⟨leaf, hleaf, (hclimbs.extend hextends).append (getElem?_joined_right hlt')⟩

/-- Other nodes stand for their trees as before. -/
theorem StandsFor.keep {e f g : Nat × Nat} {t : HopTree} (h : StandsFor used parents g t)
    (he : parents[e.2]? = some none) (hf : parents[f.2]? = some none) (hne : e.2 ≠ g.2)
    (hne' : f.2 ≠ g.2) : StandsFor used (joined parents e.2 f.2) g t := by
  refine ⟨h.weight_eq, ?_, ?_⟩
  · rw [getElem?_joined_of_ne hne hne' (lt_size_of_root h.root), h.root]
  · intro d hd
    obtain ⟨leaf, hleaf, hclimbs⟩ := h.climbs d hd
    exact ⟨leaf, hleaf, hclimbs.extend (extends_joined he hf)⟩

theorem forall₂_keep {e f : Nat × Nat} {rest : Heap} {trees : List HopTree}
    (h : List.Forall₂ (StandsFor used parents) rest trees) (he : parents[e.2]? = some none)
    (hf : parents[f.2]? = some none) (hne : ∀ g ∈ rest, e.2 ≠ g.2) (hne' : ∀ g ∈ rest, f.2 ≠ g.2) :
    List.Forall₂ (StandsFor used (joined parents e.2 f.2)) rest trees ∧
      ∀ g ∈ rest, g.2 < parents.size := by
  induction h with
  | nil => exact ⟨.nil, fun g hg => absurd hg List.not_mem_nil⟩
  | cons hhead htail ih =>
      rename_i g t rest trees
      have hg := hne g List.mem_cons_self
      have hg' := hne' g List.mem_cons_self
      obtain ⟨hstands, hlt⟩ := ih (fun k hk => hne k (List.mem_cons_of_mem g hk))
        (fun k hk => hne' k (List.mem_cons_of_mem g hk))
      refine ⟨.cons (hhead.keep he hf hg hg') hstands, fun k hk => ?_⟩
      rcases List.mem_cons.mp hk with rfl | hk
      · exact lt_size_of_root hhead.root
      · exact hlt k hk

/-- Merging the two lightest nodes keeps the heap standing for the forest. -/
theorem heapFor_joined {a b : Nat × Nat} {rest : Heap} {s t : HopTree} {trees : List HopTree}
    (h : HeapFor used parents (a :: b :: rest) (s :: t :: trees)) :
    HeapFor used (joined parents a.2 b.2)
      (Heap.insert (a.1 + b.1, parents.size) rest) (HopTree.insert (.node s t) trees) := by
  obtain ⟨hstands, hnodup⟩ := h
  rcases hstands with - | ⟨ha, - | ⟨hb, hrest⟩⟩
  simp only [List.map_cons, List.nodup_cons, List.mem_cons, not_or] at hnodup
  obtain ⟨⟨-, hleft⟩, hright, hothers⟩ := hnodup
  have hne : ∀ g ∈ rest, a.2 ≠ g.2 := fun g hg heq =>
    hleft (List.mem_map.mpr ⟨g, hg, heq.symm⟩)
  have hne' : ∀ g ∈ rest, b.2 ≠ g.2 := fun g hg heq =>
    hright (List.mem_map.mpr ⟨g, hg, heq.symm⟩)
  obtain ⟨hkept, hlt⟩ := forall₂_keep hrest ha.root hb.root hne hne'
  constructor
  · exact forall₂_insert hkept (standsFor_joined ha hb) fun g hg => Nat.le_of_lt (hlt g hg)
  · rw [((insert_perm _ rest).map Prod.snd).nodup_iff, List.map_cons, List.nodup_cons]
    refine ⟨fun hmem => ?_, hothers⟩
    obtain ⟨g, hg, heq⟩ := List.mem_map.mp hmem
    exact Nat.ne_of_lt (hlt g hg) heq

/-- Merging the two lightest nodes takes two stores and a sum that a word has room for. -/
theorem merge_cons_cons {fuel : Nat} {a b : Nat × Nat} {rest : Heap}
    (ha : parents[a.2]? = some none) (hb : parents[b.2]? = some none)
    (hsum : a.1 + b.1 < wordSize) :
    Heap.merge parents (fuel + 1) (a :: b :: rest) =
      Heap.merge (joined parents a.2 b.2) fuel
        (Heap.insert (a.1 + b.1, parents.size) rest) := by
  have hlt := lt_size_of_root ha
  have hlt' := lt_size_of_root hb
  rw [Heap.merge, store_eq (by simpa using Nat.lt_succ_of_lt hlt), ok_bind,
    store_eq (by simpa using Nat.lt_succ_of_lt hlt'), ok_bind, add_eq hsum, ok_bind]
  rfl

/-- A new node weighs what the two nodes weigh that are merged into it. -/
theorem sum_weights_insert (a b : Nat × Nat) (node : Nat) (rest : Heap) :
    ((Heap.insert (a.1 + b.1, node) rest).map Prod.fst).sum =
      ((a :: b :: rest).map Prod.fst).sum := by
  rw [((insert_perm (a.1 + b.1, node) rest).map Prod.fst).sum_eq]
  simp [Nat.add_assoc]

/-- A heap is merged into one node, which stands for the merged forest. -/
theorem exists_merge {fuel : Nat} {heap : Heap} {forest : List HopTree}
    (h : HeapFor used parents heap forest) (hne : heap ≠ []) (hfuel : heap.length ≤ fuel + 1)
    (hsum : (heap.map Prod.fst).sum < wordSize) :
    ∃ parents' e tree, Heap.merge parents fuel heap = .ok parents' ∧
      HopTree.merge? forest = some tree ∧ StandsFor used parents' e tree ∧
        parents.size ≤ parents'.size := by
  induction fuel generalizing parents heap forest with
  | zero =>
      obtain ⟨hstands, -⟩ := h
      rcases hstands with - | ⟨he, - | ⟨hf, hrest⟩⟩
      · exact absurd rfl hne
      · exact ⟨parents, _, _, rfl, by rw [HopTree.merge?], he, Nat.le_refl _⟩
      · simp at hfuel
  | succ fuel ih =>
      have hforest := h
      obtain ⟨hstands, -⟩ := h
      rcases hstands with - | ⟨he, - | ⟨hf, hrest⟩⟩
      · exact absurd rfl hne
      · exact ⟨parents, _, _, rfl, by rw [HopTree.merge?], he, Nat.le_refl _⟩
      · rename_i a s b t rest trees
        have hlength := (insert_perm (a.1 + b.1, parents.size) rest).length_eq
        have hweights := sum_weights_insert a b parents.size rest
        have hpair : a.1 + b.1 < wordSize := by
          simp only [List.map_cons, List.sum_cons] at hsum
          omega
        obtain ⟨parents', e, tree, hmerge, htree, hstands', hsize⟩ :=
          ih (heapFor_joined hforest) (List.ne_nil_of_length_eq_add_one hlength)
            (by rw [hlength]; simpa using hfuel) (by rwa [hweights])
        rw [size_joined] at hsize
        refine ⟨parents', e, tree, ?_, ?_, hstands', Nat.le_of_succ_le hsize⟩
        · rwa [merge_cons_cons he.root hf.root hpair]
        · rwa [HopTree.merge?]

/-- Taking in leaves in their order. -/
def plant (m : Histogram) (leaves : List (Hop × Nat)) (heap : Heap) : Heap :=
  leaves.foldl (fun heap e => Heap.insert (m e.1, e.2) heap) heap

theorem heapFor_plant {m : Histogram} {hops : List Hop} {k : Nat} {heap : Heap}
    {forest : List HopTree} (h : HeapFor used parents heap forest) (hyoung : ∀ f ∈ heap, f.2 < k)
    (hused : ∀ i, used[k + i]? = hops[i]?) (hroots : ∀ i, i < used.length →
      parents[i]? = some none) :
    HeapFor used parents (plant m (hops.zipIdx k) heap)
      (hops.foldl (fun trees h => HopTree.insert (.leaf h (m h)) trees) forest) := by
  induction hops generalizing k heap forest with
  | nil => exact h
  | cons hop rest ih =>
      obtain ⟨hstands, hnodup⟩ := h
      have hfirst : used[k]? = some hop := hused 0
      have hlt : k < used.length := (List.getElem?_eq_some_iff.mp hfirst).1
      have hleaf : StandsFor used parents (m hop, k) (.leaf hop (m hop)) := by
        refine ⟨rfl, hroots k hlt, fun d hd => ?_⟩
        obtain rfl := List.mem_singleton.mp hd
        exact ⟨k, hfirst, .stay k⟩
      have hperm := insert_perm (m hop, k) heap
      rw [List.zipIdx_cons, plant, List.foldl_cons, List.foldl_cons]
      refine ih ⟨?_, ?_⟩ ?_ ?_
      · exact forall₂_insert hstands hleaf fun f hf => Nat.le_of_lt (hyoung f hf)
      · rw [(hperm.map Prod.snd).nodup_iff, List.map_cons, List.nodup_cons]
        refine ⟨fun hmem => ?_, hnodup⟩
        obtain ⟨f, hf, heq⟩ := List.mem_map.mp hmem
        exact Nat.ne_of_lt (hyoung f hf) heq
      · intro f hf
        rw [hperm.mem_iff] at hf
        rcases List.mem_cons.mp hf with rfl | hf
        · exact Nat.lt_succ_self k
        · exact Nat.lt_succ_of_lt (hyoung f hf)
      · intro i
        have hnext := hused (i + 1)
        rw [List.getElem?_cons_succ] at hnext
        rw [← hnext]
        congr 1
        omega

theorem plant_perm (m : Histogram) (leaves : List (Hop × Nat)) (heap : Heap) :
    (plant m leaves heap).Perm (leaves.map (fun e => (m e.1, e.2)) ++ heap) := by
  induction leaves generalizing heap with
  | nil => exact .refl _
  | cons e rest ih =>
      rw [plant, List.foldl_cons, List.map_cons]
      refine (ih (Heap.insert (m e.1, e.2) heap)).trans ?_
      exact ((insert_perm _ heap).append_left _).trans List.perm_middle

/-- The leaves of the counted hops stand for the forest of these hops. -/
theorem heapFor_ofUsed (m : Histogram) :
    HeapFor m.used (Array.replicate m.used.length none) (Heap.ofUsed m) (HopTree.forest m) := by
  refine heapFor_plant ⟨.nil, List.nodup_nil⟩ (fun f hf => absurd hf List.not_mem_nil)
    (fun i => by rw [Nat.zero_add]) fun i hi => ?_
  simp [hi]

theorem length_ofUsed (m : Histogram) : (Heap.ofUsed m).length = m.used.length := by
  have hperm := plant_perm m m.used.zipIdx []
  rw [Heap.ofUsed, ← plant, hperm.length_eq]
  simp

theorem sum_ofUsed (m : Histogram) :
    ((Heap.ofUsed m).map Prod.fst).sum = (m.used.map m.get).sum := by
  have hperm := (plant_perm m m.used.zipIdx []).map Prod.fst
  have hfst : m.used.zipIdx.map (fun e => m e.1) = m.used.map m.get := by
    have hnames := congrArg (List.map m.get) (List.zipIdx_map_fst 0 m.used)
    rwa [List.map_map] at hnames
  rw [Heap.ofUsed, ← plant, hperm.sum_eq, List.append_nil, List.map_map]
  exact congrArg List.sum hfst

/-- The leaves of the counted hops are merged into one node, which stands for their tree. -/
theorem exists_merge_ofUsed {m : Histogram} (hused : m.used ≠ [])
    (hsum : (m.used.map m.get).sum < wordSize) :
    ∃ parents e tree,
      Heap.merge (Array.replicate m.used.length none) m.used.length (Heap.ofUsed m) = .ok parents ∧
        HopTree.merge? (HopTree.forest m) = some tree ∧ StandsFor m.used parents e tree ∧
          m.used.length ≤ parents.size := by
  have hheap : Heap.ofUsed m ≠ [] := by
    rwa [← List.length_pos_iff, length_ofUsed, List.length_pos_iff]
  have hfuel : (Heap.ofUsed m).length ≤ m.used.length + 1 := by
    rw [length_ofUsed]
    exact Nat.le_succ _
  have hmerge := exists_merge (heapFor_ofUsed m) hheap hfuel (by rwa [sum_ofUsed])
  rwa [Array.size_replicate] at hmerge

end Machine

end HopCodec

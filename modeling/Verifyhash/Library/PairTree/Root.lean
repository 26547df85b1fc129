import Verifyhash.Library.PairTree.Binding

namespace PairTree

variable {S : Scheme ι α δ} [LinearOrder δ] {is : List ι} {l : List δ}

section

variable (S)

-- The inputs which are hashed to build a tree.
def treeInputs (as : List α) : List ι :=
  let ls := layers S.pair <| as.map S.leaf
  as.map S.leafInput ++ (ls.dropLast.flatMap pairs).map fun (x, y) => S.pairInput x y

end

theorem exists_rooted (hl : l ≠ [])
    (hi : ∀ p ∈ (layers S.pair l).dropLast.flatMap pairs, S.pairInput p.1 p.2 ∈ is) :
    ∃ k x, top (layers S.pair l) = some x ∧ Rooted S is k l x ∧ (k ≠ 0 → 1 < l.length) := by
  fun_induction layers S.pair l
  case case1 l hlen ih =>
    have hn := layers_ne_nil S.pair <| next S.pair l
    rw [List.dropLast_cons_of_ne_nil hn, List.flatMap_cons] at hi
    have hn : next S.pair l ≠ [] := List.ne_nil_of_length_pos <| by simp; omega
    obtain ⟨k, x, hx, h, _⟩ := ih hn fun p hp => hi p <| List.mem_append_right _ hp
    refine ⟨k + 1, x, ?_, h.of_next fun p hp => hi p <| List.mem_append_left _ hp, fun _ => hlen⟩
    rw [←hx, ←layers_of_lt hlen, top_layers_of_lt hlen]
  case case2 l hlen =>
    have := List.length_pos_of_ne_nil hl
    obtain ⟨x, rfl⟩ := List.length_eq_one_iff.mp (show l.length = 1 by omega)
    exact ⟨0, x, rfl, .single, fun h => absurd rfl h⟩

section

variable {as bs : List α}

theorem leaves_map (h : treeInputs S as ⊆ is) : Leaves S is (as.map S.leaf) := by
  intro x hx
  obtain ⟨a, ha, rfl⟩ := List.mem_map.mp hx
  exact ⟨a, h <| List.mem_append_left _ <| List.mem_map_of_mem ha, rfl⟩

theorem exists_root (hn : as ≠ []) (h : treeInputs S as ⊆ is) :
    ∃ k x, top (layers S.pair <| as.map S.leaf) = some x ∧ Rooted S is k (as.map S.leaf) x ∧
      (k ≠ 0 → 1 < (as.map S.leaf).length) :=
  exists_rooted (by simpa using hn) fun (_, _) hp =>
    h <| List.mem_append_right _ <| List.mem_map_of_mem hp

-- A fold which ends in the root starts from one of the leaves.
theorem mem_of_foldl
    (c : CollisionFree S.hash
      (treeInputs S as ++ S.leafInput a :: S.foldInputs (S.leaf a) proof))
    (hn : as ≠ []) (hf : top (layers S.pair <| as.map S.leaf) = some (proof.foldl S.pair (S.leaf a))) :
    a ∈ as := by
  have hi := List.subset_append_left (treeInputs S as) (S.leafInput a :: S.foldInputs (S.leaf a) proof)
  have ⟨_, _, hx, h, _⟩ := exists_root hn hi
  obtain ⟨rfl⟩ := hx.symm.trans hf
  have hm := h.mem_of_foldl c (leaves_map hi) (by simp) (by simp) rfl
  obtain ⟨b, hb, he⟩ := List.mem_map.mp hm
  have hb' := hi <| List.mem_append_left _ <| List.mem_map_of_mem (f := S.leafInput) hb
  exact Scheme.leaf_eq c hb' (by simp) he ▸ hb

omit [LinearOrder δ] in
theorem map_leaf_inj (c : CollisionFree S.hash is) (ha : ∀ a ∈ as, S.leafInput a ∈ is)
    (hb : ∀ b ∈ bs, S.leafInput b ∈ is) (h : as.map S.leaf = bs.map S.leaf) : as = bs := by
  induction as generalizing bs <;> cases bs <;>
    simp only [List.map_nil, List.map_cons, reduceCtorEq] at h
  case nil.nil => rfl
  case cons.cons a as ih b bs =>
    have ⟨ha, has⟩ := List.forall_mem_cons.mp ha
    have ⟨hb, hbs⟩ := List.forall_mem_cons.mp hb
    have ⟨h, ht⟩ := List.cons.inj h
    rw [Scheme.leaf_eq c ha hb h, ih has hbs ht]

omit [LinearOrder δ] in
theorem doubled_of_map (c : CollisionFree S.hash is) (ha : ∀ a ∈ as, S.leafInput a ∈ is)
    (hb : ∀ b ∈ bs, S.leafInput b ∈ is) (h : Doubled (as.map S.leaf) (bs.map S.leaf)) : Doubled as bs := by
  obtain ⟨ho, x, hx, he⟩ := h
  rw [List.getLast?_map, Option.map_eq_some_iff] at hx
  obtain ⟨a, hl, rfl⟩ := hx
  have hm := List.mem_of_getLast? hl
  refine ⟨by simpa using ho, a, hl, map_leaf_inj c hb ?_ (by simpa using he)⟩
  simpa [or_imp, forall_and, ha a hm] using ha

section

variable [LinearOrder α]

theorem count_map_leaf (c : CollisionFree S.hash is) (ha : ∀ a ∈ as, S.leafInput a ∈ is)
    (hc : ∀ a, as.count a ≤ n) (x : δ) : (as.map S.leaf).count x ≤ n := by
  by_cases hx : x ∈ as.map S.leaf
  case pos =>
    obtain ⟨a, hm, rfl⟩ := List.mem_map.mp hx
    refine le_of_eq_of_le ?_ (hc a)
    rw [List.count, List.countP_map, List.count]
    refine List.countP_congr fun b hb => ?_
    simp only [Function.comp_apply, beq_iff_eq]
    exact ⟨Scheme.leaf_eq c (ha b hb) (ha a hm), congrArg _⟩
  case neg => simp [List.count_eq_zero_of_not_mem hx]

-- Which leaf is repeated, in terms of the leaves in any order.
theorem doubled_iff {as' bs' : List α} (hs : as.Pairwise (· ≤ ·)) (hs' : bs.Pairwise (· ≤ ·))
    (hp : as.Perm as') (hp' : bs.Perm bs') :
    Doubled as bs ↔ Odd as'.length ∧ ∃ a ∈ as', (∀ b ∈ as', b ≤ a) ∧ bs'.Perm (a :: as') := by
  rw [Doubled, hp.length_eq]
  refine and_congr_right fun _ => ⟨?_, ?_⟩
  case refine_1 =>
    rintro ⟨a, hl, rfl⟩
    obtain ⟨l, rfl⟩ := List.getLast?_eq_some_iff.mp hl
    have ⟨_, _, hs⟩ := List.pairwise_append.mp hs
    refine ⟨a, hp.mem_iff.mp (by simp), fun b hb => ?_, ?_⟩
    · rcases List.mem_append.mp (hp.mem_iff.mpr hb) with hb | hb
      · exact hs b hb a (by simp)
      · exact le_of_eq <| List.mem_singleton.mp hb
    · exact hp'.symm.trans <| (List.perm_append_singleton ..).trans <| hp.cons a
  case refine_2 =>
    rintro ⟨a, ha, hm, hb⟩
    have ha := hp.mem_iff.mpr ha
    obtain ⟨l, z, rfl⟩ := List.eq_nil_or_concat as |>.resolve_left (List.ne_nil_of_mem ha)
    rw [List.concat_eq_append] at *
    have ⟨_, _, hl⟩ := List.pairwise_append.mp hs
    have hz := hm z <| hp.mem_iff.mp (by simp)
    have hz : z = a := by
      rcases List.mem_append.mp ha with ha | ha
      · exact le_antisymm hz <| hl a ha z (by simp)
      · exact (List.mem_singleton.mp ha).symm
    subst hz
    have hp : bs.Perm (l ++ [z] ++ [z]) :=
      hp'.trans <| hb.trans <| (hp.symm.cons z).trans (List.perm_append_singleton ..).symm
    have hs : (l ++ [z] ++ [z]).Pairwise (· ≤ ·) := by
      refine List.pairwise_append.mpr ⟨hs, by simp, fun b hb y hy => ?_⟩
      rw [List.mem_singleton.mp hy]
      rcases List.mem_append.mp hb with hb | hb
      · exact hl b hb z (by simp)
      · exact le_of_eq <| List.mem_singleton.mp hb
    exact ⟨z, by simp, hp.eq_of_pairwise (fun _ _ _ _ => le_antisymm) hs' hs⟩

-- Ordered trees, in which no leaf occurs more than twice, only have the same root if they have the
-- same leaves, up to a repeated last one.
theorem top_eq_iff (c : CollisionFree S.hash (treeInputs S as ++ treeInputs S bs)) (ha : as ≠ [])
    (hb : bs ≠ []) (hs : as.Pairwise (· ≤ ·)) (hs' : bs.Pairwise (· ≤ ·)) (hc : ∀ a, as.count a ≤ 2)
    (hc' : ∀ b, bs.count b ≤ 2) :
    top (layers S.pair <| as.map S.leaf) = top (layers S.pair <| bs.map S.leaf) ↔
      as = bs ∨ (1 < as.length ∧ Doubled as bs) ∨ (1 < bs.length ∧ Doubled bs as) := by
  let is := treeInputs S as ++ treeInputs S bs
  have hi : treeInputs S as ⊆ is := List.subset_append_left ..
  have hi' : treeInputs S bs ⊆ is := List.subset_append_right ..
  have hm : ∀ a ∈ as, S.leafInput a ∈ is :=
    fun a h => hi <| List.mem_append_left _ <| List.mem_map_of_mem h
  have hm' : ∀ b ∈ bs, S.leafInput b ∈ is :=
    fun b h => hi' <| List.mem_append_left _ <| List.mem_map_of_mem h
  constructor
  case mp =>
    intro ht
    have ⟨k, x, hx, h, hk⟩ := exists_root ha hi
    have ⟨k', x', hx', h', hk'⟩ := exists_root hb hi'
    have hx : x = x' := Option.some.inj <| hx.symm.trans <| ht.trans hx'
    obtain rfl := h.height_eq c (leaves_map hi) (leaves_map hi') h' hx
    let R x y := ∃ a b, S.leafInput a ∈ is ∧ S.leafInput b ∈ is ∧ S.leaf a = x ∧ S.leaf b = y ∧ a ≤ b
    have hr : ∀ x y, R x y → R y x → x = y := by
      rintro _ _ ⟨a, b, ha, hb, rfl, rfl, h₁⟩ ⟨b', a', hb', ha', he, he', h₂⟩
      rw [Scheme.leaf_eq c hb' hb he, Scheme.leaf_eq c ha' ha he'] at h₂
      rw [le_antisymm h₁ h₂]
    have hR (cs : List α) (hm : ∀ a ∈ cs, S.leafInput a ∈ is) (hs : cs.Pairwise (· ≤ ·)) :
        (cs.map S.leaf).Pairwise R :=
      List.pairwise_map.mpr <| hs.imp_of_mem fun ha hb h => ⟨_, _, hm _ ha, hm _ hb, rfl, rfl, h⟩
    rcases h.eq_or_doubled hr c (hR _ hm hs) (hR _ hm' hs') (count_map_leaf c hm hc)
      (count_map_leaf c hm' hc') h' hx with he | hd | hd
    · exact .inl <| map_leaf_inj c hm hm' he
    · have hl := hk <| h.height_ne_zero h' hd
      exact .inr <| .inl ⟨by simpa using hl, doubled_of_map c hm hm' hd⟩
    · have hl := hk' <| h'.height_ne_zero h hd
      exact .inr <| .inr ⟨by simpa using hl, doubled_of_map c hm' hm hd⟩
  case mpr =>
    rintro (rfl | ⟨hl, h⟩ | ⟨hl, h⟩)
    · rfl
    · exact (h.map S.leaf).top_eq (by simpa using hl)
    · exact (h.map S.leaf).top_eq (by simpa using hl) |>.symm

end

end

end PairTree

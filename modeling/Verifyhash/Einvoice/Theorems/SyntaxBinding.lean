import Verifyhash.Einvoice.SyntaxBinding

namespace SyntaxBinding

open Element

section

variable {parents : Parents} {size : ℕ} {el cur : Element}

theorem tag_of_outermost (h : outermost parents (t :: ts) el = some cur) : el.tag = .name t := by
  cases ts <;> simp only [outermost] at h <;> split_ifs at h with ht
  all_goals exact ht

-- A chain matches no element with another tag than its innermost one.
theorem tag_of_branchMatches (h : branchMatches parents size (.path br) el) :
    el.tag = .name (br.tags.getLast br.ne_nil) := by
  have hr : br.tags.reverse = br.tags.getLast br.ne_nil :: br.tags.dropLast.reverse := by
    conv_lhs => rw [←List.dropLast_concat_getLast br.ne_nil, List.reverse_concat]
  rw [branchMatches, hr] at h
  split at h
  case h_1 ho => exact tag_of_outermost ho
  case h_2    => cases h

end

-- The index holds what the walk over the elements `l` collects.
structure Indexes (ix : Index) (l : List Element) : Prop where
  parents   : ix.parents = l.foldl addChildren fun _ => none
  byTag     : ∀ tag, (ix.byTag tag).getD [] = l.filter (·.tag = tag)
  elems     : ix.elems = l
  positions : (l.map Element.id).Nodup → ∀ i el, l[i]? = some el → ix.position el = i

namespace Indexes

variable {ix : Index} {l : List Element}

theorem empty : Indexes .empty [] where
  parents   := rfl
  byTag _   := rfl
  elems     := rfl
  positions := by simp

theorem add (h : Indexes ix l) (el : Element) : Indexes (ix.add l.length el) (l ++ [el]) where
  parents := by rw [List.foldl_append, ←h.parents]; rfl
  byTag tag := by
    by_cases ht : el.tag = tag
    case pos => simp [Index.add, ht, ←h.byTag tag]
    case neg => simp [Index.add, Function.update_of_ne (Ne.symm ht), ht, h.byTag tag]
  elems := by rw [Index.add, h.elems]
  positions := by
    intro hn i x hx
    rw [List.map_append, List.nodup_append] at hn
    obtain ⟨hn, -, hd⟩ := hn
    rcases lt_or_ge i l.length with hi | hi
    · rw [List.getElem?_append_left hi] at hx
      have hx' : x.id ≠ el.id :=
        hd _ (List.mem_map_of_mem <| List.mem_of_getElem? hx) _ (by simp)
      simp only [Index.position, Index.add, Function.update_of_ne hx']
      exact h.positions hn i x hx
    · rw [List.getElem?_append_right hi, List.getElem?_singleton] at hx
      split_ifs at hx with hz
      cases hx
      simp only [Index.position, Index.add, Function.update_self, Option.getD_some]
      omega

-- The loop adds the elements one after another.
theorem foldl (l : List Element) : Indexes (l.zipIdx.foldl (fun ix p => ix.add p.snd p.fst) .empty) l := by
  induction l using List.reverseRecOn
  case nil => exact .empty
  case append_singleton l el ih =>
    rw [List.zipIdx_append, List.foldl_append]
    simpa using ih.add el

end Indexes

theorem indexes_index (root : Element) : Indexes (index root) root.iter :=
  .foldl root.iter

section

variable {l : List Element}

theorem eq_of_id_eq (hn : (l.map Element.id).Nodup) (ha : a ∈ l) (hb : b ∈ l) (h : a.id = b.id) : a = b :=
  List.inj_on_of_nodup_map hn ha hb h

-- The loop over the candidates appends those which match and are not seen yet.
theorem foldl_visit {matching : Element → Bool} (hn : (l.map Element.id).Nodup) (f : Found) :
    let new := l.filter fun el => el.id ∉ f.seen ∧ matching el
    l.foldl (Found.visit matching) f = { out := f.out ++ new, seen := f.seen ∪ (new.map Element.id).toFinset } := by
  intro new
  induction l generalizing f
  case nil => simp [new]
  case cons el l ih =>
    rw [List.map_cons, List.nodup_cons] at hn
    obtain ⟨hel, hn⟩ := hn
    rw [List.foldl_cons, ih hn, Found.visit]
    by_cases hs : el.id ∈ f.seen
    case pos => simp [new, hs]
    case neg =>
      by_cases hm : matching el
      case neg => simp [new, hs, hm]
      case pos =>
        have hne : ∀ x ∈ l, ¬ x.id = el.id := fun x hx h => hel <| h ▸ List.mem_map_of_mem hx
        have hf : (l.filter fun x => x.id ∉ insert el.id f.seen ∧ matching x) =
            l.filter fun x => x.id ∉ f.seen ∧ matching x :=
          List.filter_congr fun x hx => by simp [hne x hx]
        simp only [if_neg hs, if_pos hm, hf, new]
        simp [hs, hm]

-- What is found after some branches, of which `p` says whether one of them matches.
structure Collects (l : List Element) (p : Element → Bool) (f : Found) : Prop where
  mem   : ∀ el, el ∈ f.out ↔ el ∈ l ∧ p el
  seen  : ∀ el ∈ l, el.id ∈ f.seen ↔ p el
  nodup : (f.out.map Element.id).Nodup

theorem Collects.visit {p matching : Element → Bool} {f : Found} (hn : (l.map Element.id).Nodup)
    (h : Collects l p f) {candidates : List Element} (hs : candidates.Sublist l)
    (hc : candidates.filter matching = l.filter matching) :
    Collects l (fun el => p el || matching el) (candidates.foldl (Found.visit matching) f) := by
  have hm : ∀ el, el ∈ candidates ∧ matching el ↔ el ∈ l ∧ matching el := fun el => by
    rw [←List.mem_filter, hc, List.mem_filter]
  have hn' : (candidates.map Element.id).Nodup := hn.sublist <| hs.map _
  have hnew : ∀ el, el ∈ (candidates.filter fun el => el.id ∉ f.seen ∧ matching el) ↔
      el ∈ l ∧ ¬ p el ∧ matching el := fun el => by
    rw [List.mem_filter, decide_eq_true_eq]
    constructor
    case mp =>
      rintro ⟨he, hns, hme⟩
      have he := hm el |>.mp ⟨he, hme⟩ |>.left
      exact ⟨he, mt (h.seen el he).mpr hns, hme⟩
    case mpr =>
      rintro ⟨he, hp, hme⟩
      exact ⟨hm el |>.mpr ⟨he, hme⟩ |>.left, mt (h.seen el he).mp hp, hme⟩
  rw [foldl_visit hn']
  constructor
  case mem =>
    intro el
    rw [List.mem_append, hnew, h.mem]
    grind
  case seen =>
    intro el he
    rw [Finset.mem_union, h.seen el he, List.mem_toFinset, List.mem_map]
    constructor
    case mp =>
      rintro (hp | ⟨x, hx, hid⟩)
      · simp [hp]
      · have ⟨hx, _, hm⟩ := hnew x |>.mp hx
        obtain rfl := eq_of_id_eq hn hx he hid
        simp [hm]
    case mpr =>
      intro hp
      by_cases hp' : p el
      case pos => exact .inl hp'
      case neg => exact .inr ⟨el, hnew el |>.mpr ⟨he, hp', by simpa [hp'] using hp⟩, rfl⟩
  case nodup =>
    rw [List.map_append, List.nodup_append]
    refine ⟨h.nodup, hn'.sublist <| List.filter_sublist.map _, ?_⟩
    intro i ha j hb hij
    obtain ⟨a, hma, hia⟩ := List.mem_map.mp ha
    obtain ⟨b, hmb, hjb⟩ := List.mem_map.mp hb
    obtain ⟨hla, hp⟩ := h.mem a |>.mp hma
    obtain ⟨hlb, hp', -⟩ := hnew b |>.mp hmb
    obtain rfl := eq_of_id_eq hn hla hlb <| hia.trans <| hij.trans hjb.symm
    exact hp' hp

end

section

variable {ix : Index} {l : List Element} (hi : Indexes ix l) (hn : (l.map Element.id).Nodup)

include hi

theorem candidates_sublist (br : Branch) : (ix.candidates br).Sublist l := by
  cases br
  case suffix => exact hi.elems ▸ .refl _
  case path br =>
    rw [Index.candidates, hi.byTag]
    exact List.filter_sublist

-- No match is missing among the candidates.
theorem filter_candidates {parents : Parents} {size : ℕ} (br : Branch) :
    (ix.candidates br).filter (branchMatches parents size br) = l.filter (branchMatches parents size br) := by
  cases br
  case suffix => rw [Index.candidates, hi.elems]
  case path br =>
    rw [Index.candidates, hi.byTag, List.filter_filter]
    refine List.filter_congr fun el _ => ?_
    cases hm : branchMatches parents size (.path br) el
    case false => rfl
    case true => simp [tag_of_branchMatches hm]

include hn

theorem collects_branches (branches : List Branch) :
    Collects l (fun el => branches.any fun br => branchMatches ix.parents ix.elems.length br el)
      (branches.foldl ix.search { out := [], seen := ∅ }) := by
  induction branches using List.reverseRecOn
  case nil => constructor <;> simp
  case append_singleton branches br ih =>
    rw [List.foldl_append]
    let matching := branchMatches ix.parents ix.elems.length br
    have hc : (ix.candidates br).filter matching = l.filter matching := filter_candidates hi br
    simpa [List.any_append, Index.search, matching] using ih.visit hn (candidates_sublist hi br) hc

theorem position_pairwise : l.Pairwise fun a b => ix.position a ≤ ix.position b := by
  rw [List.pairwise_iff_getElem]
  intro i j hi' hj hij
  rw [hi.positions hn i _ (List.getElem?_eq_getElem hi'), hi.positions hn j _ (List.getElem?_eq_getElem hj)]
  exact hij.le

theorem eq_of_position_eq (ha : a ∈ l) (hb : b ∈ l) (h : ix.position a = ix.position b) : a = b := by
  obtain ⟨i, ha⟩ := List.mem_iff_getElem?.mp ha
  obtain ⟨j, hb⟩ := List.mem_iff_getElem?.mp hb
  rw [hi.positions hn i a ha, hi.positions hn j b hb] at h
  subst h
  exact Option.some.inj <| ha.symm.trans hb

-- The matches are found in the order of the document, whatever the order of the branches is.
theorem matchContextIndexed_eq_filter (ctx : Context) : matchContextIndexed ctx ix =
    l.filter fun el => ctx.branches.any fun br => branchMatches ix.parents ix.elems.length br el := by
  have h := collects_branches hi hn ctx.branches
  rw [matchContextIndexed]
  split_ifs with hl
  case pos =>
    let r a b := ix.position a ≤ ix.position b
    have : Std.Total r := ⟨fun _ _ => Nat.le_total ..⟩
    have : IsTrans Element r := ⟨fun _ _ _ => Nat.le_trans⟩
    have hp := List.perm_insertionSort r (ctx.branches.foldl ix.search { out := [], seen := ∅ }).out
    have hs := List.pairwise_insertionSort r (ctx.branches.foldl ix.search { out := [], seen := ∅ }).out
    refine List.Perm.eq_of_pairwise ?_ hs ((position_pairwise hi hn).filter _) <| hp.trans ?_
    case refine_1 =>
      intro a b ha hb hab hba
      have ha := h.mem a |>.mp <| hp.mem_iff.mp ha
      exact eq_of_position_eq hi hn ha.left (List.mem_of_mem_filter hb) <| le_antisymm hab hba
    case refine_2 =>
      refine List.perm_ext_iff_of_nodup h.nodup.of_map (hn.of_map.filter _) |>.mpr fun el => ?_
      rw [h.mem, List.mem_filter]
  case neg =>
    match hb : ctx.branches with
    | []            => simp
    | [br]          =>
      have hn' : ((ix.candidates br).map Element.id).Nodup := hn.sublist <| (candidates_sublist hi br).map _
      simp [Index.search, foldl_visit hn', filter_candidates hi br]
    | _ :: _ :: _   => simp [hb] at hl

end

section

variable (doc : Document)

theorem matchContextIndexed_eq_match (ctx : Context) : matchContextIndexed ctx (index doc.root) =
    ctx.match doc.root.parents doc.root.iter.length doc.root := by
  have hi := indexes_index doc.root
  rw [matchContextIndexed_eq_filter hi doc.nodup, hi.parents, hi.elems]
  rfl

-- The nodes of a context are those which are in the memo, if there are any.
theorem findings_foldl (ctxs : ℕ → Context) (ix : Index) (root : Element) (entries : List Entry) (s : Progress)
    (hm : ∀ ctx nodes, s.memo ctx = some nodes → nodes = matchContextIndexed (ctxs ctx) ix) :
    (entries.foldl (evaluateEntry ctxs ix root) s).findings =
      s.findings ++ entries.flatMap fun entry => (matchContextIndexed (ctxs entry.ctx) ix).filterMap
        (finding? ix.parents ix.elems.length root entry) := by
  induction entries generalizing s
  case nil => simp
  case cons entry entries ih =>
    have hnodes : (s.memo entry.ctx).getD (matchContextIndexed (ctxs entry.ctx) ix) =
        matchContextIndexed (ctxs entry.ctx) ix := by
      cases hk : s.memo entry.ctx
      case none       => rfl
      case some nodes => exact hm _ _ hk
    rw [List.foldl_cons, ih]
    · simp [evaluateEntry, hnodes]
    · intro ctx nodes hk
      rw [evaluateEntry, hnodes] at hk
      by_cases hc : ctx = entry.ctx
      case pos => simpa [hc] using hk.symm
      case neg => exact hm _ _ <| by simpa [hc] using hk

-- The index changes neither what a context matches nor what is found.
theorem indexed_eq_walk (ctxs : ℕ → Context) :
    (∀ ctx : Context,
      matchContextIndexed ctx (index doc.root) = ctx.match doc.root.parents doc.root.iter.length doc.root ∧
      (matchContextIndexed ctx (index doc.root)).Sublist doc.root.iter ∧
      ((matchContextIndexed ctx (index doc.root)).map Element.id).Nodup) ∧
    ∀ entries, evaluateEntries ctxs doc.root entries = evaluateOnMatches ctxs doc.root entries := by
  refine ⟨fun ctx => ?_, fun entries => ?_⟩
  case refine_1 =>
    have hs : (matchContextIndexed ctx (index doc.root)).Sublist doc.root.iter := by
      rw [matchContextIndexed_eq_match]
      exact List.filter_sublist
    exact ⟨matchContextIndexed_eq_match doc ctx, hs, doc.nodup.sublist <| hs.map _⟩
  case refine_2 =>
    have hi := indexes_index doc.root
    rw [evaluateEntries]
    split_ifs with he
    case pos => rw [List.isEmpty_iff.mp he]; rfl
    case neg =>
      have hp : (index doc.root).parents = doc.root.parents := hi.parents
      rw [findings_foldl ctxs (index doc.root) doc.root entries { memo := fun _ => none, findings := [] } (by simp)]
      simp only [matchContextIndexed_eq_match, List.nil_append, evaluateOnMatches, hp, hi.elems]

end

end SyntaxBinding

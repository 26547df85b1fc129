import Verifyhash.Trust.Theorems.Order
import Verifyhash.Trustledger.Theorems.Match

-- The result of the matcher does not depend on the order of the lists.
namespace Matcher

open Reconcile Fallible

-- The same line under another index.
def reindex (f : ℕ → ℕ) (w : Wrapped) : Wrapped :=
  { w with idx := f w.idx }

-- The same result of a pick, with the picked lines under other indices.
def relabel (f : ℕ → ℕ) (p : List Wrapped × Matched) : List Wrapped × Matched :=
  (p.fst.map (reindex f), p.snd)

section

variable (toLowerCase : JsString → JsString)

-- Other indices break the ties between lines with the same key alike.
structure Agrees (f : ℕ → ℕ) (ws : List Wrapped) : Prop where
  inj  : ∀ w ∈ ws, ∀ v ∈ ws, f w.idx = f v.idx → w.idx = v.idx
  mono : ∀ w ∈ ws, ∀ v ∈ ws, sortKey toLowerCase w = sortKey toLowerCase v → (f w.idx ≤ f v.idx ↔ w.idx ≤ v.idx)

end

variable {toLowerCase : JsString → JsString} {f g : ℕ → ℕ} {ws vs ps xs ys cands A B : List Wrapped} {w v x a b : Wrapped}
  {chosen : Option Wrapped} {pass : Pass} {cfg : Config}

local instance : LinearOrder JsString := TrustAsOf.instLinearOrderJsString

-- The order of `cmpKey`: the key, and then the index.
def rank (toLowerCase : JsString → JsString) (w : Wrapped) : List JsString ×ₗ ℕ :=
  toLex (sortKey toLowerCase w, w.idx)

theorem cmpKey_iff : cmpKey toLowerCase a b ↔ rank toLowerCase a ≤ rank toLowerCase b := by
  rw [cmpKey, rank, rank, Prod.Lex.toLex_le_toLex]
  dsimp only
  rcases lt_trichotomy (sortKey toLowerCase a) (sortKey toLowerCase b) with h | h | h
  · simp [h]
  · simp [h]
  · simp [h, h.not_gt, h.ne']

theorem cmpKey_reindex (hf : Agrees toLowerCase f ws) (ha : a ∈ ws) (hb : b ∈ ws) :
    cmpKey toLowerCase (reindex f a) (reindex f b) = cmpKey toLowerCase a b := by
  rw [Bool.eq_iff_iff, cmpKey_iff, cmpKey_iff, rank, rank, rank, rank, Prod.Lex.toLex_le_toLex, Prod.Lex.toLex_le_toLex]
  exact or_congr_right <| and_congr_right fun h => hf.mono a ha b hb h

theorem Agrees.subset (hf : Agrees toLowerCase f ws) (h : ps ⊆ ws) : Agrees toLowerCase f ps :=
  ⟨fun w hw v hv => hf.inj w (h hw) v (h hv), fun w hw v hv => hf.mono w (h hw) v (h hv)⟩

-- What a pass leaves as it is.
def line (w : Wrapped) : ℕ × Record :=
  (w.idx, w.record)

theorem Agrees.of_line (hf : Agrees toLowerCase f ws) (h : vs.map line = ws.map line) : Agrees toLowerCase f vs := by
  have hm {w} (hw : w ∈ vs) : ∃ v ∈ ws, w.idx = v.idx ∧ w.record = v.record := by
    obtain ⟨v, hv, he⟩ := List.mem_map.mp <| h ▸ List.mem_map_of_mem hw
    exact ⟨v, hv, (congrArg Prod.fst he).symm, (congrArg Prod.snd he).symm⟩
  constructor <;> intro w hw v hv <;> obtain ⟨w', hw', hi, hr⟩ := hm hw <;> obtain ⟨v', hv', hi', hr'⟩ := hm hv
  case inj =>
    rw [hi, hi']
    exact hf.inj w' hw' v' hv'
  case mono =>
    rw [sortKey, sortKey, hi, hi', hr, hr']
    exact hf.mono w' hw' v' hv'

theorem line_use : (use ps ws).map line = ws.map line := by
  rw [use, List.map_map]
  refine List.map_congr_left fun w _ => ?_
  rw [Function.comp_apply]
  split_ifs <;> rfl

theorem use_reindex (hf : Agrees toLowerCase f ws) (hs : ps ⊆ ws) :
    use (ps.map (reindex f)) (ws.map (reindex f)) = (use ps ws).map (reindex f) := by
  have h {w} (hw : w ∈ ws) : (reindex f w).idx ∈ (ps.map (reindex f)).map (·.idx) ↔ w.idx ∈ ps.map (·.idx) := by
    rw [List.map_map, List.mem_map, List.mem_map]
    constructor
    case mp =>
      rintro ⟨p, hp, he⟩
      exact ⟨p, hp, hf.inj p (hs hp) w hw he⟩
    case mpr =>
      rintro ⟨p, hp, he⟩
      exact ⟨p, hp, congrArg f he⟩
  rw [use, List.map_map, use, List.map_map (l := ws)]
  refine List.map_congr_left fun w hw => ?_
  rw [Function.comp_apply, Function.comp_apply]
  by_cases hm : w.idx ∈ ps.map (·.idx)
  · rw [if_pos hm, if_pos <| (h hw).mpr hm]
    rfl
  · rw [if_neg hm, if_neg <| mt (h hw).mp hm]

theorem closer_reindex (hf : Agrees toLowerCase f ws) (hr : x.record = a.record) (hb : b ∈ ws) (hc : ∀ c ∈ chosen, c ∈ ws) :
    closer toLowerCase pass x (chosen.map (reindex f)) (reindex f b) =
      (closer toLowerCase pass a chosen b).map (reindex f) := by
  rw [closer.eq_def, closer.eq_def]
  have hw : pass.inWindow x (reindex f b) = pass.inWindow a b := by rw [Pass.inWindow, hr, Pass.inWindow, reindex]
  have hu : (reindex f b).used = b.used := rfl
  rw [hw, hu]
  by_cases h : b.used ∨ ¬ pass.inWindow a b
  case pos => rw [if_pos h, if_pos h]
  case neg =>
    rw [if_neg h, if_neg h]
    cases chosen
    case none => rfl
    case some c =>
      have hk := cmpKey_reindex hf (hc c rfl) hb
      have hd (v : Wrapped) : dayDiff x.record.date (reindex f v).record.date = dayDiff a.record.date v.record.date := by
        rw [hr, reindex]
      simp only [Option.map_some, hk, hd]
      split_ifs <;> rfl

theorem scan_reindex (hf : Agrees toLowerCase f ws) (hr : x.record = a.record) (hs : cands ⊆ ws) :
    scan toLowerCase pass x (cands.map (reindex f)) = (scan toLowerCase pass a cands).map (reindex f) := by
  have h {chosen} (hc : ∀ c ∈ chosen, c ∈ ws) :
      (cands.map (reindex f)).foldl (closer toLowerCase pass x) (chosen.map (reindex f)) =
        (cands.foldl (closer toLowerCase pass a) chosen).map (reindex f) := by
    induction cands generalizing chosen
    case nil => rfl
    case cons b cands ih =>
      have hb : b ∈ ws := hs List.mem_cons_self
      rw [List.map_cons, List.foldl_cons, List.foldl_cons, closer_reindex hf hr hb hc]
      refine ih (fun c hm => hs <| List.mem_cons_of_mem b hm) fun c hm => ?_
      rcases closer_eq toLowerCase pass a chosen b with ⟨he, -⟩ | ⟨he, -⟩ <;> rw [he] at hm
      · exact Option.mem_some.mp hm ▸ hb
      · exact hc c hm
  exact h fun c hm => absurd hm <| Option.not_mem_none c

theorem filter_reindex {p q : Wrapped → Bool} (h : ∀ w, p (reindex f w) = q w) :
    (ws.map (reindex f)).filter p = (ws.filter q).map (reindex f) := by
  rw [List.filter_map]
  exact congrArg _ <| List.filter_congr fun w _ => h w

theorem unused_reindex : unused (ws.map (reindex f)) = (unused ws).map (reindex f) :=
  filter_reindex fun _ => rfl

theorem choose_reindex (pass : Pass) (hf : Agrees toLowerCase f ws) (hr : x.record = a.record) :
    choose toLowerCase pass x (ws.map (reindex f)) = (choose toLowerCase pass a ws).map (relabel f) := by
  have hfilter (n : ℤ) : (ws.map (reindex f)).filter (·.record.amount = n) = (ws.filter (·.record.amount = n)).map (reindex f) :=
    filter_reindex fun _ => rfl
  have hkey : sortKey toLowerCase x = sortKey toLowerCase a := by rw [sortKey, hr, sortKey]
  have hp (b : Wrapped) (kind : Kind) : pairing toLowerCase x (reindex f b) kind = relabel f (pairing toLowerCase a b kind) := by
    rw [pairing, pairing, hr, hkey, relabel, List.map_singleton]
    rfl
  rw [choose, choose, hr, hfilter, hfilter, scan_reindex hf hr (List.filter_subset_self _),
    scan_reindex hf hr (List.filter_subset_self _)]
  cases scan toLowerCase pass a (ws.filter (·.record.amount = a.record.amount))
  case some b => exact congrArg some <| hp b pass.kind
  case none =>
    dsimp only [Option.map_none]
    split_ifs
    · rw [Option.map_map, Option.map_map]
      exact congrArg (Option.map · _) <| funext fun b => hp b .nsfReversal
    · rfl

theorem recurse_reindex {target : ℤ} {remaining : ℕ} {sum : ℤ} :
    recurse target remaining sum (ws.map (reindex f)) = (recurse target remaining sum ws).map (List.map (reindex f)) := by
  induction ws generalizing remaining sum
  case nil =>
    cases remaining
    case zero =>
      rw [List.map_nil, recurse]
      split_ifs <;> rfl
    case succ => rfl
  case cons w ws ih =>
    cases remaining
    case zero =>
      rw [List.map_cons, recurse, recurse]
      split_ifs <;> rfl
    case succ remaining =>
      have hw : (reindex f w).record = w.record := rfl
      rw [List.map_cons, recurse, recurse, hw, ih, ih]
      split_ifs
      case pos => rfl
      case neg =>
        cases recurse target remaining (sum + w.record.amount) ws
        case none => rfl
        case some => rfl

theorem findSubsetSum_reindex {target : ℤ} {maxParts : ℕ} :
    findSubsetSum (ws.map (reindex f)) target maxParts = (findSubsetSum ws target maxParts).map (List.map (reindex f)) := by
  rw [findSubsetSum, findSubsetSum, List.length_map]
  induction List.range' 2 (min maxParts ws.length - 1)
  case nil => rfl
  case cons size sizes ih =>
    rw [List.findSome?_cons, List.findSome?_cons, recurse_reindex, ih]
    cases recurse target size 0 ws <;> rfl

theorem sorted_reindex (hf : Agrees toLowerCase f ws) :
    Matcher.sorted toLowerCase (ws.map (reindex f)) = (Matcher.sorted toLowerCase ws).map (reindex f) := by
  refine (List.map_insertionSort _ _ _ _ fun a ha b hb => ?_).symm
  rw [cmpKey_reindex hf ha hb]

theorem combine_reindex (cfg : Config) (flag : Bool) (hf : Agrees toLowerCase f ws) (hr : x.record = a.record) :
    combine toLowerCase cfg flag x (ws.map (reindex f)) = (combine toLowerCase cfg flag a ws).map (relabel f) := by
  have hfilter : (ws.map (reindex f)).filter (eligible cfg x) = (ws.filter (eligible cfg a)).map (reindex f) :=
    filter_reindex fun w => by
      rw [eligible, hr, eligible]
      rfl
  have hkey : sortKey toLowerCase x = sortKey toLowerCase a := by rw [sortKey, hr, sortKey]
  have hsplit (combo : List Wrapped) : splitOf toLowerCase flag x (combo.map (reindex f)) = splitOf toLowerCase flag a combo := by
    rw [splitOf, splitOf, hr, hkey, List.map_map, List.map_map]
    rfl
  rw [combine, combine, hr, hfilter, sorted_reindex <| hf.subset <| List.filter_subset_self _]
  dsimp only
  rw [List.length_map, findSubsetSum_reindex]
  split_ifs
  · rfl
  · rfl
  · rw [Option.map_map, Option.map_map]
    refine congrArg (Option.map · _) <| funext fun combo => ?_
    rw [Function.comp_apply, hsplit]
    rfl

def Swept.reindex (g f : ℕ → ℕ) (s : Swept) : Swept where
  xs      := s.xs.map (Matcher.reindex g)
  ys      := s.ys.map (Matcher.reindex f)
  matched := s.matched

theorem sweep_reindex {pick : Wrapped → List Wrapped → Option (List Wrapped × Matched)}
    (hp : ∀ {x ys}, Agrees toLowerCase f ys → pick (reindex g x) (ys.map (reindex f)) = (pick x ys).map (relabel f))
    (hs : ∀ {x ys ps m}, pick x ys = some (ps, m) → ps ⊆ ys) (hg : Agrees toLowerCase g xs) (hf : Agrees toLowerCase f ys) :
    sweep pick (xs.map (reindex g)) (ys.map (reindex f)) = (sweep pick xs ys).reindex g f ∧
      Agrees toLowerCase g (sweep pick xs ys).xs ∧ Agrees toLowerCase f (sweep pick xs ys).ys := by
  suffices h : sweep pick (xs.map (reindex g)) (ys.map (reindex f)) = (sweep pick xs ys).reindex g f ∧
      (sweep pick xs ys).xs.map line = xs.map line ∧ (sweep pick xs ys).ys.map line = ys.map line from
    ⟨h.left, hg.of_line h.right.left, hf.of_line h.right.right⟩
  clear hg
  induction xs generalizing ys
  case nil => exact ⟨rfl, rfl, rfl⟩
  case cons x xs ih =>
    have hmap : (if (reindex g x).used then none else pick (reindex g x) (ys.map (reindex f))) =
        (if x.used then none else pick x ys).map (relabel f) := by
      rw [hp hf, reindex]
      split_ifs <;> rfl
    rw [List.map_cons, sweep, sweep, hmap]
    cases h : if x.used then none else pick x ys
    case none =>
      obtain ⟨he, hx, hy⟩ := ih hf
      dsimp only [Option.map_none]
      refine ⟨?_, ?_, hy⟩
      · rw [he]
        rfl
      · rw [List.map_cons, List.map_cons, hx]
    case some p =>
      obtain ⟨ps, m⟩ := p
      have hsub : ps ⊆ ys := by
        split_ifs at h
        exact hs h
      obtain ⟨he, hx, hy⟩ := ih <| hf.of_line line_use
      dsimp only [Option.map_some, relabel]
      refine ⟨?_, ?_, hy.trans line_use⟩
      · rw [use_reindex hf hsub, he]
        rfl
      · rw [List.map_cons, List.map_cons, hx]
        rfl

theorem choose_subset {m : Matched} (h : choose toLowerCase pass x ys = some (ps, m)) : ps ⊆ ys := by
  obtain ⟨b, hb, -, ⟨-, h⟩ | ⟨-, -, h⟩⟩ := choose_eq_some h <;> obtain ⟨rfl, -⟩ := Prod.mk.inj h <;>
    exact List.cons_subset.mpr ⟨(mem_unused.mp hb).left, List.nil_subset _⟩

theorem combine_subset {flag : Bool} {m : Matched} (h : combine toLowerCase cfg flag x ys = some (ps, m)) : ps ⊆ ys :=
  List.Subset.trans (combine_eq_some h).left.subset unused_sublist.subset

theorem passes_reindex (hf : Agrees toLowerCase f A) (hg : Agrees toLowerCase g B) :
    passes toLowerCase cfg (A.map (reindex f)) (B.map (reindex g)) = passes toLowerCase cfg A B := by
  obtain ⟨h₁, hf₁, hg₁⟩ := sweep_reindex (choose_reindex ⟨0, .exact, true⟩ · rfl) choose_subset hf hg
  obtain ⟨h₂, hf₂, hg₂⟩ :=
    sweep_reindex (choose_reindex ⟨cfg.dateToleranceDays, .amountWindow, false⟩ · rfl) choose_subset hf₁ hg₁
  obtain ⟨h₃, hf₃, hg₃⟩ := sweep_reindex (combine_reindex cfg true · rfl) combine_subset hf₂ hg₂
  obtain ⟨h₄, hg₄, hf₄⟩ := sweep_reindex (combine_reindex cfg false · rfl) combine_subset hg₃ hf₃
  have hend {h ws} (hh : Agrees toLowerCase h ws) : (Matcher.sorted toLowerCase <| unused <| ws.map (reindex h)).map (·.record) =
      (Matcher.sorted toLowerCase <| unused ws).map (·.record) := by
    rw [unused_reindex, sorted_reindex <| hh.subset unused_sublist.subset, List.map_map]
    rfl
  rw [passes, passes]
  simp only [pairOneToOne, pairSplits, h₁, Swept.reindex, h₂, h₃, h₄, hend hf₄, hend hg₄]

section

variable (toLowerCase : JsString → JsString)

-- Lines with the same key are the same record.
def KeysDetermine (list : List Record) : Prop :=
  ∀ r ∈ list, ∀ r' ∈ list, sortKey toLowerCase ⟨0, r, false⟩ = sortKey toLowerCase ⟨0, r', false⟩ → r = r'

theorem pairwise_sorted (ws : List Wrapped) :
    (Matcher.sorted toLowerCase ws).Pairwise fun a b => rank toLowerCase a ≤ rank toLowerCase b := by
  have ht : Std.Total fun a b => (cmpKey toLowerCase a b : Prop) := ⟨fun a b => by
    rw [cmpKey_iff, cmpKey_iff]
    exact le_total _ _⟩
  have htrans : IsTrans Wrapped fun a b => (cmpKey toLowerCase a b : Prop) := ⟨fun a b c => by
    rw [cmpKey_iff, cmpKey_iff, cmpKey_iff]
    exact le_trans⟩
  exact (List.pairwise_insertionSort _ ws).imp cmpKey_iff.mp

variable {toLowerCase} {i j : ℕ}

theorem eq_of_idx_eq (hn : (ws.map (·.idx)).Nodup) (hi : i < ws.length) (hj : j < ws.length) (h : ws[i].idx = ws[j].idx) : i = j :=
  (@List.Nodup.getElem_inj_iff _ _ hn i (by rwa [List.length_map]) j (by rwa [List.length_map])).mp <| by
    rwa [List.getElem_map, List.getElem_map]

-- Lines with the same key are sorted by their indices.
theorem idx_le_iff (hs : ws.Pairwise fun a b => rank toLowerCase a ≤ rank toLowerCase b)
    (hn : (ws.map (·.idx)).Nodup) (hi : i < ws.length) (hj : j < ws.length)
    (hk : sortKey toLowerCase ws[i] = sortKey toLowerCase ws[j]) : ws[i].idx ≤ ws[j].idx ↔ i ≤ j := by
  have hlt {i j} (hi : i < ws.length) (hj : j < ws.length) (hk : sortKey toLowerCase ws[i] = sortKey toLowerCase ws[j])
      (h : i < j) : ws[i].idx < ws[j].idx := by
    have hle := List.pairwise_iff_getElem.mp hs i j hi hj h
    rw [rank, rank, hk, Prod.Lex.toLex_le_toLex] at hle
    exact (hle.resolve_left <| lt_irrefl _).right.lt_of_ne fun he => h.ne <| eq_of_idx_eq hn hi hj he
  rcases lt_trichotomy i j with h | rfl | h
  · exact iff_of_true (hlt hi hj hk h).le h.le
  · exact iff_of_true le_rfl le_rfl
  · exact iff_of_false (hlt hj hi hk.symm h).not_ge h.not_ge

-- Two orders of the same records are sorted to the same records.
theorem records_sorted {list : List Record} (hk : KeysDetermine toLowerCase list) (hA : (A.map (·.record)).Perm list)
    (hB : (B.map (·.record)).Perm list) :
    (Matcher.sorted toLowerCase A).map (·.record) = (Matcher.sorted toLowerCase B).map (·.record) := by
  have hle {ws} : ((Matcher.sorted toLowerCase ws).map (·.record)).Pairwise fun r r' =>
      sortKey toLowerCase ⟨0, r, false⟩ ≤ sortKey toLowerCase ⟨0, r', false⟩ := by
    refine List.pairwise_map.mpr <| (pairwise_sorted toLowerCase ws).imp fun h => ?_
    rw [rank, rank, Prod.Lex.toLex_le_toLex] at h
    exact h.elim le_of_lt fun h => h.left.le
  have hA' := ((perm_sortedLines toLowerCase A).map (·.record)).trans hA
  have hB' := ((perm_sortedLines toLowerCase B).map (·.record)).trans hB
  refine List.Perm.eq_of_pairwise (fun r r' hr hr' h h' => ?_) hle hle <| hA'.trans hB'.symm
  exact hk r (hA'.mem_iff.mp hr) r' (hB'.mem_iff.mp hr') <| le_antisymm h h'

theorem exists_reindex (hr : A.map (·.record) = B.map (·.record)) (hu : unused A = A) (hu' : unused B = B)
    (hn : (A.map (·.idx)).Nodup) (hn' : (B.map (·.idx)).Nodup)
    (hs : A.Pairwise fun a b => rank toLowerCase a ≤ rank toLowerCase b)
    (hs' : B.Pairwise fun a b => rank toLowerCase a ≤ rank toLowerCase b) :
    ∃ f, Agrees toLowerCase f A ∧ B = A.map (reindex f) := by
  have hlen : A.length = B.length := by simpa using congrArg List.length hr
  have hrec {n} (h : n < A.length) (h' : n < B.length) : A[n].record = B[n].record := by
    have := List.getElem_of_eq hr (i := n) (by rwa [List.length_map])
    rwa [List.getElem_map, List.getElem_map] at this
  -- the index of the line at the same place
  let f (k : ℕ) : ℕ := (B.map (·.idx)).getD ((A.map (·.idx)).idxOf k) 0
  have hf {n} (h : n < A.length) (h' : n < B.length) : f A[n].idx = B[n].idx := by
    have hi : (A.map (·.idx)).idxOf A[n].idx = n := by
      have := hn.idxOf_getElem n (by rwa [List.length_map])
      rwa [List.getElem_map] at this
    rw [show f A[n].idx = (B.map (·.idx)).getD ((A.map (·.idx)).idxOf A[n].idx) 0 from rfl, hi,
      List.getD_eq_getElem _ _ (by rwa [List.length_map]), List.getElem_map]
  have hkey {n} (h : n < A.length) (h' : n < B.length) : sortKey toLowerCase B[n] = sortKey toLowerCase A[n] := by
    rw [sortKey, ←hrec h h', sortKey]
  refine ⟨f, ⟨fun w hw v hv he => ?_, fun w hw v hv he => ?_⟩, ?_⟩
  case refine_1 =>
    obtain ⟨i, hi, rfl⟩ := List.getElem_of_mem hw
    obtain ⟨j, hj, rfl⟩ := List.getElem_of_mem hv
    rw [hf hi (hlen ▸ hi), hf hj (hlen ▸ hj)] at he
    obtain rfl := eq_of_idx_eq hn' _ _ he
    rfl
  case refine_2 =>
    obtain ⟨i, hi, rfl⟩ := List.getElem_of_mem hw
    obtain ⟨j, hj, rfl⟩ := List.getElem_of_mem hv
    rw [hf hi (hlen ▸ hi), hf hj (hlen ▸ hj), idx_le_iff hs hn hi hj he]
    refine idx_le_iff hs' hn' _ _ ?_
    rw [hkey hi, hkey hj, he]
  case refine_3 =>
    refine List.ext_getElem (by rw [List.length_map, hlen]) fun n h' h => ?_
    rw [List.length_map] at h
    have hused {ws} (hu : unused ws = ws) (h : n < ws.length) : ws[n].used = false :=
      eq_false_of_ne_true (mem_unused.mp <| (congrArg (ws[n] ∈ ·) hu).mpr <| List.getElem_mem h).right
    rw [List.getElem_map, reindex, hf h h', hrec h h', hused hu h, ←hused hu' h']

theorem exists_prepare {label : String} {list : List Record} (h : ∀ r ∈ list, isDate r.date) :
    ∃ ws, prepare label list = .ok ws := by
  rw [prepare]
  cases hf : list.zipIdx.find? fun r => ¬ isDate r.fst.date
  case none => exact ⟨_, rfl⟩
  case some p =>
    have hp := List.find?_some hf
    rw [decide_eq_true_eq] at hp
    exact absurd (h p.fst <| List.fst_mem_of_mem_zipIdx <| List.mem_of_find?_eq_some hf) hp

-- Another order of a list is prepared to the same lines under other indices.
theorem prepare_perm {label : String} {list list' : List Record} (hk : KeysDetermine toLowerCase list) (hp : list.Perm list')
    (h : prepare label list = .ok A) : ∃ B f, prepare label list' = .ok B ∧
      Agrees toLowerCase f (Matcher.sorted toLowerCase A) ∧ Matcher.sorted toLowerCase B = (Matcher.sorted toLowerCase A).map (reindex f) := by
  obtain ⟨hd, hn, hu, hr⟩ := prepare_eq_ok h
  obtain ⟨B, hB⟩ : ∃ B, prepare label list' = .ok B := exists_prepare fun r hr => hd r <| hp.mem_iff.mpr hr
  obtain ⟨-, hn', hu', hr'⟩ := prepare_eq_ok hB
  have hs {ws} (h : unused ws = ws) : unused (Matcher.sorted toLowerCase ws) = Matcher.sorted toLowerCase ws := by
    refine List.filter_eq_self.mpr fun w hw => decide_eq_true ?_
    exact (mem_unused.mp <| h.symm ▸ (perm_sortedLines toLowerCase ws).mem_iff.mp hw).right
  have hidx {ws : List Wrapped} (h : (ws.map (·.idx)).Nodup) : ((Matcher.sorted toLowerCase ws).map (·.idx)).Nodup :=
    ((perm_sortedLines toLowerCase ws).map _).nodup_iff.mpr h
  have hrec := records_sorted hk (.of_eq hr) <| (List.Perm.of_eq hr').trans hp.symm
  obtain ⟨f, hf, he⟩ := exists_reindex hrec (hs hu) (hs hu') (hidx hn) (hidx hn') (pairwise_sorted toLowerCase A)
    (pairwise_sorted toLowerCase B)
  exact ⟨B, f, hB, hf, he⟩

variable {listA listA' listB listB' : List Record} {r : Result}

theorem reconcile_of_perm (hkA : KeysDetermine toLowerCase listA) (hkB : KeysDetermine toLowerCase listB) (hA : listA.Perm listA')
    (hB : listB.Perm listB') (h : Matcher.reconcile toLowerCase cfg listA listB = .ok r) :
    Matcher.reconcile toLowerCase cfg listA' listB' = .ok r := by
  simp only [Matcher.reconcile, bind_eq_ok, pure_eq_ok] at h ⊢
  obtain ⟨_, hc, A, hpA, B, hpB, rfl⟩ := h
  obtain ⟨A', f, hpA', hf, heA⟩ := prepare_perm hkA hA hpA
  obtain ⟨B', g, hpB', hg, heB⟩ := prepare_perm hkB hB hpB
  refine ⟨_, hc, A', hpA', B', hpB', ?_⟩
  rw [heA, heB, passes_reindex hf hg]

-- The result is the same for every order of either list, where lines of a list with the same key are the same record.
theorem reconcile_orders (hkA : KeysDetermine toLowerCase listA) (hkB : KeysDetermine toLowerCase listB) (hA : listA.Perm listA')
    (hB : listB.Perm listB') :
    Matcher.reconcile toLowerCase cfg listA listB = .ok r ↔ Matcher.reconcile toLowerCase cfg listA' listB' = .ok r := by
  have hkA' : KeysDetermine toLowerCase listA' := fun r h r' h' => hkA r (hA.mem_iff.mpr h) r' (hA.mem_iff.mpr h')
  have hkB' : KeysDetermine toLowerCase listB' := fun r h r' h' => hkB r (hB.mem_iff.mpr h) r' (hB.mem_iff.mpr h')
  exact ⟨reconcile_of_perm hkA hkB hA hB, reconcile_of_perm hkA' hkB' hA.symm hB.symm⟩

theorem reconcile_orders_june : ∃ r, Matcher.reconcile Hex.toLowerCase DEFAULTS juneBank juneBook = .ok r ∧
    Matcher.reconcile Hex.toLowerCase DEFAULTS juneBank.reverse juneBook.reverse = .ok r := by
  have hA : KeysDetermine Hex.toLowerCase juneBank := by
    unfold KeysDetermine
    decide
  have hB : KeysDetermine Hex.toLowerCase juneBook := by
    unfold KeysDetermine
    decide
  obtain ⟨r, h⟩ := reconcile_june
  exact ⟨r, h, (reconcile_orders hA hB (List.reverse_perm _).symm (List.reverse_perm _).symm).mp h⟩

end

end Matcher

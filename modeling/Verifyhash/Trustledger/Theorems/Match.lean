import Verifyhash.Library.Fallible
import Verifyhash.Trustledger.Match
import Verifyhash.Trustledger.Theorems.Conservation

-- What the matcher pairs, and what it leaves over.
namespace Matcher

open Reconcile Fallible

variable {ws ps xs ys : List Wrapped} {w x : Wrapped}

theorem idx_use : (use ps ws).map (·.idx) = ws.map (·.idx) := by
  rw [use, List.map_map]
  refine List.map_congr_left fun w _ => ?_
  rw [Function.comp_apply]
  split_ifs <;> rfl

theorem unused_cons_of_used (h : w.used) : unused (w :: ws) = unused ws := by
  simp [unused, h]

theorem unused_cons_of_not_used (h : ¬ w.used) : unused (w :: ws) = w :: unused ws := by
  simp [unused, h]

theorem unused_use : unused (use ps ws) = (unused ws).filter fun w => w.idx ∉ ps.map (·.idx) := by
  induction ws
  case nil => rfl
  case cons w ws ih =>
    rw [use, List.map_cons, ←use]
    by_cases hm : w.idx ∈ ps.map (·.idx)
    case pos =>
      rw [if_pos hm, unused_cons_of_used (by rfl), ih]
      by_cases hu : w.used
      case pos => rw [unused_cons_of_used hu]
      case neg => rw [unused_cons_of_not_used hu, List.filter_cons_of_neg (by simpa using hm)]
    case neg =>
      rw [if_neg hm]
      by_cases hu : w.used
      case pos => rw [unused_cons_of_used hu, unused_cons_of_used hu, ih]
      case neg => rw [unused_cons_of_not_used hu, unused_cons_of_not_used hu, ih, List.filter_cons_of_pos (by simpa using hm)]

theorem unused_sublist : (unused ws).Sublist ws :=
  List.filter_sublist

-- What is used is taken from what is not used yet.
theorem perm_unused (hn : (ws.map (·.idx)).Nodup) (hp : ps.Subperm (unused ws)) : (unused ws).Perm (ps ++ unused (use ps ws)) := by
  have hu : (unused ws).Nodup := List.Nodup.of_map _ <| hn.sublist <| unused_sublist.map _
  have hm : ps.Perm ((unused ws).filter fun w => w.idx ∈ ps.map (·.idx)) := by
    obtain ⟨l, hl, hs⟩ := id hp
    refine (List.perm_ext_iff_of_nodup (hl.nodup_iff.mp <| hu.sublist hs) (hu.filter _)).mpr fun w => ?_
    rw [List.mem_filter, decide_eq_true_eq]
    constructor
    case mp => exact fun h => ⟨hp.subset h, List.mem_map_of_mem h⟩
    case mpr =>
      rintro ⟨hw, h⟩
      obtain ⟨p, hpm, he⟩ := List.mem_map.mp h
      have := List.inj_on_of_nodup_map hn (unused_sublist.subset <| hp.subset hpm) (unused_sublist.subset hw) he
      exact this ▸ hpm
  rw [unused_use]
  refine (List.filter_append_perm (fun w : Wrapped => w.idx ∈ ps.map (·.idx)) (unused ws)).symm.trans ?_
  simp only [decide_not]
  exact hm.symm.append_right _

-- What is picked for a line is not used yet, and the pairing has the records of both.
structure Picks (pick : Wrapped → List Wrapped → Option (List Wrapped × Matched)) (l r : Matched → Side)
    (good : Matched → Prop) : Prop where
  subperm : ∀ {x ys ps m}, pick x ys = some (ps, m) → ps.Subperm (unused ys)
  left    : ∀ {x ys ps m}, pick x ys = some (ps, m) → (l m).records = [x.record]
  right   : ∀ {x ys ps m}, pick x ys = some (ps, m) → (r m).records = ps.map (·.record)
  good    : ∀ {x ys ps m}, pick x ys = some (ps, m) → good m

-- After a pass every line is in one pairing or left over, and nothing was picked for a line which is left over.
structure Sweeps (pick : Wrapped → List Wrapped → Option (List Wrapped × Matched)) (l r : Matched → Side)
    (good : Matched → Prop) (xs ys : List Wrapped) (s : Swept) : Prop where
  idx_xs   : s.xs.map (·.idx) = xs.map (·.idx)
  idx_ys   : s.ys.map (·.idx) = ys.map (·.idx)
  sub_xs   : (unused s.xs).Sublist (unused xs)
  sub_ys   : (unused s.ys).Sublist (unused ys)
  left     : ((unused xs).map (·.record)).Perm ((s.matched.flatMap fun m => (l m).records) ++ (unused s.xs).map (·.record))
  right    : ((unused ys).map (·.record)).Perm ((s.matched.flatMap fun m => (r m).records) ++ (unused s.ys).map (·.record))
  good     : ∀ m ∈ s.matched, good m
  declined : ∀ x ∈ unused s.xs, ∃ ys₀, pick x ys₀ = none ∧ (unused s.ys).Sublist (unused ys₀) ∧ (unused ys₀).Sublist (unused ys)

section

variable {pick : Wrapped → List Wrapped → Option (List Wrapped × Matched)} {l r : Matched → Side} {good : Matched → Prop}

theorem sweep_spec (xs : List Wrapped) (hp : Picks pick l r good) (hn : (ys.map (·.idx)).Nodup) : Sweeps pick l r good xs ys (sweep pick xs ys) := by
  induction xs generalizing ys
  case nil => exact ⟨rfl, rfl, .refl _, .refl _, .refl _, .refl _, by simp [sweep], by simp [sweep, unused]⟩
  case cons x xs ih =>
    rw [sweep]
    by_cases hu : x.used
    case pos =>
      have h := ih hn
      rw [if_pos hu]
      refine ⟨congrArg (x.idx :: ·) h.idx_xs, h.idx_ys, ?_, h.sub_ys, ?_, h.right, h.good, ?_⟩ <;>
        simp only [unused_cons_of_used hu]
      · exact h.sub_xs
      · exact h.left
      · exact h.declined
    case neg =>
      rw [if_neg hu]
      cases hk : pick x ys
      case none =>
        have h := ih hn
        refine ⟨congrArg (x.idx :: ·) h.idx_xs, h.idx_ys, ?_, h.sub_ys, ?_, h.right, h.good, ?_⟩ <;>
          simp only [unused_cons_of_not_used hu]
        · exact h.sub_xs.cons_cons x
        · exact (h.left.cons x.record).trans List.perm_middle.symm
        · intro y hy
          rcases List.mem_cons.mp hy with rfl | hy
          case inl => exact ⟨ys, hk, h.sub_ys, .refl _⟩
          case inr => exact h.declined y hy
      case some p =>
        obtain ⟨ps, m⟩ := p
        have h := @ih (use ps ys) (by rwa [idx_use])
        have hperm := (perm_unused hn <| hp.subperm hk).map (·.record)
        have hsub : (unused (use ps ys)).Sublist (unused ys) := by
          rw [unused_use]
          exact List.filter_sublist
        refine ⟨congrArg (x.idx :: ·) h.idx_xs, h.idx_ys.trans idx_use, ?_, h.sub_ys.trans hsub, ?_, ?_, ?_, ?_⟩
        · dsimp only
          rw [unused_cons_of_not_used hu, unused_cons_of_used (by rfl)]
          exact h.sub_xs.cons x
        · dsimp only
          rw [unused_cons_of_not_used hu, unused_cons_of_used (by rfl), List.flatMap_cons, hp.left hk]
          exact h.left.cons x.record
        · dsimp only
          rw [List.flatMap_cons, hp.right hk, List.append_assoc]
          rw [List.map_append] at hperm
          exact hperm.trans <| h.right.append_left _
        · dsimp only
          rw [List.forall_mem_cons]
          exact ⟨hp.good hk, h.good⟩
        · dsimp only
          rw [unused_cons_of_used (by rfl)]
          intro y hy
          obtain ⟨ys₀, h₀, h₁, h₂⟩ := h.declined y hy
          exact ⟨ys₀, h₀, h₁, h₂.trans hsub⟩

end

-- The first choice of parts which are all of one sign.
section

variable {target sum : ℤ} {parts : List Wrapped} {remaining maxParts : ℕ}

def amounts (ws : List Wrapped) : ℤ :=
  (ws.map (·.record.amount)).sum

theorem amounts_cons : amounts (w :: ws) = w.record.amount + amounts ws := by
  rw [amounts, List.map_cons, List.sum_cons, amounts]

theorem recurse_sound (h : recurse target remaining sum parts = some ps) :
    ps.Sublist parts ∧ ps.length = remaining ∧ sum + amounts ps = target := by
  induction parts generalizing remaining sum ps
  case nil =>
    cases remaining
    case zero =>
      rw [recurse] at h
      split_ifs at h with he
      injection h with h
      subst h
      exact ⟨.refl _, rfl, by simpa [amounts] using he⟩
    case succ => cases h
  case cons p parts ih =>
    cases remaining
    case zero =>
      rw [recurse] at h
      split_ifs at h with he
      injection h with h
      subst h
      exact ⟨List.nil_sublist _, rfl, by simpa [amounts] using he⟩
    case succ remaining =>
      rw [recurse] at h
      split_ifs at h
      case pos =>
        obtain ⟨hs, hl, ha⟩ := ih h
        exact ⟨hs.cons p, hl, ha⟩
      case neg =>
        cases hf : recurse target remaining (sum + p.record.amount) parts <;> rw [hf] at h
        case none =>
          obtain ⟨hs, hl, ha⟩ := ih h
          exact ⟨hs.cons p, hl, ha⟩
        case some found =>
          injection h with h
          subst h
          obtain ⟨hs, hl, ha⟩ := ih hf
          refine ⟨hs.cons_cons p, by rw [List.length_cons, hl], ?_⟩
          rw [amounts_cons]
          omega

theorem amounts_nonneg (h : ∀ w ∈ ws, 0 ≤ w.record.amount) : 0 ≤ amounts ws := by
  refine List.sum_nonneg fun a ha => ?_
  obtain ⟨w, hw, rfl⟩ := List.mem_map.mp ha
  exact h w hw

theorem amounts_nonpos (h : ∀ w ∈ ws, w.record.amount ≤ 0) : amounts ws ≤ 0 := by
  induction ws
  case nil => exact le_rfl
  case cons w ws ih =>
    have := h w List.mem_cons_self
    have := ih fun w hw => h w <| List.mem_cons_of_mem _ hw
    rw [amounts_cons]
    omega

theorem sameSign_iff {a b : ℤ} : sameSign a b ↔ (0 ≤ a ↔ 0 ≤ b) := by
  rw [sameSign, decide_eq_true_eq]
  omega

-- A part which is skipped because the sum overshoots is in no choice.
theorem recurse_complete (hs : ∀ p ∈ parts, sameSign p.record.amount target) (hsub : ps.Sublist parts)
    (hl : ps.length = remaining) (ha : sum + amounts ps = target) : recurse target remaining sum parts ≠ none := by
  induction parts generalizing remaining sum ps
  case nil =>
    obtain rfl := List.sublist_nil.mp hsub
    obtain rfl : 0 = remaining := hl
    rw [recurse, if_pos (by simpa [amounts] using ha)]
    exact Option.some_ne_none _
  case cons p parts ih =>
    have ih := @ih
    rw [List.forall_mem_cons] at hs
    cases remaining
    case zero =>
      obtain rfl := List.length_eq_zero_iff.mp hl
      rw [recurse, if_pos (by simpa [amounts] using ha)]
      exact Option.some_ne_none _
    case succ remaining =>
      rw [recurse]
      cases hsub
      case cons hsub =>
        have h := ih hs.right hsub hl ha
        split_ifs
        case pos => exact h
        case neg =>
          cases recurse target remaining (sum + p.record.amount) parts
          case none => exact h
          case some => exact Option.some_ne_none _
      case cons_cons ps hsub =>
        rw [amounts_cons] at ha
        have hrest (w) (hw : w ∈ ps) := sameSign_iff.mp <| hs.right w <| hsub.subset hw
        rw [if_neg]
        case hnc =>
          rw [overshoots, decide_eq_true_eq]
          rintro (⟨ht, hn, -⟩ | ⟨ht, hn, -⟩)
          · have := amounts_nonneg fun w hw => (hrest w hw).mpr ht
            omega
          · have := amounts_nonpos fun w hw => (not_le.mp <| mt (hrest w hw).mp <| not_le.mpr ht).le
            omega
        have h := ih hs.right hsub (Nat.succ_inj.mp hl) (by omega : sum + p.record.amount + amounts ps = target)
        cases hf : recurse target remaining (sum + p.record.amount) parts
        case none => exact absurd hf h
        case some => exact Option.some_ne_none _

-- A choice of at least two and at most `maxParts` parts with the sum.
structure Combines (target : ℤ) (maxParts : ℕ) (parts ps : List Wrapped) : Prop where
  sublist : ps.Sublist parts
  two_le  : 2 ≤ ps.length
  le_max  : ps.length ≤ maxParts
  sum     : amounts ps = target

theorem findSubsetSum_sound (h : findSubsetSum parts target maxParts = some ps) : Combines target maxParts parts ps := by
  obtain ⟨size, hm, hr⟩ := List.exists_of_findSome?_eq_some h
  obtain ⟨hs, hl, ha⟩ := recurse_sound hr
  rw [List.mem_range'_1] at hm
  exact ⟨hs, by omega, by omega, by omega⟩

theorem findSubsetSum_complete (hs : ∀ p ∈ parts, sameSign p.record.amount target) (hc : Combines target maxParts parts ps) :
    findSubsetSum parts target maxParts ≠ none := by
  intro h
  rw [findSubsetSum, List.findSome?_eq_none_iff] at h
  have hl := hc.sublist.length_le
  have h₂ := hc.two_le
  have hm := hc.le_max
  have ha := hc.sum
  exact recurse_complete hs hc.sublist rfl (by omega) <| h ps.length <| List.mem_range'_1.mpr <| by omega

end

-- What justifies a pairing.
structure Parts (cfg : Config) (s : Record) (ps : List Record) : Prop where
  two_le : 2 ≤ ps.length
  le_max : ps.length ≤ cfg.maxSplitParts
  sum    : sumAmounts ps = s.amount
  sign   : ∀ p ∈ ps, sameSign p.amount s.amount
  window : ∀ p ∈ ps, dayDiff s.date p.date ≤ cfg.dateToleranceDays

def Justified (cfg : Config) (m : Matched) : Prop :=
  match m.kind, m.a, m.b with
  | .exact,        .one a,   .one b   => a.amount = b.amount ∧ dayDiff a.date b.date = 0
  | .amountWindow, .one a,   .one b   => a.amount = b.amount ∧ dayDiff a.date b.date ≤ cfg.dateToleranceDays
  | .nsfReversal,  .one a,   .one b   =>
    a.amount ≠ 0 ∧ a.amount = -b.amount ∧ dayDiff a.date b.date ≤ cfg.dateToleranceDays
  | .split,        .one s,   .many ps => Parts cfg s ps
  | .split,        .many ps, .one s   => Parts cfg s ps
  | _,             _,        _        => False

section

variable {toLowerCase : JsString → JsString} {cfg : Config} {pass : Pass} {a b s : Wrapped} {cands many : List Wrapped}
  {chosen : Option Wrapped}

theorem closer_eq (toLowerCase : JsString → JsString) (pass : Pass) (a : Wrapped) (chosen : Option Wrapped) (b : Wrapped) :
    (closer toLowerCase pass a chosen b = some b ∧ ¬ b.used ∧ pass.inWindow a b) ∨
      (closer toLowerCase pass a chosen b = chosen ∧ (chosen = none → b.used ∨ ¬ pass.inWindow a b)) := by
  rw [closer.eq_def]
  by_cases h : b.used ∨ ¬ pass.inWindow a b
  case pos =>
    rw [if_pos h]
    exact .inr ⟨rfl, fun _ => h⟩
  case neg =>
    rw [if_neg h]
    rw [not_or, not_not] at h
    cases chosen
    case none => exact .inl ⟨rfl, h⟩
    case some c =>
      dsimp only
      split_ifs
      · exact .inl ⟨rfl, h⟩
      · exact .inr ⟨rfl, fun hc => by cases hc⟩

theorem foldl_closer (toLowerCase : JsString → JsString) (pass : Pass) (a : Wrapped) (cands : List Wrapped) (chosen : Option Wrapped) :
    (∃ b ∈ cands, cands.foldl (closer toLowerCase pass a) chosen = some b ∧ ¬ b.used ∧ pass.inWindow a b) ∨
      (cands.foldl (closer toLowerCase pass a) chosen = chosen ∧
        (chosen = none → ∀ b ∈ cands, b.used ∨ ¬ pass.inWindow a b)) := by
  induction cands generalizing chosen
  case nil => exact .inr ⟨rfl, fun _ b hb => absurd hb List.not_mem_nil⟩
  case cons b cands ih =>
    rw [List.foldl_cons]
    rcases ih (closer toLowerCase pass a chosen b) with ⟨c, hc, h⟩ | ⟨he, hn⟩
    case inl => exact .inl ⟨c, List.mem_cons_of_mem b hc, h⟩
    case inr =>
      rcases closer_eq toLowerCase pass a chosen b with ⟨hb, h⟩ | ⟨hb, h⟩
      case inl => exact .inl ⟨b, List.mem_cons_self, he.trans hb, h⟩
      case inr =>
        rw [hb] at hn he
        exact .inr ⟨by rw [hb, he], fun hc => List.forall_mem_cons.mpr ⟨h hc, hn hc⟩⟩

theorem scan_eq_some (h : scan toLowerCase pass a cands = some b) : b ∈ cands ∧ ¬ b.used ∧ pass.inWindow a b := by
  rcases foldl_closer toLowerCase pass a cands none with ⟨c, hc, he, h'⟩ | ⟨he, -⟩
  case inl =>
    obtain rfl : c = b := Option.some_inj.mp <| he.symm.trans h
    exact ⟨hc, h'⟩
  case inr => exact absurd (he.symm.trans h) <| (Option.some_ne_none b).symm

theorem scan_eq_none (h : scan toLowerCase pass a cands = none) (hb : b ∈ cands) : b.used ∨ ¬ pass.inWindow a b := by
  rcases foldl_closer toLowerCase pass a cands none with ⟨c, -, he, -⟩ | ⟨-, hn⟩
  case inl => exact absurd (he.symm.trans h) <| Option.some_ne_none c
  case inr => exact hn rfl b hb

theorem mem_unused : w ∈ unused ws ↔ w ∈ ws ∧ ¬ w.used := by
  simp [unused]

theorem choose_eq_some {p : List Wrapped × Matched} {B : List Wrapped} (h : choose toLowerCase pass a B = some p) :
    ∃ b ∈ unused B, pass.inWindow a b ∧
      ((a.record.amount = b.record.amount ∧ p = pairing toLowerCase a b pass.kind) ∨
        (a.record.amount ≠ 0 ∧ a.record.amount = -b.record.amount ∧ p = pairing toLowerCase a b .nsfReversal)) := by
  rw [choose] at h
  cases hs : scan toLowerCase pass a (B.filter (·.record.amount = a.record.amount)) <;> rw [hs] at h
  case some b =>
    obtain ⟨hm, hu, hw⟩ := scan_eq_some hs
    rw [List.mem_filter, decide_eq_true_eq] at hm
    injection h with h
    exact ⟨b, mem_unused.mpr ⟨hm.left, hu⟩, hw, .inl ⟨hm.right.symm, h.symm⟩⟩
  case none =>
    dsimp only at h
    split_ifs at h with h₀
    obtain ⟨b, hs, h⟩ := Option.map_eq_some_iff.mp h
    obtain ⟨hm, hu, hw⟩ := scan_eq_some hs
    rw [List.mem_filter, decide_eq_true_eq] at hm
    exact ⟨b, mem_unused.mpr ⟨hm.left, hu⟩, hw, .inr ⟨h₀, by omega, h.symm⟩⟩

theorem choose_eq_none {B : List Wrapped} (h : choose toLowerCase pass a B = none) (hb : b ∈ unused B) (hw : pass.inWindow a b) :
    a.record.amount ≠ b.record.amount ∧ (a.record.amount ≠ 0 → a.record.amount ≠ -b.record.amount) := by
  obtain ⟨hb, hu⟩ := mem_unused.mp hb
  rw [choose] at h
  cases hs : scan toLowerCase pass a (B.filter (·.record.amount = a.record.amount)) <;> rw [hs] at h
  case some b => cases h
  case none =>
    dsimp only at h
    constructor
    case left =>
      intro he
      have := scan_eq_none hs <| List.mem_filter.mpr ⟨hb, decide_eq_true he.symm⟩
      tauto
    case right =>
      intro h₀ he
      rw [if_pos h₀, Option.map_eq_none_iff] at h
      have := scan_eq_none h <| List.mem_filter.mpr ⟨hb, decide_eq_true <| by omega⟩
      tauto

theorem choose_picks {good : Matched → Prop} (hg : ∀ {a b}, pass.inWindow a b → a.record.amount = b.record.amount →
      good (pairing toLowerCase a b pass.kind).snd)
    (hn : ∀ {a b}, pass.inWindow a b → a.record.amount ≠ 0 → a.record.amount = -b.record.amount →
      good (pairing toLowerCase a b .nsfReversal).snd) :
    Picks (choose toLowerCase pass) (·.a) (·.b) good := by
  constructor
  case subperm =>
    intro x ys ps m h
    obtain ⟨b, hb, -, ⟨-, h⟩ | ⟨-, -, h⟩⟩ := choose_eq_some h <;> cases h <;>
      exact (List.singleton_sublist.mpr hb).subperm
  case left =>
    intro x ys ps m h
    obtain ⟨b, -, -, ⟨-, h⟩ | ⟨-, -, h⟩⟩ := choose_eq_some h <;> cases h <;> rfl
  case right =>
    intro x ys ps m h
    obtain ⟨b, -, -, ⟨-, h⟩ | ⟨-, -, h⟩⟩ := choose_eq_some h <;> cases h <;> rfl
  case good =>
    intro x ys ps m h
    obtain ⟨b, -, hw, ⟨he, h⟩ | ⟨h₀, he, h⟩⟩ := choose_eq_some h <;> cases h
    · exact hg hw he
    · exact hn hw h₀ he

theorem perm_sortedLines (toLowerCase : JsString → JsString) (ws : List Wrapped) : (Matcher.sorted toLowerCase ws).Perm ws :=
  List.perm_insertionSort ..

theorem combine_eq_some {flag : Bool} {m : Matched} (h : combine toLowerCase cfg flag s many = some (ps, m)) :
    ps.Subperm (unused many) ∧ Parts cfg s.record (ps.map (·.record)) ∧ m = splitOf toLowerCase flag s ps := by
  rw [combine] at h
  dsimp only at h
  split_ifs at h
  obtain ⟨combo, hf, h⟩ := Option.map_eq_some_iff.mp h
  cases h
  have hc := findSubsetSum_sound hf
  have hsub : ps.Subperm (many.filter <| eligible cfg s) := hc.sublist.subperm.trans (perm_sortedLines ..).subperm
  have he {p} (hp : p ∈ ps) : ¬ p.used ∧ sameSign p.record.amount s.record.amount ∧
      dayDiff s.record.date p.record.date ≤ cfg.dateToleranceDays := by
    have := (List.mem_filter.mp <| hsub.subset hp).right
    rwa [eligible, decide_eq_true_eq] at this
  have hle : (many.filter <| eligible cfg s).Sublist (unused many) := by
    refine List.monotone_filter_right many fun w hw => ?_
    rw [eligible, decide_eq_true_eq] at hw
    simpa using hw.left
  refine ⟨hsub.trans hle.subperm, ⟨?_, ?_, ?_, ?_, ?_⟩, rfl⟩
  · rw [List.length_map]
    exact hc.two_le
  · rw [List.length_map]
    have := hc.two_le
    have := hc.le_max
    omega
  · rw [sumAmounts, List.map_map]
    exact hc.sum
  · rw [List.forall_mem_map]
    exact fun p hp => (he hp).right.left
  · rw [List.forall_mem_map]
    exact fun p hp => (he hp).right.right

theorem combine_eq_none {flag : Bool} (h : combine toLowerCase cfg flag s many = none) (h₀ : s.record.amount ≠ 0)
    (hc : (many.filter <| eligible cfg s).length ≤ cfg.maxSplitCandidates) {qs : List Wrapped}
    (hq : qs.Subperm (many.filter <| eligible cfg s)) (h₂ : 2 ≤ qs.length) (hm : qs.length ≤ cfg.maxSplitParts) :
    amounts qs ≠ s.record.amount := by
  intro hs
  rw [combine, if_neg h₀] at h
  dsimp only at h
  have hlen : (Matcher.sorted toLowerCase <| many.filter <| eligible cfg s).length = (many.filter <| eligible cfg s).length :=
    (perm_sortedLines ..).length_eq
  rw [hlen, if_neg (not_lt.mpr hc), Option.map_eq_none_iff] at h
  obtain ⟨l, hl, hsub⟩ := hq.trans (perm_sortedLines toLowerCase _).symm.subperm
  refine findSubsetSum_complete ?_ ⟨hsub, ?_, ?_, ?_⟩ h
  · intro p hp
    have := (List.mem_filter.mp <| (perm_sortedLines ..).subset hp).right
    rw [eligible, decide_eq_true_eq] at this
    exact this.right.left
  · rwa [hl.length_eq]
  · rw [hl.length_eq]
    omega
  · rw [←hs, amounts, (hl.map _).sum_eq, amounts]

end

-- The candidates for the parts of a single line.
def candidates (cfg : Config) (s : Record) (list : List Record) : List Record :=
  list.filter fun r => sameSign r.amount s.amount ∧ dayDiff s.date r.date ≤ cfg.dateToleranceDays

-- No pairing of two lines remains, and no split of a line with few enough candidates.
structure Exhausted (cfg : Config) (listA listB unmatchedA unmatchedB : List Record) : Prop where
  equal    : ∀ a ∈ unmatchedA, ∀ b ∈ unmatchedB, dayDiff a.date b.date ≤ cfg.dateToleranceDays → a.amount ≠ b.amount
  opposite : ∀ a ∈ unmatchedA, ∀ b ∈ unmatchedB, dayDiff a.date b.date ≤ cfg.dateToleranceDays → a.amount ≠ 0 →
    a.amount ≠ -b.amount
  splitA   : ∀ s ∈ unmatchedA, s.amount ≠ 0 → (candidates cfg s listB).length ≤ cfg.maxSplitCandidates →
    ∀ ps, ps.Subperm unmatchedB → ¬ Parts cfg s ps
  splitB   : ∀ s ∈ unmatchedB, s.amount ≠ 0 → (candidates cfg s listA).length ≤ cfg.maxSplitCandidates →
    ∀ ps, ps.Subperm unmatchedA → ¬ Parts cfg s ps

section

variable {toLowerCase : JsString → JsString} {cfg : Config} {s : Wrapped} {A B many : List Wrapped}

theorem splitOf_picks {flag : Bool} {l r : Matched → Side} (hl : ∀ s ps, (l (splitOf toLowerCase flag s ps)).records = [s.record])
    (hr : ∀ s ps, (r (splitOf toLowerCase flag s ps)).records = ps.map (·.record))
    (hg : ∀ s ps, Parts cfg s.record (ps.map (·.record)) → Justified cfg (splitOf toLowerCase flag s ps)) :
    Picks (combine toLowerCase cfg flag) l r (Justified cfg) := by
  constructor <;> intro x ys ps m h <;> obtain ⟨hs, hp, rfl⟩ := combine_eq_some h
  case subperm => exact hs
  case left => exact hl x ps
  case right => exact hr x ps
  case good => exact hg x ps hp

-- A split which would remain was there to be found when the line was declined.
theorem not_parts {flag : Bool} {us : List Wrapped} (h : combine toLowerCase cfg flag s many = none) (h₀ : s.record.amount ≠ 0)
    (hsub : (unused us).Sublist (unused many)) {all : List Wrapped} (hall : (unused many).Sublist (unused all))
    (hc : (candidates cfg s.record ((unused all).map (·.record))).length ≤ cfg.maxSplitCandidates) {ps : List Record}
    (hps : ps.Subperm ((unused us).map (·.record))) : ¬ Parts cfg s.record ps := by
  intro hp
  obtain ⟨l, hl, hsl⟩ := hps
  obtain ⟨qs, hq, rfl⟩ := List.sublist_map_iff.mp hsl
  have hf : many.filter (eligible cfg s) = (unused many).filter fun w =>
      sameSign w.record.amount s.record.amount ∧ dayDiff s.record.date w.record.date ≤ cfg.dateToleranceDays := by
    rw [unused, List.filter_filter]
    refine List.filter_congr fun w _ => ?_
    rw [eligible, ←Bool.decide_and]
    exact decide_eq_decide.mpr and_comm
  have he : ∀ q ∈ qs, sameSign q.record.amount s.record.amount ∧
      dayDiff s.record.date q.record.date ≤ cfg.dateToleranceDays := by
    intro q hq
    have hm : q.record ∈ ps := hl.subset <| List.mem_map_of_mem hq
    exact ⟨hp.sign _ hm, hp.window _ hm⟩
  refine @combine_eq_none _ _ _ _ _ h h₀ ?_ qs ?_ ?_ ?_ ?_
  · refine le_trans ?_ hc
    rw [hf, candidates, List.filter_map, List.length_map]
    exact_mod_cast (hall.filter _).length_le
  · rw [hf, ←List.filter_eq_self.mpr fun q hq => decide_eq_true (he q hq)]
    exact ((hq.trans hsub).filter _).subperm
  · have := hp.two_le
    rwa [←hl.length_eq, List.length_map] at this
  · have := hp.le_max
    rwa [←hl.length_eq, List.length_map] at this
  · rw [←hp.sum, ←sumAmounts_perm hl, amounts, sumAmounts, List.map_map]
    rfl

-- What the passes make of two lists of which nothing is used yet.
structure Outcome (cfg : Config) (listA listB : List Record) (r : Result) : Prop where
  partA     : listA.Perm ((r.matched.flatMap fun m => m.a.records) ++ r.unmatchedA)
  partB     : listB.Perm ((r.matched.flatMap fun m => m.b.records) ++ r.unmatchedB)
  justified : ∀ m ∈ r.matched, Justified cfg m
  exhausted : Exhausted cfg listA listB r.unmatchedA r.unmatchedB

theorem passes_spec (ht : 0 ≤ cfg.dateToleranceDays) (hA : (A.map (·.idx)).Nodup) (hB : (B.map (·.idx)).Nodup) :
    Outcome cfg ((unused A).map (·.record)) ((unused B).map (·.record)) (passes toLowerCase cfg A B) := by
  have hp₁ : Picks (choose toLowerCase ⟨0, .exact, true⟩) (·.a) (·.b) (Justified cfg) := by
    refine choose_picks (fun hw he => ?_) (fun hw h₀ he => ?_) <;> rw [Pass.inWindow, if_pos rfl, decide_eq_true_eq] at hw
    · exact ⟨he, hw⟩
    · exact ⟨h₀, he, hw.le.trans ht⟩
  have hp₂ : Picks (choose toLowerCase ⟨cfg.dateToleranceDays, .amountWindow, false⟩) (·.a) (·.b) (Justified cfg) := by
    refine choose_picks (fun hw he => ?_) (fun hw h₀ he => ?_) <;>
      rw [Pass.inWindow, if_neg Bool.false_ne_true, decide_eq_true_eq] at hw
    · exact ⟨he, hw⟩
    · exact ⟨h₀, he, hw⟩
  have hp₃ : Picks (combine toLowerCase cfg true) (·.a) (·.b) (Justified cfg) :=
    splitOf_picks (fun _ _ => rfl) (fun _ _ => rfl) fun _ _ h => h
  have hp₄ : Picks (combine toLowerCase cfg false) (·.b) (·.a) (Justified cfg) :=
    splitOf_picks (fun _ _ => rfl) (fun _ _ => rfl) fun _ _ h => h
  have h₁ := sweep_spec A hp₁ hB
  rw [passes, pairOneToOne, pairOneToOne, pairSplits, pairSplits]
  generalize sweep (choose toLowerCase ⟨0, .exact, true⟩) A B = s₁ at *
  have h₂ := sweep_spec s₁.xs hp₂ (h₁.idx_ys ▸ hB)
  generalize sweep (choose toLowerCase ⟨cfg.dateToleranceDays, .amountWindow, false⟩) s₁.xs s₁.ys = s₂ at *
  have h₃ := sweep_spec s₂.xs hp₃ (h₂.idx_ys ▸ h₁.idx_ys ▸ hB)
  generalize sweep (combine toLowerCase cfg true) s₂.xs s₂.ys = s₃ at *
  have h₄ := sweep_spec s₃.ys hp₄ (h₃.idx_xs ▸ h₂.idx_xs ▸ h₁.idx_xs ▸ hA)
  generalize sweep (combine toLowerCase cfg false) s₃.ys s₃.xs = s₄ at *
  have hm : (sortMatched (s₁.matched ++ s₂.matched ++ s₃.matched ++ s₄.matched)).Perm
      (s₁.matched ++ s₂.matched ++ s₃.matched ++ s₄.matched) := List.perm_insertionSort ..
  have hsA := (perm_sortedLines toLowerCase <| unused s₄.ys).map (·.record)
  have hsB := (perm_sortedLines toLowerCase <| unused s₄.xs).map (·.record)
  constructor
  case partA =>
    have h := (hm.flatMap_right fun m => m.a.records).append hsA
    refine (h₁.left.trans <| (h₂.left.trans <| (h₃.left.trans <| h₄.right.append_left _).append_left _).append_left _).trans ?_
    refine .trans (.of_eq ?_) h.symm
    simp only [List.flatMap_append, List.append_assoc]
  case partB =>
    have h := (hm.flatMap_right fun m => m.b.records).append hsB
    refine (h₁.right.trans <| (h₂.right.trans <| (h₃.right.trans <| h₄.left.append_left _).append_left _).append_left _).trans ?_
    refine .trans (.of_eq ?_) h.symm
    simp only [List.flatMap_append, List.append_assoc]
  case justified =>
    intro m hmem
    have hmem := hm.subset hmem
    rw [List.mem_append, List.mem_append, List.mem_append, or_assoc, or_assoc] at hmem
    rcases hmem with h | h | h | h
    · exact h₁.good m h
    · exact h₂.good m h
    · exact h₃.good m h
    · exact h₄.good m h
  case exhausted =>
    have hdeclined {a b : Record} (ha : a ∈ (Matcher.sorted toLowerCase (unused s₄.ys)).map (·.record))
        (hb : b ∈ (Matcher.sorted toLowerCase (unused s₄.xs)).map (·.record)) (hw : dayDiff a.date b.date ≤ cfg.dateToleranceDays) :
        a.amount ≠ b.amount ∧ (a.amount ≠ 0 → a.amount ≠ -b.amount) := by
      obtain ⟨x, hx, rfl⟩ := List.mem_map.mp <| hsA.subset ha
      obtain ⟨y, hy, rfl⟩ := List.mem_map.mp <| hsB.subset hb
      obtain ⟨ys₀, hn, hs, -⟩ := h₂.declined x <| h₃.sub_xs.subset <| h₄.sub_ys.subset hx
      refine choose_eq_none hn (hs.subset <| h₃.sub_ys.subset <| h₄.sub_xs.subset hy) ?_
      rw [Pass.inWindow, if_neg Bool.false_ne_true, decide_eq_true_eq]
      exact hw
    constructor
    case equal => exact fun a ha b hb hw => (hdeclined ha hb hw).left
    case opposite => exact fun a ha b hb hw => (hdeclined ha hb hw).right
    case splitA =>
      intro s hs h₀ hc ps hps
      obtain ⟨x, hx, rfl⟩ := List.mem_map.mp <| hsA.subset hs
      obtain ⟨many, hn, h₅, h₆⟩ := h₃.declined x <| h₄.sub_ys.subset hx
      exact not_parts hn h₀ (h₄.sub_xs.trans h₅) (h₆.trans <| h₂.sub_ys.trans h₁.sub_ys) hc <| hps.trans hsB.subperm
    case splitB =>
      intro s hs h₀ hc ps hps
      obtain ⟨y, hy, rfl⟩ := List.mem_map.mp <| hsB.subset hs
      obtain ⟨many, hn, h₅, h₆⟩ := h₄.declined y hy
      exact not_parts hn h₀ h₅ (h₆.trans <| h₃.sub_xs.trans <| h₂.sub_xs.trans h₁.sub_xs) hc <| hps.trans hsA.subperm

-- What is prepared are the records of the list, of which nothing is used yet.
theorem prepare_eq_ok {label : String} {list : List Record} {ws : List Wrapped} (h : prepare label list = .ok ws) :
    (∀ r ∈ list, isDate r.date) ∧ (ws.map (·.idx)).Nodup ∧ unused ws = ws ∧ ws.map (·.record) = list := by
  rw [prepare] at h
  cases hf : list.zipIdx.find? fun r => ¬ isDate r.fst.date <;> rw [hf] at h
  case some => cases h
  case none =>
    injection h with h
    subst h
    refine ⟨fun r hr => ?_, ?_, ?_, ?_⟩
    · obtain ⟨i, hi⟩ := List.mem_iff_getElem?.mp hr
      have := List.find?_eq_none.mp hf (r, i) <| List.mem_zipIdx_iff_getElem?.mpr hi
      simpa using this
    · rw [List.map_map]
      exact (List.zipIdx_map_snd 0 list) ▸ List.nodup_range'
    · refine List.filter_eq_self.mpr fun w hw => ?_
      obtain ⟨r, -, rfl⟩ := List.mem_map.mp hw
      rfl
    · rw [List.map_map]
      exact List.zipIdx_map_fst 0 list

theorem checkConfig_eq_ok (h : checkConfig cfg = .ok ()) : 0 ≤ cfg.dateToleranceDays := by
  rw [checkConfig] at h
  split_ifs at h with h₁ h₂
  exact not_lt.mp h₂

theorem Outcome.of_perm {listA listA' listB listB' : List Record} {r : Result} (h : Outcome cfg listA listB r) (hA : listA.Perm listA')
    (hB : listB.Perm listB') : Outcome cfg listA' listB' r := by
  refine ⟨hA.symm.trans h.partA, hB.symm.trans h.partB, h.justified, h.exhausted.equal, h.exhausted.opposite,
    fun s hs h₀ hc => ?_, fun s hs h₀ hc => ?_⟩
  · rw [candidates, ←(hB.filter _).length_eq] at hc
    exact h.exhausted.splitA s hs h₀ hc
  · rw [candidates, ←(hA.filter _).length_eq] at hc
    exact h.exhausted.splitB s hs h₀ hc

variable {listA listB : List Record} {r : Result}

theorem reconcile_spec (h : Matcher.reconcile toLowerCase cfg listA listB = .ok r) : Outcome cfg listA listB r := by
  simp only [Matcher.reconcile, bind_eq_ok, pure_eq_ok] at h
  obtain ⟨_, hc, A, hA, B, hB, rfl⟩ := h
  obtain ⟨-, hiA, huA, hrA⟩ := prepare_eq_ok hA
  obtain ⟨-, hiB, huB, hrB⟩ := prepare_eq_ok hB
  have hpA := perm_sortedLines toLowerCase A
  have hpB := perm_sortedLines toLowerCase B
  refine (passes_spec (checkConfig_eq_ok hc) ((hpA.map _).nodup_iff.mpr hiA) ((hpB.map _).nodup_iff.mpr hiB)).of_perm ?_ ?_
  · exact ((congrArg _ huA).trans hrA) ▸ (hpA.filter _).map _
  · exact ((congrArg _ huB).trans hrB) ▸ (hpB.filter _).map _

theorem reconcile_june : ∃ r, Matcher.reconcile Hex.toLowerCase DEFAULTS juneBank juneBook = .ok r :=
  ⟨_, rfl⟩

end

section

variable {cfg : Config} {target : ℤ} {parts : List Wrapped} {maxParts : ℕ}

theorem combines_iff_of_size : Combines target maxParts parts ps ↔
    ∃ size ∈ List.range' 2 (min maxParts parts.length - 1), ps.Sublist parts ∧ ps.length = size ∧ amounts ps = target := by
  constructor
  case mp =>
    intro h
    have h₂ := h.two_le
    have hm := h.le_max
    have hl := h.sublist.length_le
    exact ⟨ps.length, List.mem_range'_1.mpr <| by omega, h.sublist, rfl, h.sum⟩
  case mpr =>
    rintro ⟨size, hs, hsub, rfl, ha⟩
    rw [List.mem_range'_1] at hs
    exact ⟨hsub, by omega, by omega, ha⟩

-- For parts of the sign of the target the search skips no choice, and what it finds has the fewest parts.
theorem findSubsetSum_least (hs : ∀ p ∈ parts, sameSign p.record.amount target) :
    match findSubsetSum parts target maxParts with
    | none    => ∀ ps, ¬ Combines target maxParts parts ps
    | some ps => Combines target maxParts parts ps ∧ ∀ qs, Combines target maxParts parts qs → ps.length ≤ qs.length := by
  cases h : findSubsetSum parts target maxParts
  case none => exact fun ps hc => findSubsetSum_complete hs hc h
  case some ps =>
    refine ⟨findSubsetSum_sound h, fun qs hq => ?_⟩
    obtain ⟨l₁, size, l₂, hr, hf, hn⟩ := List.findSome?_eq_some_iff.mp h
    obtain ⟨-, hl, -⟩ := recurse_sound hf
    obtain ⟨size', hm, hsub, rfl, ha⟩ := combines_iff_of_size.mp hq
    have hlt : (List.range' 2 (min maxParts parts.length - 1)).Pairwise (· < ·) := List.pairwise_lt_range'
    rw [hr] at hm hlt
    rcases List.mem_append.mp hm with hm | hm
    case inl => exact absurd (hn _ hm) <| recurse_complete hs hsub rfl (by omega)
    case inr =>
      rcases List.mem_cons.mp hm with he | hm
      case inl => exact (hl.trans he.symm).le
      case inr =>
        have := List.rel_of_pairwise_cons (List.pairwise_append.mp hlt).right.left hm
        omega

end

-- Three payments of a batched deposit.
def batch : List Wrapped :=
  [50000, 120000, 70000].zipIdx.map fun p => ⟨p.snd, record "2026-06-02" p.fst "" "" "", false⟩

theorem findSubsetSum_least_batch : Combines 120000 6 batch [batch[0], batch[2]] ∧
    ∀ qs, Combines 120000 6 batch qs → 2 ≤ qs.length :=
  @findSubsetSum_least 120000 batch 6 (by decide)

-- The reversals which are paired with a line of the opposite amount.
def reversals (matched : List Matched) : ℤ :=
  sumAmounts <| (matched.filter (·.kind = .nsfReversal)).flatMap fun m => m.a.records

section

variable {toLowerCase : JsString → JsString} {cfg : Config} {bank book : List Record} {r : Result}

theorem sumAmounts_append {rs rs' : List Record} : sumAmounts (rs ++ rs') = sumAmounts rs + sumAmounts rs' := by
  rw [sumAmounts, List.map_append, List.sum_append, sumAmounts, sumAmounts]

theorem sumAmounts_singleton {a : Record} : sumAmounts [a] = a.amount := by
  rw [sumAmounts, List.map_singleton, List.sum_singleton]

-- The sides of a pairing have the same amount, unless it is a reversal.
theorem Justified.net {m : Matched} (h : Justified cfg m) :
    sumAmounts m.a.records - sumAmounts m.b.records = if m.kind = .nsfReversal then 2 * sumAmounts m.a.records else 0 := by
  obtain ⟨a, b, kind, aKeys, bKeys⟩ := m
  cases kind <;> cases a <;> cases b <;> simp only [Justified] at h <;>
    simp only [Side.records, sumAmounts_singleton, reduceCtorEq, if_true, if_false]
  case exact.one.one => omega
  case amountWindow.one.one => omega
  case nsfReversal.one.one => omega
  case split.one.many => rw [h.sum, sub_self]
  case split.many.one => rw [h.sum, sub_self]

theorem net_matched {matched : List Matched} (h : ∀ m ∈ matched, Justified cfg m) :
    sumAmounts (matched.flatMap fun m => m.a.records) - sumAmounts (matched.flatMap fun m => m.b.records) =
      2 * reversals matched := by
  induction matched
  case nil => rfl
  case cons m matched ih =>
    rw [List.forall_mem_cons] at h
    have hm := h.left.net
    have ih := ih h.right
    rw [List.flatMap_cons, List.flatMap_cons, sumAmounts_append, sumAmounts_append]
    by_cases hk : m.kind = .nsfReversal
    case pos =>
      rw [if_pos hk] at hm
      rw [reversals, List.filter_cons, if_pos (decide_eq_true hk), List.flatMap_cons, sumAmounts_append]
      rw [reversals] at ih
      omega
    case neg =>
      rw [if_neg hk] at hm
      rw [reversals, List.filter_cons, if_neg (by simpa using hk)]
      rw [reversals] at ih
      omega

theorem net_reconcile (h : Matcher.reconcile toLowerCase cfg bank book = .ok r) :
    sumAmounts bank - sumAmounts book = sumAmounts r.unmatchedA - sumAmounts r.unmatchedB + 2 * reversals r.matched := by
  have hs := reconcile_spec h
  have hn := net_matched hs.justified
  rw [sumAmounts_perm hs.partA, sumAmounts_perm hs.partB, sumAmounts_append, sumAmounts_append]
  omega

end

end Matcher

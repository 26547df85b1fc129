import Mathlib
import Verifyhash.Cli.Drift
import Verifyhash.Library.Keyed

-- What the change set says about two lists of files, and what a policy which passes protects.
namespace Drift

variable {es recorded current : List Entry} {p k : JsString} {e a b : Entry} {m : List (JsString × Entry)}
  {toLowerCase : JsString → JsString} {policy : Policy}

-- The file which a list names last for a path.
def fileAt (es : List Entry) (p : JsString) : Option Entry :=
  es.reverse.find? (·.path = p)

theorem lookup_setEntry : (setEntry m e).lookup k = if k = e.path then some e else m.lookup k := by
  rw [setEntry]
  by_cases hk : k = e.path
  case pos =>
    subst hk
    rw [if_pos rfl]
    split_ifs with h
    · rw [Fields.lookup_map_ite (k := e.path) (f := fun _ => e), if_pos rfl]
      obtain ⟨b, hb⟩ := Option.isSome_iff_exists.mp h
      rw [hb]
      rfl
    · rw [List.lookup_append, Option.not_isSome_iff_eq_none.mp h, Option.none_or, List.lookup_cons_self]
  case neg =>
    rw [if_neg hk]
    split_ifs with h
    · rw [Fields.lookup_map_ite (k := e.path) (f := fun _ => e), if_neg hk]
    · rw [List.lookup_append, List.lookup_cons, beq_false_of_ne hk]
      exact Option.or_none

theorem lookup_byPath : (byPath es).lookup p = fileAt es p := by
  rw [byPath, fileAt]
  induction es using List.reverseRecOn
  case nil => rfl
  case append_singleton es e ih =>
    rw [List.foldl_append, List.foldl_cons, List.foldl_nil, lookup_setEntry, ih, List.reverse_append, List.reverse_singleton,
      List.singleton_append, List.find?_cons]
    by_cases hp : p = e.path
    · simp [hp]
    · simp [hp, Ne.symm hp]

theorem keys_setEntry : (setEntry m e).map Prod.fst =
    if (m.lookup e.path).isSome then m.map Prod.fst else m.map Prod.fst ++ [e.path] := by
  rw [setEntry]
  split_ifs
  · rw [List.map_map]
    refine List.map_congr_left fun f _ => ?_
    rw [Function.comp_apply]
    split_ifs with h
    · exact h.symm
    · rfl
  · rw [List.map_append]
    rfl

theorem nodup_byPath : ((byPath es).map Prod.fst).Nodup := by
  rw [byPath]
  induction es using List.reverseRecOn
  case nil => exact List.nodup_nil
  case append_singleton es e ih =>
    rw [List.foldl_append, List.foldl_cons, List.foldl_nil, keys_setEntry]
    split_ifs with h
    · exact ih
    · refine List.nodup_append.mpr ⟨ih, List.nodup_singleton _, ?_⟩
      intro k hk l hl he
      obtain rfl := List.mem_singleton.mp hl
      exact h <| Fields.mem_map_fst_iff.mp <| he ▸ hk

theorem mem_byPath : (p, e) ∈ byPath es ↔ fileAt es p = some e := by
  rw [←lookup_byPath]
  exact ⟨Fields.lookup_of_mem nodup_byPath, Fields.mem_of_lookup⟩

theorem mem_sortByPath {path : α → JsString} {l : List α} {x : α} : x ∈ sortByPath path l ↔ x ∈ l :=
  (List.perm_insertionSort ..).mem_iff

theorem pairwise_sortByPath {path : α → JsString} {l : List α} (hn : (l.map path).Nodup) :
    (sortByPath path l).Pairwise fun a b => path a < path b := by
  have ht : Std.Total fun a b => path a ≤ path b := ⟨fun a b => List.le_total ..⟩
  have htrans : IsTrans α fun a b => path a ≤ path b := ⟨fun a b c => List.le_trans⟩
  have hs : (sortByPath path l).Pairwise fun a b => path a ≤ path b := List.pairwise_insertionSort _ l
  have hd : ((sortByPath path l).map path).Nodup := ((List.perm_insertionSort _ l).map path).nodup_iff.mpr hn
  refine (hs.and <| List.pairwise_map.mp hd).imp fun ⟨hle, hne⟩ => ?_
  by_contra hlt
  exact hne <| List.le_antisymm hle <| List.not_lt.mp hlt

-- A selection by paths from the files of a list keeps the paths distinct.
theorem nodup_filterMap {path : α → JsString} {f : JsString × Entry → Option α} (h : ∀ x a, f x = some a → path a = x.fst) :
    (((byPath es).filterMap f).map path).Nodup :=
  (@nodup_byPath es).sublist <| Keyed.map_filterMap_sublist h

-- What a change set is about two lists of files, each path standing for the last file of its name.
structure Exact (toLowerCase : JsString → JsString) (recorded current : List Entry) (d : Diff) : Prop where
  added     : ∀ x, x ∈ d.added ↔ ∃ cur, fileAt current x.path = some cur ∧ fileAt recorded x.path = none ∧
    x.contentHash = cur.contentHash
  removed   : ∀ x, x ∈ d.removed ↔ ∃ rec, fileAt recorded x.path = some rec ∧ fileAt current x.path = none ∧
    x.contentHash = rec.contentHash
  changed   : ∀ x, x ∈ d.changed ↔ ∃ rec cur, fileAt recorded x.path = some rec ∧ fileAt current x.path = some cur ∧
    ¬ sameLeaf toLowerCase rec cur ∧ x.oldContentHash = rec.contentHash ∧ x.newContentHash = cur.contentHash
  unchanged : ∀ x, x ∈ d.unchanged ↔ ∃ rec cur, fileAt recorded x.path = some rec ∧ fileAt current x.path = some cur ∧
    sameLeaf toLowerCase rec cur ∧ x.contentHash = cur.contentHash
  sorted    : (d.added.map Listed.path).Pairwise (· < ·) ∧ (d.removed.map Listed.path).Pairwise (· < ·) ∧
    (d.changed.map Changed.path).Pairwise (· < ·) ∧ (d.unchanged.map Listed.path).Pairwise (· < ·)
  identical : d.identical ↔
    ∀ p, (fileAt recorded p).map (toLowerCase ·.leaf) = (fileAt current p).map (toLowerCase ·.leaf)

theorem diffManifest_exact : Exact toLowerCase recorded current (diffManifest toLowerCase recorded current) := by
  constructor
  case added =>
    intro x
    rw [diffManifest, mem_sortByPath, List.mem_filterMap]
    constructor
    · rintro ⟨⟨p, cur⟩, hm, h⟩
      simp only [lookup_byPath] at h
      cases hr : fileAt recorded p <;> rw [hr] at h
      case some => cases h
      case none =>
        obtain rfl := Option.some_inj.mp h
        exact ⟨cur, mem_byPath.mp hm, hr, rfl⟩
    · rintro ⟨cur, hc, hr, he⟩
      refine ⟨(x.path, cur), mem_byPath.mpr hc, ?_⟩
      simp only [lookup_byPath, hr, ←he]
  case removed =>
    intro x
    rw [diffManifest, mem_sortByPath, List.mem_filterMap]
    constructor
    · rintro ⟨⟨p, rec⟩, hm, h⟩
      simp only [lookup_byPath] at h
      cases hc : fileAt current p <;> rw [hc] at h
      case some => cases h
      case none =>
        obtain rfl := Option.some_inj.mp h
        exact ⟨rec, mem_byPath.mp hm, hc, rfl⟩
    · rintro ⟨rec, hr, hc, he⟩
      refine ⟨(x.path, rec), mem_byPath.mpr hr, ?_⟩
      simp only [lookup_byPath, hc, ←he]
  case changed =>
    intro x
    rw [diffManifest, mem_sortByPath, List.mem_filterMap]
    constructor
    · rintro ⟨⟨p, cur⟩, hm, h⟩
      simp only [lookup_byPath] at h
      cases hr : fileAt recorded p <;> rw [hr] at h
      case none => cases h
      case some rec =>
        dsimp only at h
        split_ifs at h with hs
        obtain rfl := Option.some_inj.mp h
        exact ⟨rec, cur, hr, mem_byPath.mp hm, hs, rfl, rfl⟩
    · rintro ⟨rec, cur, hr, hc, hs, ho, hn⟩
      refine ⟨(x.path, cur), mem_byPath.mpr hc, ?_⟩
      simp only [lookup_byPath, hr, if_neg hs, ←ho, ←hn]
  case unchanged =>
    intro x
    rw [diffManifest, mem_sortByPath, List.mem_filterMap]
    constructor
    · rintro ⟨⟨p, cur⟩, hm, h⟩
      simp only [lookup_byPath] at h
      cases hr : fileAt recorded p <;> rw [hr] at h
      case none => cases h
      case some rec =>
        dsimp only at h
        split_ifs at h with hs
        obtain rfl := Option.some_inj.mp h
        exact ⟨rec, cur, hr, mem_byPath.mp hm, hs, rfl⟩
    · rintro ⟨rec, cur, hr, hc, hs, he⟩
      refine ⟨(x.path, cur), mem_byPath.mpr hc, ?_⟩
      simp only [lookup_byPath, hr, if_pos hs, ←he]
  case sorted =>
    simp only [List.pairwise_map]
    refine ⟨pairwise_sortByPath <| nodup_filterMap ?_, pairwise_sortByPath <| nodup_filterMap ?_,
      pairwise_sortByPath <| nodup_filterMap ?_, pairwise_sortByPath <| nodup_filterMap ?_⟩
    all_goals
      intro f x h
      split at h
      all_goals first
        | cases h; done
        | (split_ifs at h; obtain rfl := Option.some_inj.mp h; rfl)
        | (obtain rfl := Option.some_inj.mp h; rfl)
  case identical =>
    rw [diffManifest]
    simp only [decide_eq_true_eq, List.length_eq_zero_iff, List.filterMap_eq_nil_iff, Prod.forall, mem_byPath, lookup_byPath]
    constructor
    case mp =>
      rintro ⟨ha, hr, hc⟩ p
      have ha := ha p
      have hr := hr p
      have hc := hc p
      cases hrec : fileAt recorded p <;> cases hcur : fileAt current p <;> simp only [hrec, hcur] at ha hr hc
      case none.none => rfl
      case none.some cur => exact absurd (ha cur rfl) <| Option.some_ne_none _
      case some.none rec => exact absurd (hr rec rfl) <| Option.some_ne_none _
      case some.some rec cur =>
        have hs := hc cur rfl
        split_ifs at hs with h
        exact congrArg some <| of_decide_eq_true h
    case mpr =>
      intro h
      refine ⟨fun p cur hcur => ?_, fun p rec hrec => ?_, fun p cur hcur => ?_⟩
      all_goals have h := h p
      · cases hrec : fileAt recorded p
        case none => simp [hcur, hrec] at h
        case some => rfl
      · cases hcur : fileAt current p
        case none => simp [hcur, hrec] at h
        case some => rfl
      · cases hrec : fileAt recorded p
        case none => rfl
        case some rec =>
          rw [hcur, hrec] at h
          exact if_pos <| decide_eq_true <| Option.some_inj.mp h

-- The path begins with the segments of the prefix.
def Under (pre p : JsString) : Prop :=
  (if pre.getLast? = some 47 then pre.dropLast else pre).splitOn 47 <+: p.splitOn 47

theorem intercalate_append {sep s : List α} {l t : List (List α)} (h : l ≠ []) :
    sep.intercalate l ++ sep ++ sep.intercalate (s :: t) = sep.intercalate (l ++ s :: t) := by
  induction l
  case nil => exact absurd rfl h
  case cons x l ih =>
    cases l
    case nil => simp [List.intercalate]
    case cons y l =>
      have := ih <| List.cons_ne_nil y l
      simp only [List.intercalate, List.cons_append, List.intersperse_cons_cons, List.flatten_cons, List.append_assoc] at this ⊢
      rw [this]

theorem underPrefix_iff {pre : JsString} : underPrefix p pre ↔ Under pre p := by
  rw [underPrefix, Under]
  generalize (if pre.getLast? = some 47 then pre.dropLast else pre) = q
  rw [decide_eq_true_eq, List.isPrefixOf_iff_prefix]
  constructor
  case mp =>
    rintro (rfl | ⟨t, rfl⟩)
    · exact List.prefix_refl _
    · rw [List.append_assoc, List.singleton_append, List.splitOn_append_cons_self]
      exact List.prefix_append ..
  case mpr =>
    rintro ⟨t, ht⟩
    have hq : [47].intercalate (q.splitOn 47) = q := List.intercalate_splitOn 47
    have hp : [47].intercalate (q.splitOn 47 ++ t) = p := ht ▸ List.intercalate_splitOn 47
    cases t
    case nil =>
      rw [List.append_nil, hq] at hp
      exact .inl hp.symm
    case cons s t =>
      refine .inr ⟨[47].intercalate (s :: t), ?_⟩
      rw [←hp, ←intercalate_append (List.splitOn_ne_nil _ _), hq]

-- What a policy allows to change between two lists of files.
structure Allows (toLowerCase : JsString → JsString) (policy : Policy) (recorded current : List Entry) : Prop where
  added   : policy.noAdded → ∀ p, (fileAt current p).isSome → (fileAt recorded p).isSome
  removed : policy.noRemoved → ∀ p, (fileAt recorded p).isSome → (fileAt current p).isSome
  changed : policy.noChanged → ∀ p rec cur, fileAt recorded p = some rec → fileAt current p = some cur →
    sameLeaf toLowerCase rec cur
  allowed : policy.allowChangePaths ≠ [] → ∀ p rec cur, fileAt recorded p = some rec → fileAt current p = some cur →
    ¬ sameLeaf toLowerCase rec cur → ∃ pre ∈ policy.allowChangePaths, Under pre p
  frozen  : ∀ pre ∈ policy.frozenPaths, ∀ p rec, Under pre p → fileAt recorded p = some rec →
    ∃ cur, fileAt current p = some cur ∧ sameLeaf toLowerCase rec cur

theorem violated_eq_nil {test : Bool} {rule : Rule} {change : Change} : violated test p rule change = [] ↔ ¬ test := by
  rw [violated]
  split_ifs with h <;> simp [h]

theorem any_underPrefix {l : List JsString} : l.any (underPrefix p) ↔ ∃ pre ∈ l, Under pre p := by
  rw [List.any_eq_true]
  exact exists_congr fun pre => and_congr_right fun _ => underPrefix_iff

theorem evaluateDriftPolicy_pass {d : Diff} : (evaluateDriftPolicy d policy).pass ↔
    (∀ x ∈ d.added, ¬ policy.noAdded) ∧
      (∀ x ∈ d.removed, ¬ policy.noRemoved ∧ ¬ ∃ pre ∈ policy.frozenPaths, Under pre x.path) ∧
      ∀ x ∈ d.changed, (¬ policy.noChanged ∧
        (policy.allowChangePaths ≠ [] → ∃ pre ∈ policy.allowChangePaths, Under pre x.path)) ∧
        ¬ ∃ pre ∈ policy.frozenPaths, Under pre x.path := by
  rw [evaluateDriftPolicy]
  dsimp only
  simp only [decide_eq_true_eq, List.length_eq_zero_iff, List.append_eq_nil_iff, List.flatMap_eq_nil_iff, violated_eq_nil,
    any_underPrefix, List.isEmpty_iff, not_and, not_not, and_assoc]

-- The gate passes exactly if the policy allows what has changed.
theorem evaluateDriftPolicy_pass_iff :
    (evaluateDriftPolicy (diffManifest toLowerCase recorded current) policy).pass ↔
      Allows toLowerCase policy recorded current := by
  have d := @diffManifest_exact recorded current toLowerCase
  rw [evaluateDriftPolicy_pass]
  constructor
  case mp =>
    rintro ⟨ha, hr, hc⟩
    constructor
    case added =>
      intro hn p hs
      by_contra hp
      obtain ⟨cur, hcur⟩ := Option.isSome_iff_exists.mp hs
      exact ha ⟨p, cur.contentHash⟩ ((d.added _).mpr ⟨cur, hcur, Option.not_isSome_iff_eq_none.mp hp, rfl⟩) hn
    case removed =>
      intro hn p hs
      by_contra hp
      obtain ⟨rec, hrec⟩ := Option.isSome_iff_exists.mp hs
      exact (hr ⟨p, rec.contentHash⟩ <| (d.removed _).mpr ⟨rec, hrec, Option.not_isSome_iff_eq_none.mp hp, rfl⟩).left hn
    case changed =>
      intro hn p rec cur hrec hcur
      by_contra hs
      have hm := (d.changed ⟨p, rec.contentHash, cur.contentHash⟩).mpr ⟨rec, cur, hrec, hcur, hs, rfl, rfl⟩
      exact (hc _ hm).left.left hn
    case allowed =>
      intro hn p rec cur hrec hcur hs
      have hm := (d.changed ⟨p, rec.contentHash, cur.contentHash⟩).mpr ⟨rec, cur, hrec, hcur, hs, rfl, rfl⟩
      exact (hc _ hm).left.right hn
    case frozen =>
      intro pre hpre p rec hu hrec
      cases hcur : fileAt current p
      case none =>
        have hm := (d.removed ⟨p, rec.contentHash⟩).mpr ⟨rec, hrec, hcur, rfl⟩
        exact absurd ⟨pre, hpre, hu⟩ (hr _ hm).right
      case some cur =>
        refine ⟨cur, rfl, ?_⟩
        by_contra hs
        have hm := (d.changed ⟨p, rec.contentHash, cur.contentHash⟩).mpr ⟨rec, cur, hrec, hcur, hs, rfl, rfl⟩
        exact (hc _ hm).right ⟨pre, hpre, hu⟩
  case mpr =>
    intro h
    refine ⟨fun x hx hn => ?_, fun x hx => ⟨fun hn => ?_, ?_⟩, fun x hx => ⟨⟨fun hn => ?_, fun hn => ?_⟩, ?_⟩⟩
    · obtain ⟨cur, hcur, hrec, -⟩ := (d.added x).mp hx
      have := h.added hn x.path <| hcur ▸ rfl
      simp [hrec] at this
    · obtain ⟨rec, hrec, hcur, -⟩ := (d.removed x).mp hx
      have := h.removed hn x.path <| hrec ▸ rfl
      simp [hcur] at this
    · rintro ⟨pre, hpre, hu⟩
      obtain ⟨rec, hrec, hcur, -⟩ := (d.removed x).mp hx
      obtain ⟨cur, hcur', -⟩ := h.frozen pre hpre x.path rec hu hrec
      simp [hcur] at hcur'
    · obtain ⟨rec, cur, hrec, hcur, hs, -⟩ := (d.changed x).mp hx
      exact hs <| h.changed hn x.path rec cur hrec hcur
    · obtain ⟨rec, cur, hrec, hcur, hs, -⟩ := (d.changed x).mp hx
      exact h.allowed hn x.path rec cur hrec hcur hs
    · rintro ⟨pre, hpre, hu⟩
      obtain ⟨rec, cur, hrec, hcur, hs, -⟩ := (d.changed x).mp hx
      obtain ⟨cur', hcur', hs'⟩ := h.frozen pre hpre x.path rec hu hrec
      obtain rfl := Option.some_inj.mp <| hcur.symm.trans hcur'
      exact hs hs'

end Drift

import Mathlib

-- Lists of named fields, where the first field with a name hides the later ones.
namespace Fields

variable {κ β γ : Type*}

section

variable [BEq κ] [LawfulBEq κ] {fs : List (κ × β)}

omit [LawfulBEq κ] in
theorem lookup_map {g : β → γ} :
    (fs.map fun f => (f.fst, g f.snd)).lookup k = (fs.lookup k).map g := by
  induction fs
  case nil => rfl
  case cons f fs ih =>
    rw [List.map_cons, List.lookup_cons, List.lookup_cons, ih]
    cases k == f.fst <;> rfl

-- A lookup after the values of one name are replaced.
theorem lookup_map_ite [DecidableEq κ] {f : β → β} :
    (fs.map fun e => if e.fst = k then (k, f e.snd) else e).lookup k' =
      if k' = k then (fs.lookup k').map f else fs.lookup k' := by
  induction fs
  case nil => simp
  case cons e fs ih =>
    rw [List.map_cons, List.lookup_cons, List.lookup_cons, ih]
    by_cases hk : k' = e.fst
    case pos =>
      subst hk
      by_cases he : e.fst = k
      case pos => simp [he]
      case neg => simp [he]
    case neg =>
      have hb : (k' == e.fst) = false := beq_false_of_ne hk
      by_cases he : e.fst = k
      case pos =>
        have hk' : (k' == k) = false := by rw [←he]; exact hb
        simp only [he, if_true, hk']
      case neg => simp only [he, if_false, hb]

theorem mem_map_fst_iff : k ∈ fs.map Prod.fst ↔ (fs.lookup k).isSome := by
  rw [List.lookup_isSome_iff, List.mem_map]
  exact exists_congr fun _ => and_congr_right fun _ => by rw [beq_iff_eq, eq_comm]

theorem mem_of_lookup (h : fs.lookup k = some b) : (k, b) ∈ fs := by
  obtain ⟨l₁, l₂, rfl, _⟩ := List.lookup_eq_some_iff.mp h
  simp

theorem lookup_of_mem (hn : (fs.map Prod.fst).Nodup) (h : (k, b) ∈ fs) : fs.lookup k = some b := by
  obtain ⟨l₁, l₂, rfl⟩ := List.append_of_mem h
  refine List.lookup_eq_some_iff.mpr ⟨l₁, l₂, rfl, fun f hf => ?_⟩
  rw [List.map_append, List.nodup_append] at hn
  have := hn.right.right _ (List.mem_map_of_mem hf) k (by simp)
  simpa using this.symm

theorem lookup_filterMap {ks : List κ} {f : κ → Option β} (hn : ∀ k ∉ ks, f k = none) :
    (ks.filterMap fun k => (f k).map (k, ·)).lookup k = f k := by
  have (ks : List κ) : (ks.filterMap fun k => (f k).map (k, ·)).lookup k =
      (ks.find? (k == ·)).bind f := by
    induction ks
    case nil => rfl
    case cons k' ks ih =>
      rw [List.find?_cons]
      cases hk : k == k'
      case false => cases hf : f k' <;> simp [hf, ih, hk, List.lookup_cons]
      case true =>
        obtain rfl := eq_of_beq hk
        cases hf : f k
        case none =>
          simp only [hf, List.filterMap_cons, Option.map_none, ih, Option.bind_some]
          cases h : ks.find? (k == ·)
          case none => rfl
          case some => rw [Option.bind_some, ←eq_of_beq (List.find?_some h), hf]
        case some => simp [hf]
  rw [this]
  cases h : ks.find? (k == ·)
  case none =>
    refine (hn k fun hk => ?_).symm
    simpa using List.find?_eq_none.mp h k hk
  case some => rw [Option.bind_some, ←eq_of_beq (List.find?_some h)]

end

section

variable [DecidableEq κ]

def keys (fs : List (κ × β)) : List κ :=
  (fs.map Prod.fst).dedup

variable [BEq κ]

-- The fields which have a value, each name once, in a given order of the names.
def arrange (order : List κ → List κ) (fs : List (κ × Option β)) : List (κ × β) :=
  (order <| keys fs).filterMap fun k => (fs.lookup k).join.map (k, ·)

theorem mem_keys [LawfulBEq κ] {fs : List (κ × β)} : k ∈ keys fs ↔ (fs.lookup k).isSome := by
  simp [keys, List.lookup_isSome_iff]

omit [BEq κ] in
theorem keys_map {g : β → γ} {fs : List (κ × β)} : keys (fs.map fun f => (f.fst, g f.snd)) = keys fs := by
  simp [keys, Function.comp_def]

variable [LawfulBEq κ] {order : List κ → List κ} {fs : List (κ × Option β)}

theorem lookup_arrange (h : ∀ ks, (order ks).Perm ks) :
    (arrange order fs).lookup k = (fs.lookup k).join := by
  refine lookup_filterMap fun k hk => ?_
  rw [(h _).mem_iff, mem_keys, Option.not_isSome_iff_eq_none] at hk
  rw [hk]
  rfl

omit [LawfulBEq κ] in
variable (fs) in
theorem nodup_arrange (h : ∀ ks, (order ks).Perm ks) : ((arrange order fs).map Prod.fst).Nodup := by
  have : (arrange order fs).map Prod.fst = (order <| keys fs).filter fun k => (fs.lookup k).join.isSome := by
    rw [arrange, List.map_filterMap, ←List.filterMap_eq_filter]
    congr 1
    funext k
    cases h : (fs.lookup k).join <;> simp [Option.guard, h]
  rw [this]
  exact .filter _ <| (h _).nodup_iff.mpr <| List.nodup_dedup _

theorem mem_arrange (h : ∀ ks, (order ks).Perm ks) {f : κ × β} (hf : f ∈ arrange order fs) :
    fs.lookup f.fst = some (some f.snd) := by
  have := lookup_of_mem (nodup_arrange fs h) hf
  rwa [lookup_arrange h, Option.join_eq_some_iff] at this

theorem mem_arrange_of_lookup (h : ∀ ks, (order ks).Perm ks) (hk : fs.lookup k = some (some b)) :
    (k, b) ∈ arrange order fs :=
  mem_of_lookup <| by rw [lookup_arrange h, hk, Option.join_some]

omit [LawfulBEq κ] in
variable (order) in
theorem arrange_congr (fs : List (κ × β)) {g h : β → Option γ}
    (he : ∀ k b, fs.lookup k = some b → g b = h b) :
    arrange order (fs.map fun f => (f.fst, g f.snd)) =
      arrange order (fs.map fun f => (f.fst, h f.snd)) := by
  rw [arrange, arrange, keys_map, keys_map]
  congr 1
  funext k
  rw [lookup_map, lookup_map]
  cases hk : fs.lookup k
  case none => rfl
  case some => rw [Option.map_some, Option.map_some, he k _ hk]

omit [LawfulBEq κ] in
theorem arrange_map {g : β → γ} : arrange order (fs.map fun f => (f.fst, f.snd.map g)) =
    (arrange order fs).map fun f => (f.fst, g f.snd) := by
  rw [arrange, arrange, keys_map, List.map_filterMap]
  congr 1
  funext k
  rw [lookup_map]
  rcases fs.lookup k with _ | _ | _ <;> rfl

-- Fields which are in their order stay as they are.
theorem arrange_self {fs : List (κ × β)} (hn : (fs.map Prod.fst).Nodup)
    (ho : order (fs.map Prod.fst) = fs.map Prod.fst) : arrange order (fs.map fun f => (f.fst, some f.snd)) = fs := by
  have hk : keys (fs.map fun f => (f.fst, some f.snd)) = fs.map Prod.fst := by
    rw [keys_map, keys, hn.dedup]
  rw [arrange, hk, ho, List.filterMap_map]
  refine (List.filterMap_congr fun f hf => ?_).trans List.filterMap_some
  rw [Function.comp_apply, lookup_map, lookup_of_mem hn hf]
  rfl

end

section

variable [DecidableEq κ] [BEq κ] [LawfulBEq κ] (r : κ → κ → Prop) [DecidableRel r]

def sorted (fs : List (κ × Option β)) : List (κ × β) :=
  arrange (·.insertionSort r) fs

variable {r} [Std.Total r] [IsTrans κ r] [Std.Antisymm r]

-- What the names stand for fixes the sorted list.
theorem sorted_congr {fs gs : List (κ × Option β)} (h : ∀ k, (fs.lookup k).join = (gs.lookup k).join) :
    sorted r fs = sorted r gs := by
  have hs (fs : List (κ × Option β)) : sorted r fs =
      (((keys fs).insertionSort r).filter fun k => (fs.lookup k).join.isSome).filterMap
        fun k => (fs.lookup k).join.map (k, ·) := by
    rw [sorted, arrange, List.filterMap_filter]
    congr 1
    funext k
    cases (fs.lookup k).join <;> rfl
  have hp (fs : List (κ × Option β)) := (List.pairwise_insertionSort r <| keys fs).filter
    fun k => (fs.lookup k).join.isSome
  have hm (fs : List (κ × Option β)) (k) : k ∈ ((keys fs).insertionSort r).filter
      (fun k => (fs.lookup k).join.isSome) ↔ (fs.lookup k).join.isSome := by
    rw [List.mem_filter, List.mem_insertionSort, mem_keys]
    cases fs.lookup k <;> simp
  have hn (fs : List (κ × Option β)) : (((keys fs).insertionSort r).filter
      fun k => (fs.lookup k).join.isSome).Nodup :=
    .filter _ <| (List.perm_insertionSort ..).nodup_iff.mpr <| List.nodup_dedup _
  have : ((keys fs).insertionSort r).filter (fun k => (fs.lookup k).join.isSome) =
      ((keys gs).insertionSort r).filter fun k => (gs.lookup k).join.isSome := by
    refine List.Perm.eq_of_pairwise (fun a b _ _ => antisymm) (hp fs) (hp gs) ?_
    refine List.perm_of_nodup_nodup_toFinset_eq (hn fs) (hn gs) ?_
    ext k
    rw [List.mem_toFinset, List.mem_toFinset, hm, hm, h]
  rw [hs, hs, this]
  congr 1
  funext k
  rw [h]

end

end Fields

import Verifyhash.Library.Fallible
import Verifyhash.Library.Fields

-- Lists whose elements have distinct keys, and the differences of two of them.
namespace Keyed

open Fallible

-- A loop which checks every element after the keys of those before it.
def each (check : List κ → α → Except ε Unit) (key : α → κ) : List κ → List α → Except ε Unit
  | _, []         => .ok ()
  | seen, a :: as => do
    check seen a
    each check key (key a :: seen) as

-- The loop succeeds if every element passes its check, and no key is repeated.
theorem each_eq_ok {check : List κ → α → Except ε Unit} {key : α → κ} {P : α → Prop} {as : List α} {seen : List κ}
    (h : ∀ seen a, check seen a = .ok () ↔ P a ∧ key a ∉ seen) :
    each check key seen as = .ok () ↔ (∀ a ∈ as, P a) ∧ (as.map key).Nodup ∧ ∀ a ∈ as, key a ∉ seen := by
  induction as generalizing seen
  case nil => exact ⟨fun _ => by simp, fun _ => rfl⟩
  case cons a as ih =>
    simp only [each, bind_eq_ok, h, ih, List.forall_mem_cons, List.map_cons, List.nodup_cons]
    simp only [List.mem_cons, List.mem_map, not_or]
    constructor
    case mp =>
      rintro ⟨_, ⟨ha, hs⟩, has, hd, hs'⟩
      refine ⟨⟨ha, has⟩, ⟨?_, hd⟩, hs, fun b hb => (hs' b hb).right⟩
      rintro ⟨b, hb, hk⟩
      exact (hs' b hb).left hk
    case mpr =>
      rintro ⟨⟨ha, has⟩, ⟨hk, hd⟩, hs, hs'⟩
      exact ⟨(), ⟨ha, hs⟩, has, hd, fun b hb => ⟨fun h => hk ⟨b, hb, h⟩, hs' b hb⟩⟩

section

variable {key : α → κ} {l : List α}

theorem find?_eq_some [DecidableEq κ] (hn : (l.map key).Nodup) (ha : a ∈ l) :
    l.find? (fun b => key b = key a) = some a := by
  have hs : (l.find? fun b => key b = key a).isSome := List.find?_isSome.mpr ⟨a, ha, by simp⟩
  obtain ⟨b, hb⟩ := Option.isSome_iff_exists.mp hs
  have hk : key b = key a := by simpa using List.find?_some hb
  rw [hb, List.inj_on_of_nodup_map hn (List.mem_of_find?_eq_some hb) ha hk]

-- A selection which leaves the keys alone keeps their order.
theorem map_filterMap_sublist {f : α → Option β} {key' : β → κ} (h : ∀ a b, f a = some b → key' b = key a) :
    ((l.filterMap f).map key').Sublist (l.map key) := by
  induction l
  case nil => exact .slnil
  case cons a l ih =>
    cases ha : f a
    case none => simpa [List.filterMap_cons, ha] using ih.cons _
    case some b => simpa [List.filterMap_cons, ha, h a b ha] using ih

-- A function which covers a list by itself, and which is idempotent where it does not shorten, fixes every
-- element of the list.
theorem fixed_of_covers {f : α → α} {size : α → ℕ} (hl : ∀ a, size (f a) ≤ size a)
    (hf : ∀ a, size (f a) = size a → f (f a) = f a) (h : ∀ a ∈ l, ∃ b ∈ l, f b = a) : ∀ a ∈ l, f a = a := by
  obtain ⟨m, hm⟩ := (l.map size).toFinset.exists_le
  -- The induction goes down from the longest elements.
  have hk (k : ℕ) : ∀ a ∈ l, m - size a = k → f a = a := by
    induction k using Nat.strong_induction_on
    case h k ih =>
      intro a ha hk
      obtain ⟨b, hb, rfl⟩ := h a ha
      by_cases hs : size (f b) = size b
      case pos => exact hf b hs
      case neg =>
        have := hl b
        have := hm (size b) <| by simpa using ⟨b, hb, rfl⟩
        have hb := ih (m - size b) (by omega) b hb rfl
        rw [hb, hb]
  exact fun a ha => hk _ a ha rfl

end

section

variable [BEq κ] [LawfulBEq κ] {fs gs : List (κ × β)}

theorem lookup_eq_some_iff (hn : (fs.map Prod.fst).Nodup) : fs.lookup k = some b ↔ (k, b) ∈ fs :=
  ⟨Fields.mem_of_lookup, Fields.lookup_of_mem hn⟩

theorem lookup_isNone_iff : (fs.lookup k).isNone ↔ k ∉ fs.map Prod.fst := by
  rw [Fields.mem_map_fst_iff]
  cases fs.lookup k <;> simp

omit [BEq κ] [LawfulBEq κ] in
-- Two lists hold the same fields if no field of the first one is missing or changed in the second one, and
-- the second one has no other names.
theorem mem_iff_of_no_difference
    (hc : ∀ k b c, (k, b) ∈ fs → (k, c) ∈ gs → b = c) (hm : ∀ k ∈ fs.map Prod.fst, k ∈ gs.map Prod.fst)
    (hu : ∀ k ∈ gs.map Prod.fst, k ∈ fs.map Prod.fst) (f : κ × β) : f ∈ fs ↔ f ∈ gs := by
  obtain ⟨k, b⟩ := f
  constructor
  case mp =>
    intro h
    obtain ⟨⟨_, c⟩, hc', rfl⟩ := List.mem_map.mp <| hm k <| List.mem_map_of_mem h
    rwa [hc _ _ _ h hc']
  case mpr =>
    intro h
    obtain ⟨⟨_, c⟩, hc', rfl⟩ := List.mem_map.mp <| hu k <| List.mem_map_of_mem h
    rwa [←hc _ _ _ hc' h]

end

end Keyed

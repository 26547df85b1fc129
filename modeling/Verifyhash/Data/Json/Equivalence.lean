import Verifyhash.Data.Json.Canonical

-- Values which are equal up to the order of the keys of objects.
namespace Json

-- `m === n`
def equals : Number → Number → Bool
  | .nan, _           => false
  | .negZero, n       => n = .negZero ∨ n = .finite 0
  | .finite q, .negZero => q = 0
  | m, n              => m = n

inductive SameUpToKeys : Value → Value → Prop
  | null   : SameUpToKeys .null .null
  | bool   : SameUpToKeys (.bool b) (.bool b)
  | number : equals m n → SameUpToKeys (.number m) (.number n)
  | string : SameUpToKeys (.string s) (.string s)
  | array  : List.Forall₂ SameUpToKeys vs ws → SameUpToKeys (.array vs) (.array ws)
  | object : (∀ k, Option.Rel SameUpToKeys (fs.lookup k) (gs.lookup k)) → SameUpToKeys (.object fs) (.object gs)

theorem tidyField_eq_of_strict (h : Strict v) : tidyField order v = some (tidy order v) := by
  have hu : v.isUndefined = false := by
    rw [←Bool.not_eq_true, Value.isUndefined_iff]
    exact h.serializable.ne_undefined
  simp [tidyField, hu]

theorem lookup_tidyFields (h : ∀ k v, fs.lookup k = some v → Strict v) (k : JsString) :
    ((tidyFields order fs).lookup k).join = (fs.lookup k).map (tidy order) := by
  rw [tidyFields_eq, Fields.lookup_map]
  cases hk : fs.lookup k
  case none   => rfl
  case some v => rw [Option.map_some, tidyField_eq_of_strict (h k v hk), Option.join_some, Option.map_some]

theorem map_eq_map_iff {f : α → β} {R : α → α → Prop} {l l' : List α}
    (h : ∀ a ∈ l, ∀ b ∈ l', f a = f b ↔ R a b) : l.map f = l'.map f ↔ List.Forall₂ R l l' := by
  rw [←List.forall₂_eq_eq_eq, List.forall₂_map_left_iff, List.forall₂_map_right_iff, List.forall₂_iff_zip,
    List.forall₂_iff_zip]
  refine and_congr_right fun _ => forall₂_congr fun a b => imp_congr_right fun hm => ?_
  exact h a (List.of_mem_zip hm).left b (List.of_mem_zip hm).right

theorem option_map_eq_map_iff {f : α → β} {R : α → α → Prop} {o o' : Option α}
    (h : ∀ a ∈ o, ∀ b ∈ o', f a = f b ↔ R a b) : o.map f = o'.map f ↔ Option.Rel R o o' := by
  cases o <;> cases o' <;> simp_all

theorem tidy_number_eq_iff (hm : Strict (.number m)) (hn : Strict (.number n)) :
    tidy order (.number m) = tidy order (.number n) ↔ equals m n := by
  cases hm <;> cases hn <;> simp [tidy, equals]
  case negZero.number => exact eq_comm

-- Sorting the keys tells exactly the values apart which are not equal up to the order of keys.
theorem tidy_eq_iff (hv : Strict v) (hw : Strict w) :
    tidy sortedOrder v = tidy sortedOrder w ↔ SameUpToKeys v w := by
  induction v using Value.ind generalizing w
  case undefined => cases hv
  case null =>
    refine ⟨fun h => ?_, fun h => by cases h; rfl⟩
    cases hw <;> simp [tidy] at h
    exact .null
  case bool b =>
    refine ⟨fun h => ?_, fun h => by cases h; rfl⟩
    cases hw <;> simp [tidy] at h
    exact h ▸ .bool
  case string s =>
    refine ⟨fun h => ?_, fun h => by cases h; rfl⟩
    cases hw <;> simp [tidy] at h
    exact h ▸ .string
  case number m =>
    refine ⟨fun h => ?_, fun h => ?_⟩
    · obtain ⟨n, rfl⟩ : ∃ n, w = .number n := by
        cases hv <;> cases hw <;> simp [tidy] at h ⊢
      exact .number <| (tidy_number_eq_iff hv hw).mp h
    · obtain _ | _ | h := h
      exact (tidy_number_eq_iff hv hw).mpr h
  case array vs ih =>
    have hvs : ∀ v ∈ vs, Strict v := by
      cases hv
      assumption
    refine ⟨fun h => ?_, fun h => ?_⟩
    · cases hw <;> simp only [tidy, reduceCtorEq, Value.array.injEq, tidyElems_eq] at h
      case array ws hws =>
        exact .array <| (map_eq_map_iff fun v hv w hw => ih v hv (hvs v hv) (hws w hw)).mp h
    · obtain _ | _ | _ | _ | @⟨_, ws, h⟩ := h
      cases hw
      case array hws =>
        rw [tidy, tidy, tidyElems_eq, tidyElems_eq]
        exact congrArg _ <| (map_eq_map_iff fun v hv w hw => ih v hv (hvs v hv) (hws w hw)).mpr h
  case object fs ih =>
    have hfs : ∀ k v, fs.lookup k = some v → Strict v := by
      cases hv
      assumption
    have hrel {gs : List (JsString × Value)} (hgs : ∀ k v, gs.lookup k = some v → Strict v) (k : JsString) :
        (fs.lookup k).map (tidy sortedOrder) = (gs.lookup k).map (tidy sortedOrder) ↔
          Option.Rel SameUpToKeys (fs.lookup k) (gs.lookup k) :=
      option_map_eq_map_iff fun v hv w hw => ih _ (Fields.mem_of_lookup hv) (hfs k v hv) (hgs k w hw)
    refine ⟨fun h => ?_, fun h => ?_⟩
    · cases hw <;> simp only [tidy, reduceCtorEq, Value.object.injEq] at h
      case object gs hgs =>
        refine .object fun k => (hrel hgs k).mp ?_
        rw [←lookup_tidyFields hfs, ←lookup_tidyFields hgs, ←Fields.lookup_arrange sortedOrder_perm,
          ←Fields.lookup_arrange sortedOrder_perm, h]
    · obtain _ | _ | _ | _ | _ | @⟨_, gs, h⟩ := h
      cases hw
      case object hgs =>
        rw [tidy, tidy, Value.object.injEq]
        refine Fields.sorted_congr fun k => ?_
        rw [lookup_tidyFields hfs, lookup_tidyFields hgs]
        exact (hrel hgs k).mpr <| h k

end Json

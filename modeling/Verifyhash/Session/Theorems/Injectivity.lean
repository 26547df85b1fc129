import Verifyhash.Data.Json.Equivalence
import Verifyhash.Journal.Theorems.Canonicalize
import Verifyhash.Library.Budget
import Verifyhash.Session.Theorems.Canonical

-- Canonical texts tell values apart.
namespace AgentSession

open Json Value Budget

mutual

-- How deep the values in a value are nested.
def height : Value → ℕ
  | .array elems   => ((heightElems elems).map (· + 1)).foldr max 0
  | .object fields => ((Fields.arrange sortedOrder <| heightFields fields).map (·.snd + 1)).foldr max 0
  | _              => 0

def heightElems : List Value → List ℕ
  | []      => []
  | v :: vs => height v :: heightElems vs

def heightFields : List (JsString × Value) → List (JsString × Option ℕ)
  | []           => []
  | (k, v) :: fs => (k, some (height v)) :: heightFields fs

end

mutual

-- The number of the values in a value, which is counted itself.
def size : Value → ℕ
  | .array elems   => 1 + (sizeElems elems).sum
  | .object fields => 1 + ((Fields.arrange sortedOrder <| sizeFields fields).map (·.snd)).sum
  | _              => 1

def sizeElems : List Value → List ℕ
  | []      => []
  | v :: vs => size v :: sizeElems vs

def sizeFields : List (JsString × Value) → List (JsString × Option ℕ)
  | []           => []
  | (k, v) :: fs => (k, some (size v)) :: sizeFields fs

end

@[simp]
theorem heightElems_eq : heightElems vs = vs.map height := by
  induction vs <;> simp_all [heightElems]

@[simp]
theorem heightFields_eq : heightFields fs = fs.map fun f => (f.fst, some (height f.snd)) := by
  induction fs <;> simp_all [heightFields]

@[simp]
theorem sizeElems_eq : sizeElems vs = vs.map size := by
  induction vs <;> simp_all [sizeElems]

@[simp]
theorem sizeFields_eq : sizeFields fs = fs.map fun f => (f.fst, some (size f.snd)) := by
  induction fs <;> simp_all [sizeFields]

-- The fields which are visited.
def members (fields : List (JsString × Value)) : List (JsString × Value) :=
  Fields.arrange sortedOrder <| fields.map fun f => (f.fst, some f.snd)

section

variable {fields : List (JsString × Value)}

theorem arrange_members (g : Value → α) : Fields.arrange sortedOrder (fields.map fun f => (f.fst, some (g f.snd))) =
    (members fields).map fun f => (f.fst, g f.snd) := by
  rw [members, ←Fields.arrange_map, List.map_map]
  rfl

theorem lookup_of_mem_members (h : f ∈ members fields) : fields.lookup f.fst = some f.snd := by
  have := Fields.mem_arrange sortedOrder_perm h
  rw [Fields.lookup_map, Option.map_eq_some_iff] at this
  obtain ⟨v, hv, h⟩ := this
  rw [hv, h]

theorem tidy_object (h : ∀ k v, fields.lookup k = some v → Strict v) :
    tidy sortedOrder (object fields) = object ((members fields).map fun f => (f.fst, tidy sortedOrder f.snd)) := by
  rw [tidy, tidyFields_eq, ←arrange_members]
  exact congrArg _ <| Fields.arrange_congr sortedOrder fields fun k v hk => tidyField_eq_of_strict <| h k v hk

end

-- The bound on the depth of the values in a list.
theorem depth_le_iff {l : List α} {f : α → ℕ} : depth + (l.map (f · + 1)).foldr max 0 ≤ m ↔
    depth ≤ m ∧ ∀ a ∈ l, depth + 1 + f a ≤ m := by
  induction l
  case nil => simp
  case cons a l ih =>
    have hm (b c : ℕ) : depth + max (b + 1) c ≤ m ↔ depth + 1 + b ≤ m ∧ depth + c ≤ m := by omega
    rw [List.map_cons, List.foldr_cons, hm, ih, List.forall_mem_cons, and_left_comm]

theorem visit_spends : Spends META_MAX_NODES (visit depth) (depth ≤ META_MAX_DEPTH) 1 () where
  returns {n} h hn := by
    have hn : n < META_MAX_NODES := hn
    simp [visit, guard, h, hn]
  fails {n} _ h := by
    by_cases hd : depth ≤ META_MAX_DEPTH
    case pos =>
      have hn : ¬ n < META_MAX_NODES := fun hn => h ⟨hd, hn⟩
      simp [visit, guard, hd, hn]
    case neg => simp [visit, guard, hd]

theorem leaf_spends (t : JsString) :
    Spends META_MAX_NODES (do visit depth; return t) (depth + 0 ≤ META_MAX_DEPTH) 1 t :=
  visit_spends.returning fun _ => t

theorem canonicalJson_spends {v : Value} (h : Strict v) : Spends META_MAX_NODES (canonicalJson v depth)
    (depth + height v ≤ META_MAX_DEPTH) (size v) (render <| tidy sortedOrder v) := by
  induction v using Value.ind generalizing depth
  case undefined => cases h
  case null => exact leaf_spends _
  case bool => exact leaf_spends _
  case string => exact leaf_spends _
  case number => cases h <;> exact leaf_spends _
  case array elems ih =>
    obtain _ | _ | _ | _ | _ | h := h
    have hm := Spends.mapM fun v hv => @ih v hv (depth + 1) (h v hv)
    rw [canonicalJson, canonicalElems_eq, tidy, render, tidyElems_eq, renderElems_eq, List.map_map]
    refine (visit_spends.bind <| hm.returning fun parts => js "[" ++ join parts ++ js "]").congr ?_ ?_
    · rw [height, heightElems_eq, List.map_map]
      exact depth_le_iff.symm
    · rw [size, sizeElems_eq]
  case object fields ih =>
    obtain _ | _ | _ | _ | _ | _ | h := h
    have hm : Spends META_MAX_NODES
        ((members fields).mapM fun f => do return (f.fst, ← canonicalJson f.snd (depth + 1)))
        (∀ f ∈ members fields, depth + 1 + height f.snd ≤ META_MAX_DEPTH)
        ((members fields).map fun f => size f.snd).sum
        ((members fields).map fun f => (f.fst, render <| tidy sortedOrder f.snd)) :=
      .mapM fun f hf =>
        have hl := lookup_of_mem_members hf
        (ih f (Fields.mem_of_lookup hl) (h _ _ hl)).returning (f.fst, ·)
    have ht : js "\x7b" ++ joinFields ((members fields).map fun f => (f.fst, render <| tidy sortedOrder f.snd)) ++
        js "\x7d" = render (tidy sortedOrder (object fields)) := by
      have := @joinFields_eq <| (members fields).map fun f => (f.fst, tidy sortedOrder f.snd)
      rw [List.map_map] at this
      rw [tidy_object h, render, renderFields_eq, ←this]
      rfl
    rw [canonicalJson, canonicalFields_eq, arrange_members (canonicalJson · (depth + 1)), List.mapM_map, ←ht]
    refine (visit_spends.bind <| hm.returning fun parts => js "\x7b" ++ joinFields parts ++ js "\x7d").congr ?_ ?_
    · rw [height, heightFields_eq, arrange_members, List.map_map]
      exact depth_le_iff.symm
    · rw [size, sizeFields_eq, arrange_members, List.map_map]
      rfl

-- A value which is too deep, or has too many values, when `n` of them have been visited before.
def Beyond (v : Value) (depth n : ℕ) : Prop :=
  META_MAX_DEPTH < depth + height v ∨ META_MAX_NODES < n + size v

section

variable {x y : Value}

theorem run_canonicalJson_of_spent (h : META_MAX_NODES ≤ n) (v : Value) : (canonicalJson v depth).run n = none := by
  have hv {β : Type} (f : Unit → StateT ℕ Option β) : (visit depth >>= f).run n = none := by
    rw [StateT.run_bind]
    by_cases hd : depth ≤ META_MAX_DEPTH <;> simp [visit, guard, hd, Nat.not_lt.mpr h]
  cases v
  case undefined => rfl
  all_goals exact hv _

-- A value of the format has a text if it is within the limits, and none otherwise.
theorem run'_canonicalJson (h : Strict x) (depth n : ℕ) :
    (¬ Beyond x depth n → (canonicalJson x depth).run' n = some (render <| tidy sortedOrder x)) ∧
      (Beyond x depth n → (canonicalJson x depth).run' n = none) := by
  have hs : Spends META_MAX_NODES (canonicalJson x depth) _ _ _ := canonicalJson_spends h
  refine ⟨fun hb => ?_, fun hb => ?_⟩
  · rw [Beyond, not_or, Nat.not_lt, Nat.not_lt] at hb
    exact congrArg (Option.map Prod.fst) (hs.returns hb.left hb.right)
  · have hr : (canonicalJson x depth).run n = none := by
      by_cases hn : n ≤ META_MAX_NODES
      case pos =>
        refine hs.fails hn fun ⟨hd, hz⟩ => ?_
        exact hb.elim (Nat.not_lt.mpr hd) (Nat.not_lt.mpr hz)
      case neg => exact run_canonicalJson_of_spent (by omega) x
    exact congrArg (Option.map Prod.fst) hr

theorem strict_of_plain (h : Plain x) : Strict x := by
  induction h
  case null         => exact .null
  case bool         => exact .bool
  case number hq    => exact .number hq
  case string       => exact .string
  case array ih     => exact .array ih
  case object ih    => exact .object fun k v hk => ih _ <| Fields.mem_of_lookup hk

theorem render_eq_iff (hx : Strict x) (hy : Strict y) :
    render (tidy sortedOrder x) = render (tidy sortedOrder y) ↔ SameUpToKeys x y := by
  rw [←tidy_eq_iff hx hy]
  exact ⟨render_inj (plain_tidy sortedOrder_perm hx.serializable) (plain_tidy sortedOrder_perm hy.serializable),
    congrArg render⟩

theorem canonicalJson_eq_iff (hx : Strict x) (hy : Strict y) (depth n : ℕ) :
    (canonicalJson x depth).run' n = (canonicalJson y depth).run' n ↔
      SameUpToKeys x y ∨ Beyond x depth n ∧ Beyond y depth n := by
  have ⟨hxt, hxn⟩ := run'_canonicalJson hx depth n
  have ⟨hyt, hyn⟩ := run'_canonicalJson hy depth n
  constructor
  case mp =>
    intro h
    by_cases hbx : Beyond x depth n <;> by_cases hby : Beyond y depth n
    case pos => exact .inr ⟨hbx, hby⟩
    case neg => exact nomatch (hxn hbx).symm.trans <| h.trans <| hyt hby
    case pos => exact nomatch (hxt hbx).symm.trans <| h.trans <| hyn hby
    case neg =>
      rw [hxt hbx, hyt hby, Option.some_inj] at h
      exact .inl <| (render_eq_iff hx hy).mp h
  case mpr =>
    rintro (h | ⟨hbx, hby⟩)
    · rw [←canonicalJson_tidy sortedOrder_perm hx, (tidy_eq_iff hx hy).mpr h, canonicalJson_tidy sortedOrder_perm hy]
    · rw [hxn hbx, hyn hby]

-- The canonical texts of two values of the format are equal exactly if the values are equal up to the order of keys,
-- and a text is parsed to its value. Two values beyond the limits of `_canonicalJson` both have no text.
theorem canonical_texts_injective (hx : Strict x) (hy : Strict y) :
    (Journal.canonicalize x = Journal.canonicalize y ↔ SameUpToKeys x y) ∧
      (∀ depth n, (canonicalJson x depth).run' n = (canonicalJson y depth).run' n ↔
        SameUpToKeys x y ∨ Beyond x depth n ∧ Beyond y depth n) ∧
      ∃ text z, Journal.canonicalize x = .ok text ∧ parse text = some z ∧ SameUpToKeys z x := by
  have hp := plain_tidy sortedOrder_perm hx.serializable
  refine ⟨?_, canonicalJson_eq_iff hx hy, _, _, Journal.canonicalize_eq hx.serializable, parse_render hp, ?_⟩
  · rw [Journal.canonicalize_eq hx.serializable, Journal.canonicalize_eq hy.serializable, Except.ok.injEq]
    exact render_eq_iff hx hy
  · exact (tidy_eq_iff (strict_of_plain hp) hx).mp <| tidy_tidy sortedOrder_perm

end

-- A value in arrays of one element.
def nested (v : Value) : ℕ → Value
  | 0     => v
  | n + 1 => array [nested v n]

theorem height_nested : height (nested v n) = n + height v := by
  induction n
  case zero      => rw [nested, Nat.zero_add]
  case succ n ih =>
    simp only [nested, height, heightElems_eq, List.map_cons, List.map_nil, List.foldr_cons, List.foldr_nil, ih]
    omega

theorem strict_nested (h : Strict v) : Strict (nested v n) := by
  induction n
  case zero    => exact h
  case succ ih => exact .array <| by simpa [nested] using ih

theorem sameUpToKeys_nested (h : SameUpToKeys (nested v n) (nested w n)) : SameUpToKeys v w := by
  induction n
  case zero    => exact h
  case succ ih =>
    obtain _ | _ | _ | _ | ⟨_ | ⟨h, _⟩⟩ := h
    exact ih h

-- A value with its keys in two orders, and with a zero of either sign.
def oneOrder : Value :=
  object [(js "b", .bool true), (js "a", array [.null, .number .negZero])]

def otherOrder : Value :=
  object [(js "a", array [.null, .number <| .finite 0]), (js "b", .bool true)]

theorem canonical_texts_injective_orders :
    (Journal.canonicalize oneOrder = Journal.canonicalize otherOrder ↔ SameUpToKeys oneOrder otherOrder) ∧
      (∀ depth n, (canonicalJson oneOrder depth).run' n = (canonicalJson otherOrder depth).run' n ↔
        SameUpToKeys oneOrder otherOrder ∨ Beyond oneOrder depth n ∧ Beyond otherOrder depth n) ∧
      ∃ text z, Journal.canonicalize oneOrder = .ok text ∧ parse text = some z ∧ SameUpToKeys z oneOrder := by
  have hz : Strict (.number <| .finite 0) := .number <| by simpa using Double.isDouble_natCast (n := 0) (by decide)
  refine canonical_texts_injective (.object fun k v hk => ?_) (.object fun k v hk => ?_)
  all_goals
    have := Fields.mem_of_lookup hk
    simp only [List.mem_cons, Prod.mk.injEq, List.not_mem_nil, or_false] at this
    obtain ⟨-, rfl⟩ | ⟨-, rfl⟩ := this
  · exact .bool
  · exact .array <| by simp [Strict.null, Strict.negZero]
  · exact .array <| by simp [Strict.null, hz]
  · exact .bool

theorem canonicalMeta_not_injective :
    ¬ ∀ x y, Strict x → Strict y → (canonicalMeta x = canonicalMeta y ↔ SameUpToKeys x y) := by
  intro h
  have hn (b : Bool) : canonicalMeta (nested (.bool b) 33) = none := by
    refine (run'_canonicalJson (strict_nested .bool) 0 0).right <| .inl ?_
    rw [height_nested, META_MAX_DEPTH]
    omega
  have := (h _ _ (strict_nested .bool) (strict_nested .bool)).mp <| (hn true).trans (hn false).symm
  nomatch sameUpToKeys_nested this

end AgentSession

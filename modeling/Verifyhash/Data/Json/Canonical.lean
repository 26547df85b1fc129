import Verifyhash.Data.Json.Parse
import Verifyhash.Library.Fields

-- `JSON.stringify`, and values with the fields of their objects in a fixed order.
namespace Json

-- Keys which are array indices.
def isIndex (k : JsString) : Bool :=
  k.all isDigit ∧ natText (digitsValue k) = k ∧ digitsValue k < 2 ^ 32 - 1

-- The order of `Object.keys`: array indices come first, and the other keys stay in their order.
def ownOrder (ks : List JsString) : List JsString :=
  (ks.filter isIndex).insertionSort (fun k l => digitsValue k ≤ digitsValue l) ++
    ks.filter fun k => ¬ isIndex k

-- The order of `Object.keys(value).sort()`, which compares code units.
def sortedOrder (ks : List JsString) : List JsString :=
  ks.insertionSort (· ≤ ·)

-- `parts.join(",")` for the texts of fields
def joinFields (parts : List (JsString × JsString)) : JsString :=
  join <| parts.map fun (k, part) => quote k ++ js ":" ++ part

mutual

-- `JSON.stringify(value)`, which returns `undefined` for `undefined`.
def stringify : Value → Option JsString
  | .undefined     => none
  | .null          => some <| js "null"
  | .bool b        => some <| if b then js "true" else js "false"
  | .number n      => some <| numberText n
  | .string s      => some <| quote s
  | .array elems   => some <| js "[" ++ join (stringifyElems elems) ++ js "]"
  | .object fields =>
    some <| js "\x7b" ++ joinFields (Fields.arrange ownOrder <| stringifyFields fields) ++ js "\x7d"

def stringifyElems : List Value → List JsString
  | []      => []
  | v :: vs => (stringify v).getD (js "null") :: stringifyElems vs

def stringifyFields : List (JsString × Value) → List (JsString × Option JsString)
  | []           => []
  | (k, v) :: fs => (k, stringify v) :: stringifyFields fs

end

section

variable (order : List JsString → List JsString)

mutual

-- The value which is left of a value in its text: fields which are `undefined` are dropped, the
-- other ones come in a given order, and zero has no sign.
def tidy : Value → Value
  | .number .negZero => .number <| .finite 0
  | .array elems     => .array <| tidyElems elems
  | .object fields   => .object <| Fields.arrange order <| tidyFields fields
  | v                => v

def tidyElems : List Value → List Value
  | []      => []
  | v :: vs => tidy v :: tidyElems vs

def tidyFields : List (JsString × Value) → List (JsString × Option Value)
  | []           => []
  | (k, v) :: fs => (k, if v.isUndefined then none else some (tidy v)) :: tidyFields fs

end

-- The value of a field, if it is kept.
def tidyField (v : Value) : Option Value :=
  if v.isUndefined then none else some (tidy order v)

@[simp]
theorem tidyElems_eq : tidyElems order vs = vs.map (tidy order) := by
  induction vs <;> simp_all [tidyElems]

@[simp]
theorem tidyFields_eq : tidyFields order fs = fs.map fun f => (f.fst, tidyField order f.snd) := by
  induction fs <;> simp_all [tidyFields, tidyField]

end

-- Values which have a JSON text. The fields of an object may also be `undefined`.
inductive Serializable : Value → Prop
  | null    : Serializable .null
  | bool    : Serializable (.bool b)
  | negZero : Serializable (.number .negZero)
  | number  : Double.IsDouble q → Serializable (.number <| .finite q)
  | string  : Serializable (.string s)
  | array   : (∀ v ∈ elems, Serializable v) → Serializable (.array elems)
  | object  : (∀ k v, fields.lookup k = some v → v ≠ .undefined → Serializable v) → Serializable (.object fields)

-- Values which a JSON text can be parsed to, up to the order of fields: nothing is `undefined`.
inductive Strict : Value → Prop
  | null    : Strict .null
  | bool    : Strict (.bool b)
  | negZero : Strict (.number .negZero)
  | number  : Double.IsDouble q → Strict (.number <| .finite q)
  | string  : Strict (.string s)
  | array   : (∀ v ∈ elems, Strict v) → Strict (.array elems)
  | object  : (∀ k v, fields.lookup k = some v → Strict v) → Strict (.object fields)

-- Values whose numbers are doubles, as all numbers of the language are.
inductive OfDoubles : Value → Prop
  | undefined : OfDoubles .undefined
  | null      : OfDoubles .null
  | bool      : OfDoubles (.bool b)
  | number    : (∀ q, n = .finite q → Double.IsDouble q) → OfDoubles (.number n)
  | string    : OfDoubles (.string s)
  | array     : (∀ v ∈ elems, OfDoubles v) → OfDoubles (.array elems)
  | object    : (∀ f ∈ fields, OfDoubles f.snd) → OfDoubles (.object fields)

theorem OfDoubles.get (h : OfDoubles v) (key : String) : OfDoubles (v.get key) := by
  cases h
  case object fields h =>
    rw [Value.get]
    cases hk : fields.lookup (js key)
    case none => exact .undefined
    case some => exact h _ <| Fields.mem_of_lookup hk
  all_goals exact .undefined

theorem Strict.serializable (h : Strict v) : Serializable v := by
  induction h
  case null             => exact .null
  case bool             => exact .bool
  case negZero          => exact .negZero
  case number hq        => exact .number hq
  case string           => exact .string
  case array ih         => exact .array ih
  case object ih        => exact .object fun k v hk _ => ih k v hk

theorem Serializable.ne_undefined (h : Serializable v) : v ≠ .undefined := by
  rintro rfl
  cases h

-- The members of a value which has a text are `undefined` or have a text.
theorem Serializable.get (h : Serializable v) {key : String} (hu : v.get key ≠ .undefined) :
    Serializable (v.get key) := by
  cases h
  case object fields h =>
    rw [Value.get] at hu ⊢
    cases hk : fields.lookup (js key)
    case none => simp [hk] at hu
    case some v => exact h _ _ hk <| by simpa [hk] using hu
  all_goals exact absurd rfl hu

theorem Serializable.of_fields {fields : List (JsString × Value)}
    (h : ∀ f ∈ fields, f.snd ≠ .undefined → Serializable f.snd) : Serializable (.object fields) :=
  .object fun _ _ hk => h _ <| Fields.mem_of_lookup hk

theorem ownOrder_perm (ks : List JsString) : (ownOrder ks).Perm ks := by
  have : (ks.filter fun k => ¬ isIndex k) = ks.filter fun k => !isIndex k := by simp
  rw [ownOrder, this]
  exact (List.perm_insertionSort ..).append_right _ |>.trans <| List.filter_append_perm ..

-- Some of the keys in their order are in order.
theorem ownOrder_filter (p : JsString → Bool) (ks : List JsString) :
    ownOrder ((ownOrder ks).filter p) = (ownOrder ks).filter p := by
  let le (k l : JsString) := digitsValue k ≤ digitsValue l
  have : Std.Total le := ⟨fun _ _ => Nat.le_total ..⟩
  have : IsTrans JsString le := ⟨fun _ _ _ => Nat.le_trans⟩
  have hi : ∀ k ∈ ((ks.filter isIndex).insertionSort le).filter p, isIndex k := by
    intro k hk
    rw [List.mem_filter, List.mem_insertionSort, List.mem_filter] at hk
    exact hk.left.right
  have hn : ∀ k ∈ (ks.filter fun k => ¬ isIndex k).filter p, ¬ isIndex k := by
    intro k hk
    rw [List.mem_filter, List.mem_filter] at hk
    exact of_decide_eq_true hk.left.right
  have hs : (((ks.filter isIndex).insertionSort le).filter p).Pairwise le :=
    (List.pairwise_insertionSort le _).filter p
  have hown : ownOrder ks = (ks.filter isIndex).insertionSort le ++ ks.filter fun k => ¬ isIndex k := rfl
  rw [hown, List.filter_append]
  have hf₁ : (((ks.filter isIndex).insertionSort le).filter p ++
      (ks.filter fun k => ¬ isIndex k).filter p).filter isIndex = ((ks.filter isIndex).insertionSort le).filter p := by
    rw [List.filter_append, List.filter_eq_self.mpr hi, List.filter_eq_nil_iff.mpr hn, List.append_nil]
  have hf₂ : (((ks.filter isIndex).insertionSort le).filter p ++
      (ks.filter fun k => ¬ isIndex k).filter p).filter (fun k => ¬ isIndex k) =
        (ks.filter fun k => ¬ isIndex k).filter p := by
    rw [List.filter_append, List.filter_eq_nil_iff.mpr (by simpa using hi), List.nil_append,
      List.filter_eq_self.mpr (by simp)]
  rw [ownOrder, hf₁, hf₂]
  congr 1
  exact hs.insertionSort_eq

theorem sortedOrder_perm (ks : List JsString) : (sortedOrder ks).Perm ks :=
  List.perm_insertionSort ..

section

variable {order : List JsString → List JsString} (ho : ∀ ks, (order ks).Perm ks)

section

variable {v : Value}

attribute [local simp] tidy

@[simp]
theorem tidy_undefined : tidy order .undefined = .undefined := by
  simp

@[simp]
theorem isUndefined_tidy : (tidy order v).isUndefined = v.isUndefined := by
  cases v
  case number n => cases n <;> simp [Value.isUndefined]
  all_goals simp [Value.isUndefined]

@[simp]
theorem toInt?_tidy : (tidy order v).toInt? = v.toInt? := by
  cases v
  case number n => cases n <;> rfl
  all_goals simp [Value.toInt?]

@[simp]
theorem toString?_tidy : (tidy order v).toString? = v.toString? := by
  cases v
  case number n => cases n <;> rfl
  all_goals simp [Value.toString?]

@[simp]
theorem hex32?_tidy : (tidy order v).hex32? = v.hex32? := by
  cases v
  case number n => cases n <;> rfl
  all_goals simp [Value.hex32?]

@[simp]
theorem isObject_tidy : (tidy order v).isObject = v.isObject := by
  cases v
  case number n => cases n <;> rfl
  all_goals simp [Value.isObject]

end

theorem tidyField_congr (h : tidy order v = tidy order w) : tidyField order v = tidyField order w := by
  rw [tidyField, tidyField, ←@isUndefined_tidy order v, h, isUndefined_tidy]

include ho

theorem get_tidy (key : String) : (tidy order v).get key = tidy order (v.get key) := by
  cases v
  case number n => cases n <;> simp [tidy, Value.get]
  case object fields =>
    simp only [tidy, tidyFields_eq, Value.get, Fields.lookup_arrange ho, Fields.lookup_map]
    cases h : fields.lookup (js key)
    case none => simp
    case some v =>
      cases v
      all_goals simp [tidyField, Value.isUndefined]
  all_goals simp [tidy, Value.get]

theorem has_tidy (key : String) : (tidy order v).has key ↔ v.get key ≠ .undefined := by
  cases v
  case number n => cases n <;> simp [tidy, Value.has, Value.get]
  case object fields =>
    simp only [tidy, tidyFields_eq, Value.has, Value.get, Fields.lookup_arrange ho, Fields.lookup_map]
    cases h : fields.lookup (js key)
    case none => simp
    case some v => cases v <;> simp [tidyField, Value.isUndefined]
  all_goals simp [tidy, Value.has, Value.get]

theorem plain_tidy (h : Serializable v) : Plain (tidy order v) := by
  induction v using Value.ind
  case undefined => cases h
  case null => exact .null
  case bool => exact .bool
  case number =>
    cases h
    case negZero   => exact .number <| by simpa using Double.isDouble_natCast (n := 0) (by decide)
    case number hq => exact .number hq
  case string => exact .string
  case array ih =>
    obtain _ | _ | _ | _ | _ | h := h
    rw [tidy, tidyElems_eq]
    refine .array fun v hv => ?_
    obtain ⟨w, hw, rfl⟩ := List.mem_map.mp hv
    exact ih w hw <| h w hw
  case object fields ih =>
    obtain _ | _ | _ | _ | _ | _ | h := h
    rw [tidy, tidyFields_eq]
    refine .object (Fields.nodup_arrange _ ho) fun f hf => ?_
    have := Fields.mem_arrange ho hf
    rw [Fields.lookup_map, Option.map_eq_some_iff] at this
    obtain ⟨v, hv, hf⟩ := this
    rw [tidyField] at hf
    split_ifs at hf with hu
    rw [Value.isUndefined_iff] at hu
    exact Option.some.inj hf ▸ ih _ (Fields.mem_of_lookup hv) (h _ v hv hu)

-- The order of the fields does not matter for sorting them.
theorem tidy_tidy : tidy sortedOrder (tidy order v) = tidy sortedOrder v := by
  induction v using Value.ind
  case number n => cases n <;> rfl
  case array ih =>
    simp only [tidy, tidyElems_eq, List.map_map, Value.array.injEq]
    exact List.map_congr_left ih
  case object fields ih =>
    simp only [tidy, tidyFields_eq, Value.object.injEq]
    refine Fields.sorted_congr fun k => ?_
    rw [Fields.lookup_map, Fields.lookup_arrange ho, Fields.lookup_map, Fields.lookup_map]
    cases h : fields.lookup k
    case none => rfl
    case some v =>
      have := ih _ <| Fields.mem_of_lookup h
      by_cases hu : v.isUndefined
      all_goals simp_all [tidyField]
  all_goals simp [tidy]

end

-- What is left of a value in its text is left of itself.
theorem tidy_ownOrder_self (v : Value) : tidy ownOrder (tidy ownOrder v) = tidy ownOrder v := by
  induction v using Value.ind
  case number n => cases n <;> rfl
  case array ih =>
    simp only [tidy, tidyElems_eq, List.map_map, Value.array.injEq]
    exact List.map_congr_left ih
  case object fields ih =>
    simp only [tidy, tidyFields_eq, Value.object.injEq]
    generalize hA : Fields.arrange ownOrder (fields.map fun f => (f.fst, tidyField ownOrder f.snd)) = A
    have ht : A.map (fun f => (f.fst, tidyField ownOrder f.snd)) = A.map fun f => (f.fst, some f.snd) := by
      refine List.map_congr_left fun f hf => ?_
      have hm := Fields.mem_arrange ownOrder_perm (hA ▸ hf)
      rw [Fields.lookup_map, Option.map_eq_some_iff] at hm
      obtain ⟨v, hv, hf⟩ := hm
      rw [tidyField] at hf
      split_ifs at hf with hu
      rw [←Option.some.inj hf, tidyField, isUndefined_tidy, if_neg hu, ih _ <| Fields.mem_of_lookup hv]
    have hk : A.map Prod.fst = (ownOrder <| Fields.keys fields).filter fun k =>
        (fields.lookup k).any fun v => ¬ v.isUndefined := by
      rw [←hA, Fields.arrange, Fields.keys_map, List.map_filterMap, ←List.filterMap_eq_filter]
      congr 1
      funext k
      rw [Fields.lookup_map]
      cases hl : fields.lookup k
      case none => simp [Option.guard, hl]
      case some v => by_cases hu : v.isUndefined <;> simp [tidyField, hu, Option.guard, hl]
    rw [ht, Fields.arrange_self]
    · exact hA ▸ Fields.nodup_arrange _ ownOrder_perm
    · rw [hk, ownOrder_filter]
  all_goals simp [tidy]

theorem joinFields_eq {fields : List (JsString × Value)} :
    joinFields (fields.map fun f => (f.fst, render f.snd)) = join (fields.map renderField) := by
  rw [joinFields, List.map_map]
  rfl

variable {order : List JsString → List JsString}

@[simp]
theorem stringifyElems_eq : stringifyElems vs = vs.map fun v => (stringify v).getD (js "null") := by
  induction vs <;> simp_all [stringifyElems]

@[simp]
theorem stringifyFields_eq : stringifyFields fs = fs.map fun f => (f.fst, stringify f.snd) := by
  induction fs <;> simp_all [stringifyFields]

-- Fields which depend on the values which are left.
theorem arrange_tidy {fields : List (JsString × Value)} {f : Value → β} {g : Value → Option β}
    (h : ∀ k v, fields.lookup k = some v → g v = (tidyField order v).map f) :
    Fields.arrange order (fields.map fun e => (e.fst, g e.snd)) =
      (Fields.arrange order <| tidyFields order fields).map fun e => (e.fst, f e.snd) := by
  have := Fields.arrange_congr order fields (h := fun v => (tidyField order v).map f) h
  rw [this, ←Fields.arrange_map, tidyFields_eq, List.map_map]
  rfl

theorem stringify_eq (h : Serializable v) : stringify v = some (render <| tidy ownOrder v) := by
  induction v using Value.ind
  case undefined => cases h
  case number n => cases n <;> rfl
  case array elems ih =>
    obtain _ | _ | _ | _ | _ | h := h
    have : elems.map (fun v => (stringify v).getD (js "null")) = (elems.map (tidy ownOrder)).map render := by
      rw [List.map_map]
      exact List.map_congr_left fun v hv => by simp [ih v hv (h v hv)]
    simp [stringify, tidy, render, this]
  case object fields ih =>
    obtain _ | _ | _ | _ | _ | _ | h := h
    have hf (k v) (hk : fields.lookup k = some v) : stringify v = (tidyField ownOrder v).map render := by
      rw [tidyField]
      split_ifs with hu
      case pos => rw [Value.isUndefined_iff.mp hu, stringify, Option.map_none]
      case neg =>
        exact ih _ (Fields.mem_of_lookup hk) <| h k v hk fun hv => hu <| Value.isUndefined_iff.mpr hv
    simp only [stringify, stringifyFields_eq, tidy, render, renderFields_eq]
    rw [arrange_tidy hf, joinFields_eq]
  all_goals simp [stringify, tidy, render]

end Json

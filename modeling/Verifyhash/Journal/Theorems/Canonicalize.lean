import Verifyhash.Journal.Chain
import Verifyhash.Library.Fallible

namespace Journal

open Json Value Fallible

@[simp]
theorem canonicalizeFields_eq : canonicalizeFields fs =
    fs.map fun f => (f.fst, if f.snd.isUndefined then none else some (canonicalize f.snd)) := by
  induction fs <;> simp_all [canonicalizeFields]

theorem canonicalizeElems_eq (h : ∀ v ∈ vs, canonicalize v = .ok (f v)) :
    canonicalizeElems vs = .ok (vs.map f) := by
  induction vs
  case nil => rfl
  case cons v vs ih =>
    have ⟨hv, h⟩ := List.forall_mem_cons.mp h
    simp [canonicalizeElems, hv, ih h]

theorem mapM_entries {fields : List (JsString × Value)} {f : Value → JsString} :
    (fields.map fun e => (e.fst, Except.ok (f e.snd))).mapM
      (fun (k, part) => part.map fun part => (k, part)) =
        (.ok <| fields.map fun e => (e.fst, f e.snd) : Except JsString _) :=
  mapM_map_eq_ok fun _ _ => rfl

-- The canonical text is the text of the value with sorted keys.
theorem canonicalize_eq (h : Serializable v) : canonicalize v = .ok (render <| tidy sortedOrder v) := by
  induction v using Value.ind
  case undefined => cases h
  case number n => cases h <;> rfl
  case array elems ih =>
    obtain _ | _ | _ | _ | _ | h := h
    have := canonicalizeElems_eq (f := render ∘ tidy sortedOrder) fun v hv => ih v hv <| h v hv
    simp [canonicalize, this, tidy, render]
  case object fields ih =>
    obtain _ | _ | _ | _ | _ | _ | h := h
    have hf (k v) (hk : fields.lookup k = some v) :
        (if v.isUndefined then none else some (canonicalize v)) =
          (tidyField sortedOrder v).map fun v => .ok <| render v := by
      rw [tidyField]
      split_ifs with hu
      case pos => rfl
      case neg =>
        rw [ih _ (Fields.mem_of_lookup hk) <| h k v hk fun hv => hu <| isUndefined_iff.mpr hv]
        rfl
    rw [canonicalize, canonicalizeFields_eq, arrange_tidy hf, mapM_entries, ok_bind, joinFields_eq, tidy, render,
      renderFields_eq]
    rfl
  all_goals simp [canonicalize, tidy, render]

end Journal

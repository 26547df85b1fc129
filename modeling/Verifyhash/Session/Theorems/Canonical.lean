import Verifyhash.Library.Fallible
import Verifyhash.Session.Event

namespace AgentSession

open Json Value Fallible

@[simp]
theorem canonicalElems_eq : canonicalElems vs depth = vs.mapM (canonicalJson · depth) := by
  induction vs <;> simp_all [canonicalElems]

@[simp]
theorem canonicalFields_eq :
    canonicalFields fs depth = fs.map fun f => (f.fst, some (canonicalJson f.snd depth)) := by
  induction fs <;> simp_all [canonicalFields]

variable {order : List JsString → List JsString} {v : Value}

-- What is left of a value in its text has the same canonical text, and costs the same budget.
theorem canonicalJson_tidy (ho : ∀ ks, (order ks).Perm ks) (h : Strict v) :
    canonicalJson (tidy order v) depth = canonicalJson v depth := by
  induction v using Value.ind generalizing depth
  case number n => cases n <;> rfl
  case array elems ih =>
    obtain _ | _ | _ | _ | _ | h := h
    have : (elems.map <| tidy order).mapM (canonicalJson · <| depth + 1) =
        elems.mapM (canonicalJson · <| depth + 1) := by
      rw [List.mapM_map]
      exact mapM_congr fun v hv => ih v hv <| h v hv
    simp only [canonicalJson, tidy, canonicalElems_eq, tidyElems_eq, this]
  case object fields ih =>
    obtain _ | _ | _ | _ | _ | _ | h := h
    have : Fields.arrange sortedOrder (canonicalFields (Fields.arrange order <| tidyFields order fields)
        (depth + 1)) = Fields.arrange sortedOrder (canonicalFields fields <| depth + 1) := by
      refine Fields.sorted_congr fun k => ?_
      rw [canonicalFields_eq, canonicalFields_eq,
        Fields.lookup_map (g := fun v => some <| canonicalJson v <| depth + 1), Fields.lookup_arrange ho,
        tidyFields_eq, Fields.lookup_map,
        Fields.lookup_map (g := fun v => some <| canonicalJson v <| depth + 1)]
      cases hk : fields.lookup k
      case none => rfl
      case some v =>
        have hs := h k v hk
        have hu : v.isUndefined = false := by
          rw [←Bool.not_eq_true, isUndefined_iff]
          exact hs.serializable.ne_undefined
        simp [tidyField, hu, ih _ (Fields.mem_of_lookup hk) hs]
    simp only [canonicalJson, tidy, this]
  all_goals simp [tidy]

theorem of_run_visit {x : StateT ℕ Option α} (h : (visit depth >>= fun _ => x).run n = some r) :
    ∃ k, x.run k = some r := by
  rw [StateT.run_bind, Option.bind_eq_bind, Option.bind_eq_some_iff] at h
  have ⟨⟨_, k⟩, _, h⟩ := h
  exact ⟨k, h⟩

-- A value with a canonical text is a JSON value, whose text it is.
theorem of_run_canonicalJson (hd : OfDoubles v) (h : (canonicalJson v depth).run n = some (t, m)) :
    Strict v ∧ t = render (tidy sortedOrder v) := by
  induction v using Value.ind generalizing depth n t m
  case undefined => simp [canonicalJson] at h
  case null =>
    obtain ⟨_, h⟩ := of_run_visit h
    obtain ⟨rfl, _⟩ : js "null" = t ∧ _ := by simpa using h
    exact ⟨.null, rfl⟩
  case bool b =>
    obtain ⟨_, h⟩ := of_run_visit h
    obtain ⟨rfl, _⟩ : (if b then js "true" else js "false") = t ∧ _ := by simpa using h
    exact ⟨.bool, rfl⟩
  case string s =>
    obtain ⟨_, h⟩ := of_run_visit h
    obtain ⟨rfl, _⟩ : quote s = t ∧ _ := by simpa using h
    exact ⟨.string, rfl⟩
  case number k =>
    obtain ⟨_, h⟩ := of_run_visit h
    obtain _ | _ | _ | hq := hd
    rcases k with _ | _ | _ | q
    case negZero =>
      obtain ⟨rfl, _⟩ : numberText .negZero = t ∧ _ := by simpa using h
      exact ⟨.negZero, rfl⟩
    case finite =>
      obtain ⟨rfl, _⟩ : numberText (.finite q) = t ∧ _ := by simpa using h
      exact ⟨.number <| hq q rfl, rfl⟩
    all_goals simp at h
  case array elems ih =>
    obtain _ | _ | _ | _ | _ | hd := hd
    obtain ⟨_, h⟩ := of_run_visit h
    rw [canonicalElems_eq, StateT.run_bind, Option.bind_eq_bind, Option.bind_eq_some_iff] at h
    obtain ⟨⟨parts, _⟩, hp, h⟩ := h
    obtain ⟨rfl, _⟩ : js "[" ++ join parts ++ js "]" = t ∧ _ := by simpa using h
    obtain ⟨hs, hg⟩ := of_run_mapM_eq_some hp
    refine ⟨.array fun v hv => ?_, ?_⟩
    · obtain ⟨_, _, _, hr⟩ := hs v hv
      exact ih v hv (hd v hv) hr |>.left
    · rw [hg (render ∘ tidy sortedOrder) fun v hv _ _ _ hr => ih v hv (hd v hv) hr |>.right]
      simp [tidy, render]
  case object fields ih =>
    obtain _ | _ | _ | _ | _ | _ | hd := hd
    obtain ⟨_, h⟩ := of_run_visit h
    rw [StateT.run_bind, Option.bind_eq_bind, Option.bind_eq_some_iff] at h
    obtain ⟨⟨parts, _⟩, hp, h⟩ := h
    obtain ⟨rfl, _⟩ : js "\x7b" ++ joinFields parts ++ js "\x7d" = t ∧ _ := by simpa using h
    have hf (k v) (hk : fields.lookup k = some v) : Strict v ∧ ∀ n t m,
        (canonicalJson v <| depth + 1).run n = some (t, m) → t = render (tidy sortedOrder v) := by
      have hm := Fields.mem_of_lookup hk
      have hl : (canonicalFields fields <| depth + 1).lookup k = some (some <| canonicalJson v <| depth + 1) := by
        rw [canonicalFields_eq, Fields.lookup_map (g := fun v => some <| canonicalJson v <| depth + 1), hk]
        rfl
      obtain ⟨_, _, _, hr⟩ := of_run_mapM_eq_some hp |>.left _ <|
        Fields.mem_arrange_of_lookup sortedOrder_perm hl
      rw [StateT.run_bind, Option.bind_eq_bind, Option.bind_eq_some_iff] at hr
      obtain ⟨_, hr, _⟩ := hr
      exact ⟨ih _ hm (hd _ hm) hr |>.left, fun _ _ _ hr => ih _ hm (hd _ hm) hr |>.right⟩
    have ht (k v) (hk : fields.lookup k = some v) : some (canonicalJson v <| depth + 1) =
        (tidyField sortedOrder v).map (canonicalJson · <| depth + 1) := by
      have hs := hf k v hk |>.left
      have hu : v.isUndefined = false := by
        rw [←Bool.not_eq_true, isUndefined_iff]
        exact hs.serializable.ne_undefined
      simp [tidyField, hu, canonicalJson_tidy sortedOrder_perm hs]
    rw [canonicalFields_eq, arrange_tidy ht, List.mapM_map] at hp
    have hg := of_run_mapM_eq_some hp |>.right (fun e => (e.fst, render e.snd)) ?_
    case refine_1 =>
      intro e he _ b _ hr
      have hl := Fields.mem_arrange sortedOrder_perm he
      rw [tidyFields_eq, Fields.lookup_map, Option.map_eq_some_iff] at hl
      obtain ⟨v, hk, he⟩ := hl
      obtain ⟨hs, hx⟩ := hf _ v hk
      have he : tidy sortedOrder v = e.snd := by
        rw [tidyField] at he
        split_ifs at he
        exact Option.some.inj he
      rw [Function.comp_apply, StateT.run_bind, Option.bind_eq_bind, Option.bind_eq_some_iff] at hr
      obtain ⟨⟨s, _⟩, hr, hb⟩ := hr
      obtain ⟨rfl, _⟩ : (e.fst, s) = b ∧ _ := by simpa using hb
      simp only [←he, canonicalJson_tidy sortedOrder_perm hs] at hr ⊢
      rw [hx _ _ _ hr]
    refine ⟨.object fun k v hk => hf k v hk |>.left, ?_⟩
    rw [hg, joinFields_eq]
    simp [tidy, render]

theorem canonicalMeta_tidy (ho : ∀ ks, (order ks).Perm ks) (h : Strict v) :
    canonicalMeta (tidy order v) = canonicalMeta v := by
  rw [canonicalMeta, canonicalMeta, canonicalJson_tidy ho h]

theorem of_canonicalMeta (hd : OfDoubles v) (h : canonicalMeta v = some t) :
    Strict v ∧ t = render (tidy sortedOrder v) := by
  obtain ⟨⟨_, _⟩, hr, rfl⟩ := Option.map_eq_some_iff.mp h
  exact of_run_canonicalJson hd hr

end AgentSession

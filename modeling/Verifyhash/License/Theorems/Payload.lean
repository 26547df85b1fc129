import Verifyhash.Data.Calendar
import Verifyhash.Library.Fallible
import Verifyhash.License.Payload

-- What the validator of license payloads accepts.
namespace CoreLicense

open Value Json Fallible Checks CoreAttestation

theorem CanonicalInstant.eq {c d : CanonicalInstant} (h : c.text = d.text) : c = d := by
  have hc := c.canonical
  have hd := d.canonical
  rw [h, hd, Option.some.injEq] at hc
  cases c
  cases d
  cases h
  cases hc
  rfl

theorem requireInstant_eq_ok {c : CanonicalInstant} :
    requireInstant obj field = .ok c ↔ obj.get field = string c.text := by
  simp only [requireInstant, bind_eq_ok, demand_eq_ok]
  constructor
  case mp =>
    rintro ⟨text, ht, h⟩
    obtain ⟨ht, -⟩ := Option.filter_eq_some_iff.mp ht
    rw [toString?_eq_some.mp ht]
    split at h
    case h_1 => cases h; rfl
    case h_2 => cases h
  case mpr =>
    intro h
    have hi := (Instant.canonical?_eq_some.mp c.canonical).left
    refine ⟨c.text, by rw [h]; simp [toString?, hi], ?_⟩
    split
    case h_1 ms hm => exact congrArg Except.ok <| CanonicalInstant.eq rfl
    case h_2 hm =>
      rw [c.canonical] at hm
      cases hm

theorem requireText_eq_ok : requireText obj field = .ok s ↔ obj.get field = string s ∧ s ≠ [] := by
  rw [requireText, demand_eq_ok, Option.filter_eq_some_iff, toString?_eq_some, decide_eq_true_eq]

theorem Flags.eq {fs gs : Flags table seen elems} : fs = gs := by
  have h := fs.elems_eq.symm.trans gs.elems_eq
  have : fs.flags = gs.flags := List.map_injective_iff.mpr (fun _ _ => string.inj) h
  cases fs
  cases gs
  cases this
  rfl

-- The loop succeeds if the elements are flags.
theorem checkFlags_eq_ok (fs : Flags table seen elems) : checkFlags table p q r seen elems = .ok fs := by
  induction elems generalizing seen
  case nil => exact congrArg Except.ok Flags.eq
  case cons elem elems ih =>
    obtain ⟨flags, he, ha, hd⟩ := fs
    obtain _ | ⟨flag, flags⟩ := flags
    · cases he
    have helems := he
    rw [List.map_cons, List.cons.injEq] at helems
    obtain ⟨rfl, helems⟩ := helems
    have ⟨hk, hs⟩ := ha flag <| .head _
    have ⟨hn, hd'⟩ := List.nodup_cons.mp hd
    have rest : Flags table (flag :: seen) elems := {
      flags
      elems_eq := helems
      allowed  := fun f hf => ⟨(ha f <| .tail _ hf).left, by
        rw [List.mem_cons, not_or]
        exact ⟨fun h => hn <| h ▸ hf, (ha f <| .tail _ hf).right⟩⟩
      distinct := hd'
    }
    rw [checkFlags, dif_pos hk, dif_neg hs, ih rest]
    exact congrArg Except.ok Flags.eq

-- What is asked of a payload.
structure IsLicense (obj : Value) (cfg : Cfg) (l : License) : Prop where
  isObject     : obj.isObject
  kind         : obj.get "kind" = string cfg.kind
  version      : supports cfg.supportedSchemaVersions (obj.get "schemaVersion")
  note         : obj.get "note" = string cfg.note
  licenseId    : obj.get "licenseId" = string l.licenseId ∧ l.licenseId ≠ []
  customer     : obj.get "customer" = string l.customer ∧ l.customer ≠ []
  plan         : obj.get "plan" = string l.plan ∧ l.plan ≠ []
  entitlements : obj.get "entitlements" = ofStrings l.entitlements ∧ l.entitlements ≠ []
  allowed      : ∀ f ∈ l.entitlements, f ∈ cfg.entitlements
  distinct     : l.entitlements.Nodup
  issuedAt     : obj.get "issuedAt" = string l.issuedAt.text
  expiresAt    : obj.get "expiresAt" = string l.expiresAt.text

theorem nonemptyArray?_eq_some : nonemptyArray? v = some elems ↔ v = array elems ∧ elems ≠ [] := by
  cases v
  case array l => cases l <;> simp [nonemptyArray?]; grind
  all_goals simp [nonemptyArray?]

theorem validateLicense_eq_ok : validateLicense obj cfg = .ok l ↔ IsLicense obj cfg l := by
  simp only [validateLicense, bind_eq_ok, require_eq_ok, demand_eq_ok, requireText_eq_ok, requireInstant_eq_ok,
    toString?_eq_some, nonemptyArray?_eq_some]
  constructor
  case mp =>
    rintro ⟨_, ho, _, hk, _, hv, _, hn, id, hid, customer, hc, plan, hp, elems, he, fs, -, i, hi, e, hx, h⟩
    split_ifs at h with later
    cases h
    have hf := fs.elems_eq
    have hne : fs.flags ≠ [] := by
      intro h
      rw [h] at hf
      exact he.right hf
    exact ⟨ho, hk, hv, hn, hid, hc, hp, ⟨he.left.trans <| congrArg array hf, hne⟩,
      fun f h => (fs.allowed f h).left, fs.distinct, hi, hx⟩
  case mpr =>
    intro h
    have fs : Flags cfg.entitlements [] (l.entitlements.map string) := {
      flags    := l.entitlements
      elems_eq := rfl
      allowed  := fun f hf => ⟨h.allowed f hf, List.not_mem_nil⟩
      distinct := h.distinct
    }
    have hfs : fs.flags = l.entitlements := List.map_injective_iff.mpr (fun _ _ => string.inj) fs.elems_eq.symm
    refine ⟨(), h.isObject, (), h.kind, (), h.version, (), h.note, _, h.licenseId, _, h.customer, _, h.plan,
      _, ⟨h.entitlements.left, by simpa using h.entitlements.right⟩, fs, checkFlags_eq_ok fs, _, h.issuedAt, _,
      h.expiresAt, ?_⟩
    rw [dif_pos l.later]
    simp only [hfs, pure_eq]

theorem exists_version {versions : List ℕ} (h : supports versions v) : ∃ n ∈ versions, v.toInt? = some (n : ℤ) := by
  simpa [supports] using h

theorem eq_of_toInt? {n : ℕ} (h : v.toInt? = some (n : ℤ)) : v = nat n ∨ n = 0 ∧ v = number .negZero := by
  cases v
  case number m =>
    cases m
    case finite q =>
      rw [toInt?, Number.toInt?] at h
      split_ifs at h with hd
      have hq : q = n := by
        rw [←Rat.num_div_den q, hd, Option.some.inj h]
        simp
      exact .inl <| hq ▸ rfl
    case negZero => exact .inr ⟨by simpa [toInt?, Number.toInt?, eq_comm] using h, rfl⟩
    all_goals cases h
  all_goals cases h

theorem IsLicense.serializable_version (h : IsLicense obj cfg l) : Serializable (obj.get "schemaVersion") := by
  obtain ⟨n, hm, hn⟩ := exists_version h.version
  rcases eq_of_toInt? hn with hv | ⟨-, hv⟩ <;> rw [hv]
  · exact .number <| cfg.versions n hm
  · exact .negZero

theorem IsLicense.serializable (h : IsLicense obj cfg l) : Serializable (canonicalPayload obj l cfg) := by
  refine .of_fields fun f hf _ => ?_
  simp only [List.mem_cons, List.not_mem_nil, or_false] at hf
  rcases hf with rfl | rfl | rfl | rfl | rfl | rfl | rfl | rfl | rfl
  · exact h.kind ▸ .string
  · exact h.serializable_version
  · exact h.note ▸ .string
  · exact h.licenseId.left ▸ .string
  · exact h.customer.left ▸ .string
  · exact h.plan.left ▸ .string
  · refine .array fun v hv => ?_
    obtain ⟨s, -, rfl⟩ := List.mem_map.mp hv
    exact .string
  · exact h.issuedAt ▸ .string
  · exact h.expiresAt ▸ .string

-- The text of a valid payload.
theorem serializeLicense_eq_ok (h : IsLicense obj cfg l) :
    serializeLicense obj cfg = .ok (render (tidy ownOrder <| canonicalPayload obj l cfg) ++ js "\n") := by
  rw [serializeLicense, validateLicense_eq_ok.mpr h, ok_bind, stringify_eq h.serializable]
  rfl

end CoreLicense

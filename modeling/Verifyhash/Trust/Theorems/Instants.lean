import Verifyhash.Data.Moments
import Verifyhash.Trust.Theorems.Revocation

-- Which texts are accepted as instants.
namespace TrustAsOf

open Value Json Instant

-- Both parsers accept a text.
def Accepts (s : JsString) : Prop :=
  (∃ ms, parseAsOf (string s) = .ok ms) ∧ ∀ label, ∃ r, RevocationCore.parseCanonicalInstant (string s) label = .ok r

-- Both parsers reject a text.
def Rejects (s : JsString) : Prop :=
  (∀ ms, parseAsOf (string s) ≠ .ok ms) ∧ ∀ label r, RevocationCore.parseCanonicalInstant (string s) label ≠ .ok r

section

variable {s s' : JsString} {ms ms' : ℤ}

theorem isInstant_of_canonical (h : canonical? s = some ms) : isInstant s :=
  (canonical?_eq_some.mp h).left

theorem parseAsOf_eq_ok : parseAsOf (string s) = .ok ms ↔ canonical? s = some ms := by
  rw [parseAsOf]
  by_cases hi : isInstant s
  case pos =>
    have hf : (string s).toString?.filter isInstant = some s := by simp [Value.toString?, hi]
    rw [hf]
    dsimp only
    cases canonical? s <;> simp
  case neg =>
    have hf : (string s).toString?.filter isInstant = none := by simp [Value.toString?, hi]
    rw [hf]
    constructor
    case mp =>
      intro h
      cases h
    case mpr => exact fun h => absurd (isInstant_of_canonical h) hi

theorem parseCanonicalInstant_isOk {label : JsString} :
    (∃ r, RevocationCore.parseCanonicalInstant (string s) label = .ok r) ↔ (canonical? s).isSome := by
  simp only [RevocationCore.parseCanonicalInstant, canonicalInstant_eq_ok]
  constructor
  case mp =>
    rintro ⟨⟨r, hc⟩, h⟩
    have hs : some s = some r := (Option.filter_eq_some_iff.mp h).left
    rwa [Option.some_inj.mp hs]
  case mpr =>
    intro h
    obtain ⟨ms, hm⟩ := Option.isSome_iff_exists.mp h
    refine ⟨⟨s, h⟩, ?_⟩
    simp [Value.toString?, isInstant_of_canonical hm]

theorem accepts_of_canonical (h : canonical? s = some ms) : Accepts s :=
  ⟨⟨ms, parseAsOf_eq_ok.mpr h⟩, fun _ => parseCanonicalInstant_isOk.mpr <| by simp [h]⟩

theorem rejects_of_canonical (h : canonical? s = none) : Rejects s := by
  refine ⟨fun ms hm => ?_, fun label r hr => ?_⟩
  · rw [parseAsOf_eq_ok, h] at hm
    cases hm
  · have := parseCanonicalInstant_isOk.mp ⟨r, hr⟩
    simp [h] at this

end

end TrustAsOf

import Verifyhash.VerifierRs.Theorems.Bytes
import Verifyhash.VerifierRs.Theorems.Secp256k1

-- What `verifier-rs/src/secp256k1.rs` computes with points, and which keys it recovers.
namespace Secp256k1

open FieldArith U256
open Curve (Group natCoords G)

-- The points which are on the curve.
def OnCurve : Point → Prop
  | none        => True
  | some (x, y) => x.val < P.val ∧ y.val < P.val ∧ y.val ^ 2 % P.val = (x.val ^ 3 + 7) % P.val

instance : DecidablePred OnCurve
  | none        => inferInstanceAs <| Decidable True
  | some (x, y) => inferInstanceAs <| Decidable <| x.val < P.val ∧ y.val < P.val ∧ y.val ^ 2 % P.val = (x.val ^ 3 + 7) % P.val

variable {fuel : ℕ} {q p1 p2 : Point} {Q : Group} {x y : U256}

theorem stands_iff : Stands (some (x, y)) Q ↔ natCoords Q = some (x.val, y.val) :=
  eq_comm

theorem Stands.unique (h : Stands p1 Q) (h' : Stands p2 Q) : p1 = p2 := by
  have hi : Function.Injective fun c : U256 × U256 => (c.fst.val, c.snd.val) := by
    rintro ⟨a, b⟩ ⟨a', b'⟩ h
    injection h with ha hb
    exact Prod.ext (val_inj ha) (val_inj hb)
  exact Option.map_injective hi <| h.trans h'.symm

theorem OnCurve.exists_stands (h : OnCurve q) : ∃ Q, Stands q Q := by
  rcases q with _ | ⟨x, y⟩
  case none => exact ⟨0, stands_none.mpr rfl⟩
  case some =>
    rw [OnCurve, val_P] at h
    obtain ⟨Q, hQ⟩ := Curve.exists_natCoords h.left h.right.left h.right.right
    exact ⟨Q, stands_iff.mpr hQ⟩

theorem Stands.onCurve (h : Stands q Q) : OnCurve q := by
  rcases q with _ | ⟨x, y⟩
  case none => trivial
  case some =>
    rw [OnCurve, val_P]
    exact Curve.natCoords_some <| stands_iff.mp h

theorem exists_val (h : m < 2 ^ 256) : ∃ a : U256, a.val = m := by
  have hd : m < 256 ^ 32 := by omega
  have hb : Numeral.value 256 ((Bytes.ofNat 32 m).map UInt8.toNat) = m := by
    rw [Bytes.map_toNat_ofNat, Numeral.value_digits hd]
  exact ⟨from_be_bytes ⟨Bytes.ofNat 32 m, Bytes.length_ofNat⟩, (val_from_be_bytes _).trans hb⟩

theorem exists_point (Q : Group) : ∃ q, Stands q Q := by
  have hp : Curve.p < 2 ^ 256 := by decide
  cases hQ : natCoords Q
  case none => exact ⟨none, stands_none.mpr <| Curve.natCoords_eq_none.mp hQ⟩
  case some c =>
    obtain ⟨hx, hy, -⟩ := Curve.natCoords_eq_some.mp hQ
    obtain ⟨x, hx⟩ := exists_val (hx.trans hp)
    obtain ⟨y, hy⟩ := exists_val (hy.trans hp)
    exact ⟨some (x, y), stands_iff.mpr <| by rw [hQ, hx, hy]⟩

-- The representation of a point.
noncomputable def pointOf (Q : Group) : Point :=
  (exists_point Q).choose

theorem stands_pointOf (Q : Group) : Stands (pointOf Q) Q :=
  (exists_point Q).choose_spec

theorem stands_iff_eq : Stands q Q ↔ q = pointOf Q := by
  constructor
  case mp => exact fun h => h.unique <| stands_pointOf Q
  case mpr =>
    rintro rfl
    exact stands_pointOf Q

-- The moduli are primes, and every point is exactly one multiple of the generator below `N`.
theorem generates : P.val.Prime ∧ N.val.Prime ∧ ∃ G, Stands (some (GX, GY)) G ∧ ∀ Q : Group, ∃! k, k < N.val ∧ k • G = Q := by
  refine ⟨prime_P, prime_N, G, stands_generator, fun Q => ?_⟩
  obtain ⟨k, hk, h⟩ := Curve.exists_nsmul_eq Q
  rw [val_N]
  refine ⟨k, ⟨hk, h⟩, ?_⟩
  rintro j ⟨hj, hj'⟩
  exact Curve.nsmul_inj hj hk <| hj'.trans h.symm

-- The points on the curve with `point_add` and `scalar_mul` are the group, and neither runs out of fuel.
theorem point_add_group_law (hf : 2 ^ 257 ≤ fuel) : Function.Injective pointOf ∧ Set.range pointOf = {q | OnCurve q} ∧
    (∀ Q₁ Q₂, point_add fuel (pointOf Q₁) (pointOf Q₂) = some (pointOf (Q₁ + Q₂))) ∧
    ∀ k Q, scalar_mul fuel k (pointOf Q) = some (pointOf (k.val • Q)) := by
  refine ⟨fun Q₁ Q₂ h => ?_, Set.ext fun q => ⟨?_, fun h => ?_⟩, fun Q₁ Q₂ => ?_, fun k Q => ?_⟩
  · exact Curve.natCoords_inj <| (stands_pointOf Q₁).symm.trans <| h ▸ stands_pointOf Q₂
  · rintro ⟨Q, rfl⟩
    exact (stands_pointOf Q).onCurve
  · obtain ⟨Q, hQ⟩ := OnCurve.exists_stands h
    exact ⟨Q, (stands_iff_eq.mp hQ).symm⟩
  · obtain ⟨q, hq, hQ⟩ := point_add_spec hf (stands_pointOf Q₁) (stands_pointOf Q₂)
    rw [hq, stands_iff_eq.mp hQ]
  · obtain ⟨q, hq, hQ⟩ := scalar_mul_spec (k := k) hf (stands_pointOf Q)
    rw [hq, stands_iff_eq.mp hQ]

theorem point_add_group_law_fuel : Function.Injective pointOf ∧ Set.range pointOf = {q | OnCurve q} ∧
    (∀ Q₁ Q₂, point_add (2 ^ 257) (pointOf Q₁) (pointOf Q₂) = some (pointOf (Q₁ + Q₂))) ∧
    ∀ k Q, scalar_mul (2 ^ 257) k (pointOf Q) = some (pointOf (k.val • Q)) :=
  point_add_group_law le_rfl

-- `lift_x` returns the only point with the abscissa and the parity.
theorem lift_x_iff {x' : U256} {parity : UInt64} (hx : x.val < P.val) (hp : parity.toNat < 2) :
    lift_x x parity = some (x', y) ↔ x' = x ∧ OnCurve (some (x, y)) ∧ y.val % 2 = parity.toNat := by
  rw [val_P] at hx
  rcases lift_x_spec hx hp with ⟨y', Q, hl, hQ, hy⟩ | ⟨hl, hn⟩ <;> rw [hl]
  case inl =>
    constructor
    case mp =>
      intro h
      injection h with h
      injection h with h₁ h₂
      subst h₁ h₂
      exact ⟨rfl, hQ.onCurve, hy⟩
    case mpr =>
      rintro ⟨rfl, hc, hy'⟩
      obtain ⟨Q', hQ'⟩ := OnCurve.exists_stands hc
      obtain rfl := Curve.eq_of_natCoords (stands_iff.mp hQ) (stands_iff.mp hQ') <| hy.trans hy'.symm
      exact congrArg some <| Option.some_inj.mp <| hQ.unique hQ'
  case inr =>
    constructor
    case mp => exact fun h => absurd h <| Option.some_ne_none _ |>.symm
    case mpr =>
      rintro ⟨rfl, hc, -⟩
      obtain ⟨Q', hQ'⟩ := OnCurve.exists_stands hc
      exact absurd (stands_iff.mp hQ') <| hn Q' _

theorem lift_x_generator : lift_x GX 0 = some (GX, GY) :=
  (lift_x_iff (by decide) (by decide)).mpr ⟨rfl, by decide +kernel, by decide⟩

section

variable {msg_hash : Digest} {r s : U256} {rec_id : UInt8}

theorem recover_pubkey_eq_some (hf : 2 ^ 257 ≤ fuel) {c : U256 × U256} : recover_pubkey fuel msg_hash r s rec_id = some (some c) ↔
    ∃ Q, Stands (some c) Q ∧ Curve.Recovers (from_be_bytes msg_hash).val r.val s.val rec_id.toNat Q := by
  obtain ⟨q, hq, h⟩ := recover_pubkey_spec hf msg_hash r s rec_id
  rw [hq, Option.some_inj]
  constructor
  case mp =>
    rintro rfl
    rcases h with ⟨Q, hQ, hs⟩ | ⟨h, -⟩
    case inl => exact ⟨Q, hs, hQ⟩
    case inr => cases h
  case mpr =>
    rintro ⟨Q, hs, hQ⟩
    rcases h with ⟨Q', hQ', hs'⟩ | ⟨-, hn⟩
    case inl => exact (hQ'.unique hQ ▸ hs').unique hs
    case inr => exact absurd hQ <| hn Q

theorem recover_pubkey_ne_none (hf : 2 ^ 257 ≤ fuel) : recover_pubkey fuel msg_hash r s rec_id ≠ none := by
  obtain ⟨q, hq, -⟩ := recover_pubkey_spec hf msg_hash r s rec_id
  exact hq ▸ Option.some_ne_none q

theorem recover_pubkey_congr (hf : 2 ^ 257 ≤ fuel) {s' : U256} {rec_id' : UInt8}
    (h : ∀ Q, Curve.Recovers (from_be_bytes msg_hash).val r.val s.val rec_id.toNat Q ↔
      Curve.Recovers (from_be_bytes msg_hash).val r.val s'.val rec_id'.toNat Q) :
    recover_pubkey fuel msg_hash r s rec_id = recover_pubkey fuel msg_hash r s' rec_id' := by
  obtain ⟨q, hq, hs⟩ := recover_pubkey_spec hf msg_hash r s rec_id
  obtain ⟨q', hq', hs'⟩ := recover_pubkey_spec hf msg_hash r s' rec_id'
  rw [hq, hq']
  rcases hs with ⟨Q, hQ, hs⟩ | ⟨rfl, hn⟩ <;> rcases hs' with ⟨Q', hQ', hs'⟩ | ⟨rfl, hn'⟩
  case inl.inl => exact congrArg some <| hs.unique <| ((h Q).mp hQ).unique hQ' ▸ hs'
  case inl.inr => exact absurd ((h Q).mp hQ) <| hn' Q
  case inr.inl => exact absurd ((h Q').mpr hQ') <| hn Q'
  case inr.inr => rfl

variable (msg_hash r s)

-- The keys which are recovered with one of the identifiers are those which verify the signature.
theorem recover_pubkey_verifies_iff (hf : 2 ^ 257 ≤ fuel) (c : U256 × U256) :
    (∃ rec_id, recover_pubkey fuel msg_hash r s rec_id = some (some c)) ↔ r.val < N.val ∧ s.val < N.val ∧
      ∃ Q, Stands (some c) Q ∧ Ecdsa.Verifies G Curve.abscissa ((from_be_bytes msg_hash).val : ZMod Curve.n)
        (r.val : ZMod Curve.n) (s.val : ZMod Curve.n) Q := by
  rw [val_N]
  constructor
  case mp =>
    rintro ⟨rec_id, h⟩
    obtain ⟨Q, hs, hQ⟩ := (recover_pubkey_eq_some hf).mp h
    exact ⟨hQ.r_lt, hQ.s_lt, Q, hs, (Curve.exists_recovers_iff hQ.r_lt hQ.s_lt).mp ⟨_, hQ⟩⟩
  case mpr =>
    rintro ⟨hr, hs, Q, hst, hv⟩
    obtain ⟨id, hQ⟩ := (Curve.exists_recovers_iff hr hs).mpr hv
    have hid : (UInt8.ofNat id).toNat = id := by
      have := hQ.id_le
      rw [UInt8.toNat_ofNat']
      omega
    exact ⟨.ofNat id, (recover_pubkey_eq_some hf).mpr ⟨Q, hst, hid.symm ▸ hQ⟩⟩

theorem recover_pubkey_verifies_zero : (∃ rec_id, recover_pubkey (2 ^ 257) (List.Vector.replicate 32 0) GX GX rec_id = some (some (GX, GY))) ↔
    GX.val < N.val ∧ GX.val < N.val ∧ ∃ Q, Stands (some (GX, GY)) Q ∧ Ecdsa.Verifies G Curve.abscissa
      ((from_be_bytes <| List.Vector.replicate 32 0).val : ZMod Curve.n) (GX.val : ZMod Curve.n) (GX.val : ZMod Curve.n) Q :=
  recover_pubkey_verifies_iff _ GX GX le_rfl (GX, GY)

-- The key of the secret `d` is recovered from what is signed with the nonce `k`, whichever point it is.
theorem recover_pubkey_sign (hf : 2 ^ 257 ≤ fuel) {k d : U256} (hk : scalar_mul fuel k (some (GX, GY)) = some (some (x, y)))
    (hd : d.val % N.val ≠ 0) (hr : r.val = x.val % N.val) (hr₀ : 0 < r.val) (hs₀ : 0 < s.val) (hs : s.val < N.val)
    (he : s.val * k.val % N.val = ((from_be_bytes msg_hash).val + r.val * d.val) % N.val)
    (hid : rec_id.toNat = 2 * (x.val / N.val) + y.val % 2) :
    recover_pubkey fuel msg_hash r s rec_id = scalar_mul fuel d (some (GX, GY)) := by
  rw [val_N] at *
  obtain ⟨q, hq, hQ⟩ := scalar_mul_spec (k := k) hf stands_generator
  obtain rfl : some (x, y) = q := Option.some_inj.mp <| hk.symm.trans hq
  obtain ⟨q, hq, hD⟩ := scalar_mul_spec (k := d) hf stands_generator
  rw [hr] at hr₀ he
  have h := Curve.recovers_sign hd (stands_iff.mp hQ) hr₀ hs₀ hs he
  rw [hq]
  rcases q with _ | c
  case none => exact absurd (stands_none.mp hD) h.key_ne
  case some => exact (recover_pubkey_eq_some hf).mpr ⟨_, hD, by rw [hr, hid]; exact h⟩

-- The signature with the opposite scalar recovers the same key, with the other of the two identifiers.
theorem recover_pubkey_opposite (hf : 2 ^ 257 ≤ fuel) (rec_id : UInt8) (hs : s.val ≤ N.val) :
    recover_pubkey fuel msg_hash r (N.sbb s).fst (rec_id ^^^ 1) = recover_pubkey fuel msg_hash r s rec_id := by
  have hv : (N.sbb s).fst.val = Curve.n - s.val := by rw [val_sbb_of_le hs, val_N]
  have hx : (rec_id ^^^ 1).toNat / 2 = rec_id.toNat / 2 ∧ (rec_id ^^^ 1).toNat % 2 ≠ rec_id.toNat % 2 := by
    have hx : (rec_id ^^^ 1).toNat = rec_id.toNat ^^^ 1 := UInt8.toNat_xor rec_id 1
    have hm : (rec_id.toNat ^^^ 1) % 2 = (rec_id.toNat + 1) % 2 := Nat.xor_mod_two_eq
    rw [hx, Nat.xor_div_two]
    exact ⟨Nat.xor_zero _, by omega⟩
  rw [val_N] at hs
  refine recover_pubkey_congr hf fun Q => ⟨fun h => ?_, fun h => ?_⟩
  case refine_1 =>
    have := h.neg hx.left.symm hx.right.symm
    rwa [hv, Nat.sub_sub_self hs] at this
  case refine_2 =>
    rw [hv]
    exact h.neg hx.left hx.right

theorem recover_pubkey_opposite_generator : recover_pubkey (2 ^ 257) (List.Vector.replicate 32 0) GX (N.sbb GX).fst (0 ^^^ 1) =
    recover_pubkey (2 ^ 257) (List.Vector.replicate 32 0) GX GX 0 :=
  recover_pubkey_opposite _ GX GX le_rfl 0 (by decide)

end

theorem value_to_be_bytes (a : U256) : Numeral.value 256 (a.to_be_bytes.val.map UInt8.toNat) = a.val :=
  value_flatMap_bytesOf a.limbs

-- The last byte is the parity, or the parity and 27.
theorem toNat_recIdOf {v : UInt8} {b : ℕ} (hb : b < 2) (hv : v.toNat = b ∨ v.toNat = 27 + b) : (recIdOf v).toNat = b := by
  have h (w : UInt8) (h : v.toNat = w.toNat) : v = w := UInt8.toNat_inj.mp h
  obtain rfl | rfl : b = 0 ∨ b = 1 := by omega
  · obtain rfl | rfl := hv.imp (h 0) (h 27) <;> rfl
  · obtain rfl | rfl := hv.imp (h 1) (h 28) <;> rfl

-- The address of the signer is recovered from the bytes of the signature, unless the abscissa is not below `N`.
theorem recover_personal_sign_sign (hf : 2 ^ 257 ≤ fuel) (message : Bytes) {k d s : U256} {v : UInt8}
    (hk : scalar_mul fuel k (some (GX, GY)) = some (some (x, y))) (hd : d.val % N.val ≠ 0) (hx₀ : 0 < x.val) (hx : x.val < N.val)
    (hs₀ : 0 < s.val) (hs : s.val < N.val)
    (he : s.val * k.val % N.val = ((from_be_bytes (eip191_hash message)).val + x.val * d.val) % N.val)
    (hv : v.toNat = y.val % 2 ∨ v.toNat = 27 + y.val % 2) :
    recover_personal_sign fuel message (x.to_be_bytes.val ++ s.to_be_bytes.val ++ [v]) =
      (scalar_mul fuel d (some (GX, GY))).map (·.map address) := by
  have hx' := x.to_be_bytes.property
  have hs' := s.to_be_bytes.property
  have hl : (x.to_be_bytes.val ++ s.to_be_bytes.val ++ [v]).length = 65 := by
    rw [List.length_append, List.length_append, hx', hs', List.length_singleton]
  have ht : (x.to_be_bytes.val ++ s.to_be_bytes.val ++ [v]).take 32 = x.to_be_bytes.val := by
    rw [List.append_assoc, List.take_left' hx']
  have hm : ((x.to_be_bytes.val ++ s.to_be_bytes.val ++ [v]).drop 32).take 32 = s.to_be_bytes.val := by
    rw [List.append_assoc, List.drop_left' hx', List.take_left' hs']
  have hg : (x.to_be_bytes.val ++ s.to_be_bytes.val ++ [v]).getD 64 0 = v := by
    rw [List.getD_append_right _ _ _ _ (by rw [List.length_append, hx', hs']), List.length_append, hx', hs']
    rfl
  have h := recover_personal_sign_eq fuel message hl
  generalize x.to_be_bytes.val ++ s.to_be_bytes.val ++ [v] = sig at *
  have hr : from_be_bytes ⟨sig.take 32, by simp [hl]⟩ = x :=
    val_inj <| (val_from_be_bytes _).trans <| (congrArg (fun l => Numeral.value 256 (l.map UInt8.toNat)) ht).trans <|
      value_to_be_bytes x
  have hsv : from_be_bytes ⟨(sig.drop 32).take 32, by simp [hl]⟩ = s :=
    val_inj <| (val_from_be_bytes _).trans <| (congrArg (fun l => Numeral.value 256 (l.map UInt8.toNat)) hm).trans <|
      value_to_be_bytes s
  have hid : (recIdOf v).toNat = 2 * (x.val / N.val) + y.val % 2 := by
    rw [toNat_recIdOf (Nat.mod_lt _ (by omega)) hv, Nat.div_eq_of_lt hx, mul_zero, zero_add]
  rw [h, hr, hsv, hg, recover_pubkey_sign _ _ _ hf hk hd (Nat.mod_eq_of_lt hx).symm hx₀ hs₀ hs he hid]
  cases scalar_mul fuel d (some (GX, GY)) <;> rfl

theorem scalar_mul_one : scalar_mul (2 ^ 257) ONE (some (GX, GY)) = some (some (GX, GY)) := by
  obtain ⟨q, hq, hQ⟩ := scalar_mul_spec (k := ONE) le_rfl stands_generator
  rw [val_ONE, one_nsmul] at hQ
  rw [hq, hQ.unique stands_generator]

theorem recover_personal_sign_nil : ∃ s : U256, recover_personal_sign (2 ^ 257) [] (GX.to_be_bytes.val ++ s.to_be_bytes.val ++ [27]) =
    (scalar_mul (2 ^ 257) ONE (some (GX, GY))).map (·.map address) := by
  have hh : (from_be_bytes <| eip191_hash []).val = 0x5f35dce98ba4fba25530a026ed80b2cecdaa31091ba4958b99b52ea1d068adad := by
    rw [eip191_hash, VerifierRs.keccak256_eq]
    decide +kernel
  obtain ⟨s, hs⟩ := exists_val (m := (0x5f35dce98ba4fba25530a026ed80b2cecdaa31091ba4958b99b52ea1d068adad + GX.val) % N.val) (by decide)
  refine ⟨s, recover_personal_sign_sign (d := ONE) (v := 27) le_rfl [] scalar_mul_one (by decide) (by decide) (by decide) ?_ ?_ ?_ (by decide)⟩
  · rw [hs]
    decide
  · rw [hs]
    decide
  · rw [hs, hh]
    decide

end Secp256k1

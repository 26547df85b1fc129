import Verifyhash.Verifier.Keccak
import Verifyhash.VerifierRs.Theorems.Field

-- The big-endian bytes of the numbers of `verifier-rs/src/field.rs`.
namespace FieldArith.U256

theorem toNat_shift_or {v : UInt64} {b : UInt8} (h : v.toNat < 2 ^ 56) :
    (v <<< 8 ||| b.toUInt64).toNat = v.toNat * 256 + b.toNat := by
  have hb := b.toNat_lt
  have hs : (v <<< 8).toNat = v.toNat <<< 8 := by
    rw [UInt64.toNat_shiftLeft]
    change (v.toNat <<< 8) % 2 ^ 64 = _
    rw [Nat.shiftLeft_eq]
    omega
  rw [UInt64.toNat_or, hs, UInt8.toNat_toUInt64, ←Nat.shiftLeft_add_eq_or_of_lt hb, Nat.shiftLeft_eq]

theorem toNat_limbOf {bytes : Bytes} (h : bytes.length ≤ 8) :
    (limbOf bytes).toNat = Numeral.value 256 (bytes.map UInt8.toNat) := by
  induction bytes using List.reverseRecOn
  case nil => rfl
  case append_singleton bytes b ih =>
    rw [List.length_append, List.length_singleton] at h
    have ih := ih (by omega)
    have hlt := Bytes.value_lt bytes
    have hle : 256 ^ bytes.length ≤ 256 ^ 7 := Nat.pow_le_pow_right (by omega) (by omega)
    rw [limbOf, List.foldl_append, List.map_append, List.map_singleton, Numeral.value_concat, ←ih]
    exact toNat_shift_or <| by
      rw [←limbOf, ih]
      omega

theorem val_from_be_bytes (b : Digest) : (from_be_bytes b).val = Numeral.value 256 (b.val.map UInt8.toNat) := by
  have hl (i : ℕ) (hi : i < 4) : ((b.val.drop <| i * 8).take 8).length = 8 := by
    have := b.property
    rw [List.length_take, List.length_drop]
    omega
  have hs : b.val = (b.val.drop 0).take 8 ++ ((b.val.drop 8).take 8 ++ ((b.val.drop 16).take 8 ++ (b.val.drop 24).take 8)) := by
    have h₃ : (b.val.drop 24).take 8 = b.val.drop 24 := List.take_of_length_le <| by
      have := b.property
      rw [List.length_drop]
      omega
    have hd (i : ℕ) : (b.val.drop i).take 8 ++ b.val.drop (i + 8) = b.val.drop i := by
      rw [←List.drop_drop, List.take_append_drop]
    rw [h₃, hd 16, hd 8, hd 0, List.drop_zero]
  conv => rhs; rw [hs]
  rw [List.map_append, List.map_append, List.map_append, Numeral.value_append, Numeral.value_append, Numeral.value_append,
    val, from_be_bytes]
  have h₀ := hl 0 (by omega)
  have h₁ := hl 1 (by omega)
  have h₂ := hl 2 (by omega)
  have h₃ := hl 3 (by omega)
  simp only [List.map_cons, List.map_nil, Limbs.value, toNat_limbOf h₀.le, toNat_limbOf h₁.le, toNat_limbOf h₂.le,
    toNat_limbOf h₃.le, List.length_append, List.length_map] at *
  simp only [Nat.reduceMul] at h₁ h₂ h₃ ⊢
  rw [h₁, h₂, h₃]
  norm_num
  ring

theorem value_bytesOf (v : UInt64) : Numeral.value 256 ((bytesOf v).map UInt8.toNat) = v.toNat := by
  have hv := v.toNat_lt
  have hb (j : ℕ) (h : j < 8) : ((v >>> .ofNat (8 * (7 - j))).toUInt8).toNat = v.toNat / 2 ^ (8 * (7 - j)) % 256 := by
    have hm : (UInt64.ofNat (8 * (7 - j))).toNat % 64 = 8 * (7 - j) := by
      rw [UInt64.toNat_ofNat']
      omega
    rw [UInt64.toNat_toUInt8, UInt64.toNat_shiftRight, hm, Nat.shiftRight_eq_div_pow]
  have hl : (bytesOf v).map UInt8.toNat = (List.range 8).map fun j => v.toNat / 2 ^ (8 * (7 - j)) % 256 := by
    rw [bytesOf, List.map_map]
    exact List.map_congr_left fun j hj => hb j <| List.mem_range.mp hj
  have hr : List.range 8 = [0, 1, 2, 3, 4, 5, 6, 7] := rfl
  rw [hl, hr, Numeral.value]
  simp only [List.map_cons, List.map_nil, List.foldl_cons, List.foldl_nil, Nat.reduceSub, Nat.reduceMul, Nat.reducePow]
  omega

theorem value_flatMap_bytesOf (ls : List UInt64) :
    Numeral.value 256 ((ls.reverse.flatMap bytesOf).map UInt8.toNat) = Limbs.value ls := by
  induction ls
  case nil => rfl
  case cons l ls ih =>
    rw [List.reverse_cons, List.flatMap_append, List.map_append, Numeral.value_append, ih, List.flatMap_singleton,
      value_bytesOf, Limbs.value]
    have : ((bytesOf l).map UInt8.toNat).length = 8 := by simp [bytesOf]
    rw [this]
    norm_num
    ring

theorem map_ofNat_toNat (bytes : Bytes) : (bytes.map UInt8.toNat).map UInt8.ofNat = bytes := by
  rw [List.map_map]
  exact (List.map_congr_left fun b _ => UInt8.ofNat_toNat).trans <| List.map_id bytes

theorem to_be_bytes_eq (a : U256) : a.to_be_bytes.val = Bytes.ofNat 32 a.val := by
  have hd : ∀ d ∈ a.to_be_bytes.val.map UInt8.toNat, d < 256 := by simpa using fun b _ => b.toNat_lt
  have hv := value_flatMap_bytesOf a.limbs
  have hl : (a.to_be_bytes.val.map UInt8.toNat).length = 32 := by
    rw [List.length_map]
    exact a.to_be_bytes.property
  have h := Numeral.digits_value hd
  rw [hl] at h
  rw [Bytes.ofNat, val, ←hv]
  change _ = (Numeral.digits 256 32 <| Numeral.value 256 <| a.to_be_bytes.val.map UInt8.toNat).map _
  rw [h]
  exact (map_ofNat_toNat _).symm

end FieldArith.U256

import Verifyhash.Library.Numeral

abbrev Bytes := List UInt8

-- A `bytes32` value, which the sources write as 64 hexadecimal digits.
abbrev Bytes32 := BitVec 256

instance : LinearOrder Bytes32 where
  le_refl _             := BitVec.le_refl _
  le_trans _ _ _        := BitVec.le_trans
  le_antisymm _ _       := BitVec.le_antisymm
  le_total              := BitVec.le_total
  lt_iff_le_not_ge a b  := by simp only [BitVec.le_def, BitVec.lt_def]; omega
  toDecidableLE         := inferInstance
  toDecidableEq         := inferInstance

namespace Bytes

-- The bytes of an ASCII literal.
def ofAscii (s : String) : Bytes :=
  s.toList.map fun c => .ofNat c.toNat

-- The `len` big-endian bytes of a number.
def ofNat (len x : ℕ) : Bytes :=
  (Numeral.digits 256 len x).map .ofNat

def ofBytes32 (w : Bytes32) : Bytes :=
  ofNat 32 w.toNat

-- The lexicographic comparison, where a prefix comes first.
def compare : Bytes → Bytes → Ordering
  | [], []           => .eq
  | [], _ :: _       => .lt
  | _ :: _, []       => .gt
  | a :: as, b :: bs => if a < b then .lt else if b < a then .gt else compare as bs

@[simp]
theorem length_ofNat : (ofNat len x).length = len := by
  simp [ofNat]

@[simp]
theorem length_ofBytes32 : (ofBytes32 w).length = 32 :=
  length_ofNat

theorem map_toNat_ofNat : (ofNat len x).map UInt8.toNat = Numeral.digits 256 len x := by
  rw [ofNat, List.map_map]
  conv => rhs; rw [←List.map_id (Numeral.digits 256 len x)]
  apply List.map_congr_left
  intro d hd
  have := Numeral.digits_lt (by omega) hd
  simpa using Nat.mod_eq_of_lt this

theorem ofNat_inj (hx : x < 256 ^ len) (hy : y < 256 ^ len) (h : ofNat len x = ofNat len y) :
    x = y := by
  rw [←Numeral.value_digits hx, ←Numeral.value_digits hy, ←map_toNat_ofNat, h, map_toNat_ofNat]

theorem ofBytes32_inj (h : ofBytes32 v = ofBytes32 w) : v = w :=
  BitVec.eq_of_toNat_eq <| ofNat_inj v.isLt w.isLt h

-- Two lists of `bytes32` fields, one after the other, determine their fields.
theorem ofBytes32_append_inj (h : ofBytes32 v₁ ++ bs₁ = ofBytes32 v₂ ++ bs₂) :
    v₁ = v₂ ∧ bs₁ = bs₂ :=
  have ⟨hv, hb⟩ := List.append_inj h (by simp)
  ⟨ofBytes32_inj hv, hb⟩

theorem value_lt (bs : Bytes) : Numeral.value 256 (bs.map UInt8.toNat) < 256 ^ bs.length := by
  have : ∀ d ∈ bs.map UInt8.toNat, d < 256 := by simpa using fun b _ => b.toNat_lt
  simpa using Numeral.value_lt this

-- Lists of the same length are ordered like the numbers which they spell.
theorem compare_isLE_iff {as bs : Bytes} (h : as.length = bs.length) :
    (compare as bs).isLE ↔
      Numeral.value 256 (as.map UInt8.toNat) ≤ Numeral.value 256 (bs.map UInt8.toNat) := by
  induction as generalizing bs <;> cases bs
  case nil.nil => simp [compare]
  case nil.cons | cons.nil => simp at h
  case cons.cons a as ih b bs =>
    have h := Nat.succ.inj h
    have ha := value_lt as
    have hb := value_lt bs
    have hm {x y : UInt8} (h : x < y) : (x.toNat + 1) * 256 ^ bs.length ≤ y.toNat * 256 ^ bs.length :=
      Nat.mul_le_mul_right _ <| UInt8.lt_iff_toNat_lt.mp h
    simp only [List.map_cons, Numeral.value_cons, List.length_map, h, Nat.add_one_mul] at ha hb hm ⊢
    rw [compare]
    split_ifs with hlt hgt
    · have := hm hlt
      simp only [Ordering.isLE_lt, true_iff]
      omega
    · have := hm hgt
      simp only [Ordering.isLE_gt, Bool.false_eq_true, false_iff]
      omega
    · rw [UInt8.lt_iff_toNat_lt] at hlt hgt
      rw [ih h, show a.toNat = b.toNat by omega]
      omega

theorem compare_ofBytes32 : (compare (ofBytes32 v) (ofBytes32 w)).isLE ↔ v ≤ w := by
  have hv (w : Bytes32) : Numeral.value 256 ((ofBytes32 w).map UInt8.toNat) = w.toNat := by
    have hw : w.toNat < 256 ^ 32 := w.isLt
    rw [ofBytes32, map_toNat_ofNat, Numeral.value_digits hw]
  rw [compare_isLE_iff (by simp), hv, hv, BitVec.le_def]

-- Keeps `whnf` from computing the bytes of a value which is not a literal.
attribute [irreducible] ofNat

end Bytes

import Verifyhash.Library.Numeral

-- The finite values of the IEEE 754 format with 64 bits, as rational numbers.
namespace Double

def IsDouble (q : ℚ) : Prop :=
  ∃ m e : ℤ, |m| < 2 ^ 53 ∧ -1074 ≤ e ∧ e ≤ 971 ∧ q = m * 2 ^ e

-- The nearest integer, where ties go to the even one.
def nearest (q : ℚ) : ℤ :=
  let f := ⌊q⌋
  if 2 * (q - f) < 1 ∨ 2 * (q - f) = 1 ∧ f % 2 = 0 then f else f + 1

-- The exponent of the distance between neighbouring values at the size of `q`.
def unit (q : ℚ) : ℤ :=
  max (Int.log 2 |q| - 52) (-1074)

-- The value to which `q` is rounded, unless it is rounded to an infinity.
def round (q : ℚ) : Option ℚ :=
  let r : ℚ := nearest (q / 2 ^ unit q) * 2 ^ unit q
  if |r| < 2 ^ 1024 then some r else none

section

variable (q : ℚ)

-- The position of the decimal point: the greatest digit of `q` is the first one after it, if `q` is
-- divided by `10 ^ magnitude q`.
def magnitude : ℤ :=
  Int.log 10 q + 1

-- The integers next to `q`, of which the nearer one comes first.
def neighbours : List ℕ :=
  let f := ⌊q⌋₊
  if nearest q = f then [f, f + 1] else [f + 1, f]

-- A decimal with `k` digits, which are given with the exponent of the last one, which is rounded to `q`.
def decimal? (k : ℕ) : Option (ℕ × ℤ) :=
  let x := magnitude q - k
  (neighbours (q / 10 ^ x)).find? (fun s : ℕ => round (s * 10 ^ x) = some q) |>.map (·, x)

-- The shortest decimal which is rounded to a positive value `q`, as the list of its digits and the
-- position of the decimal point relative to the first one.
def shortest : List ℕ × ℤ :=
  let digits? := (List.range (magnitude q + 1074).toNat).findSome? fun i =>
    (decimal? q (i + 1)).map fun (s, x) =>
      -- There is one more digit than asked for if the value was rounded up to a power of ten.
      if s = 10 ^ (i + 1) then
        (Numeral.digits 10 (i + 1) (10 ^ i), x + i + 2)
      else
        (Numeral.digits 10 (i + 1) s, x + i + 1)
  digits?.getD ([], 0)

end

@[simp]
theorem nearest_intCast (m : ℤ) : nearest m = m := by
  simp [nearest]

theorem isDouble_natCast {n : ℕ} (h : n < 2 ^ 53) : IsDouble n :=
  ⟨n, 0, by simpa using (by exact_mod_cast h : (n : ℤ) < 2 ^ 53), by omega, by omega, by simp⟩

section

variable {q : ℚ}

namespace IsDouble

theorem neg (h : IsDouble q) : IsDouble (-q) := by
  obtain ⟨m, e, hm, h₁, h₂, rfl⟩ := h
  exact ⟨-m, e, by rwa [abs_neg], h₁, h₂, by push_cast; ring⟩

theorem abs_lt (h : IsDouble q) : |q| < 2 ^ 1024 := by
  obtain ⟨m, e, hm, _, h₂, rfl⟩ := h
  have hm : |(m : ℚ)| < 2 ^ 53 := by exact_mod_cast hm
  have he : (2 : ℚ) ^ e ≤ 2 ^ 971 := by
    simpa using zpow_le_zpow_right₀ (by norm_num : (1 : ℚ) ≤ 2) h₂
  rw [abs_mul, abs_of_pos (by positivity : (0 : ℚ) < 2 ^ e)]
  calc |(m : ℚ)| * 2 ^ e
    _ ≤ |(m : ℚ)| * 2 ^ 971 := by gcongr
    _ < 2 ^ 53 * 2 ^ 971    := by gcongr
    _ = 2 ^ 1024            := (pow_add ..).symm

-- A value is a multiple of the distance to its neighbours.
theorem exists_mul_unit (h : IsDouble q) : ∃ r : ℤ, q = r * 2 ^ unit q := by
  obtain ⟨m, e, hm, h₁, _, rfl⟩ := h
  by_cases hz : m = 0
  case pos => exact ⟨0, by simp [hz]⟩
  case neg =>
    have hq : |(m : ℚ) * 2 ^ e| < 2 ^ (e + 53) := by
      have hm : |(m : ℚ)| < 2 ^ 53 := by exact_mod_cast hm
      rw [abs_mul, abs_of_pos (by positivity : (0 : ℚ) < 2 ^ e), zpow_add₀ (by norm_num), mul_comm]
      exact mul_lt_mul_of_pos_left (by simpa using hm) (by positivity)
    have hp : 0 < |(m : ℚ) * 2 ^ e| := by positivity
    have hl : Int.log 2 |(m : ℚ) * 2 ^ e| < e + 53 := (Int.lt_zpow_iff_log_lt (by norm_num) hp).mp <| by
      simpa using hq
    have hu : unit (m * 2 ^ e) ≤ e := max_le (by omega) h₁
    refine ⟨m * 2 ^ (e - unit (m * 2 ^ e)).toNat, ?_⟩
    have : (2 : ℚ) ^ (e - unit (m * 2 ^ e)).toNat = 2 ^ (e - unit (m * 2 ^ e)) := by
      rw [←zpow_natCast, Int.toNat_of_nonneg (by omega)]
    push_cast
    rw [this, mul_assoc, ←zpow_add₀ (by norm_num), sub_add_cancel]

end IsDouble

-- A value is rounded to itself.
theorem round_eq (h : IsDouble q) : round q = some q := by
  have ⟨r, hr⟩ := h.exists_mul_unit
  have hd : q / 2 ^ unit q = r := by
    rw [div_eq_iff (by positivity)]
    exact hr
  rw [round, hd, nearest_intCast, ←hr, if_pos h.abs_lt]

-- Every positive value is a finite decimal, since ten is a multiple of two.
theorem IsDouble.exists_decimal (h : IsDouble q) (hq : 0 < q) :
    0 < magnitude q + 1074 ∧ ∃ s : ℕ, q / 10 ^ (-1074 : ℤ) = s := by
  obtain ⟨m, e, _, he, _, rfl⟩ := h
  have hm : 0 < (m : ℚ) := pos_of_mul_pos_left hq (by positivity)
  have hm : 1 ≤ m := by exact_mod_cast hm
  lift m to ℕ using by omega
  obtain ⟨n, hn⟩ : ∃ n : ℕ, (n : ℤ) = 1074 := ⟨1074, rfl⟩
  rw [←hn] at he ⊢
  constructor
  case left =>
    have h₁ : ((10 : ℕ) : ℚ) ^ (-(n : ℤ)) ≤ (m : ℤ) * 2 ^ e := calc
      _ ≤ (2 : ℚ) ^ (-(n : ℤ)) := by
        rw [zpow_neg, zpow_neg, zpow_natCast, zpow_natCast]
        exact inv_anti₀ (by positivity) <| pow_le_pow_left₀ (by norm_num) (by norm_num) n
      _ ≤ 2 ^ e         := zpow_le_zpow_right₀ (by norm_num) he
      _ ≤ (m : ℤ) * 2 ^ e := le_mul_of_one_le_left (by positivity) (by exact_mod_cast hm)
    have := Int.zpow_le_iff_le_log (by norm_num) hq |>.mp h₁
    rw [magnitude]
    omega
  case right =>
    refine ⟨m * 2 ^ (e + n).toNat * 5 ^ n, ?_⟩
    have h₁ : (2 : ℚ) ^ (e + n).toNat = 2 ^ e * 2 ^ n := by
      rw [←zpow_natCast, Int.toNat_of_nonneg (by omega), zpow_add₀ (by norm_num), zpow_natCast]
    have h₂ : (10 : ℚ) ^ n = 2 ^ n * 5 ^ n := by
      rw [←mul_pow]
      norm_num
    push_cast
    rw [h₁, zpow_neg, div_inv_eq_mul, zpow_natCast, h₂]
    ring

theorem nearest_mem (q : ℚ) : nearest q = ⌊q⌋ ∨ nearest q = ⌊q⌋ + 1 := by
  rw [nearest]
  split_ifs <;> simp

-- The digits of a decimal which is rounded to `q`.
structure Shortest (q : ℚ) (ds : List ℕ) (n : ℤ) : Prop where
  ne_nil : ds ≠ []
  lt     : ∀ d ∈ ds, d < 10
  head   : ds.head? ≠ some 0
  round  : round (Numeral.value 10 ds * 10 ^ (n - ds.length)) = some q

theorem zpow_magnitude_le (hq : 0 < q) (k : ℕ) :
    10 ^ k ≤ q / 10 ^ (magnitude q - (k + 1 : ℕ)) ∧
      q / 10 ^ (magnitude q - (k + 1 : ℕ)) < 10 ^ (k + 1) := by
  have h₁ : ((10 : ℕ) : ℚ) ^ Int.log 10 q ≤ q := Int.zpow_log_le_self (by norm_num) hq
  have h₂ : q < ((10 : ℕ) : ℚ) ^ (Int.log 10 q + 1) := Int.lt_zpow_succ_log_self (by norm_num) q
  rw [le_div_iff₀ (by positivity), div_lt_iff₀ (by positivity), ←zpow_natCast, ←zpow_natCast,
    ←zpow_add₀ (by norm_num), ←zpow_add₀ (by norm_num), magnitude]
  push_cast at h₁ h₂ ⊢
  have hk : (k : ℤ) + (Int.log 10 q + 1 - (k + 1)) = Int.log 10 q := by ring
  have hk' : (k : ℤ) + 1 + (Int.log 10 q + 1 - (k + 1)) = Int.log 10 q + 1 := by ring
  rw [hk, hk']
  exact ⟨h₁, h₂⟩

theorem decimal?_eq_some (hq : 0 < q) (h : decimal? q (k + 1) = some (s, x)) :
    x = magnitude q - (k + 1) ∧ 10 ^ k ≤ s ∧ s ≤ 10 ^ (k + 1) ∧ round (s * 10 ^ x) = some q := by
  simp only [decimal?, Option.map_eq_some_iff, Prod.mk.injEq] at h
  obtain ⟨_, hs, rfl, rfl⟩ := h
  have hr := List.find?_some hs
  have hs := List.mem_of_find?_eq_some hs
  have ⟨h₁, h₂⟩ := zpow_magnitude_le hq k
  have h₁ : 10 ^ k ≤ ⌊q / 10 ^ (magnitude q - (k + 1 : ℕ))⌋₊ := Nat.le_floor <| by exact_mod_cast h₁
  have h₂ : ⌊q / 10 ^ (magnitude q - (k + 1 : ℕ))⌋₊ < 10 ^ (k + 1) :=
    Nat.floor_lt (by positivity) |>.mpr <| by exact_mod_cast h₂
  refine ⟨by push_cast; rfl, ?_, ?_, by simpa using hr⟩ <;>
    · rw [neighbours] at hs
      split_ifs at hs <;> simp only [List.mem_cons, List.not_mem_nil, or_false] at hs <;> omega

theorem shortest_isSome (h : IsDouble q) (hq : 0 < q) :
    ∃ k : ℕ, k + 1 = (magnitude q + 1074).toNat ∧ (decimal? q (k + 1)).isSome := by
  have ⟨hm, s, hs⟩ := h.exists_decimal hq
  refine ⟨(magnitude q + 1074).toNat - 1, by omega, ?_⟩
  have hx : magnitude q - ((magnitude q + 1074).toNat - 1 + 1 : ℕ) = -1074 := by omega
  have hn : s ∈ neighbours (s : ℚ) := by
    rw [neighbours]
    split_ifs <;> simp
  have hr : round (s * 10 ^ (-1074 : ℤ)) = some q := by
    rw [←hs, div_mul_cancel₀ _ (by positivity), round_eq h]
  simp only [decimal?, hx, hs, Option.isSome_map, List.find?_isSome, decide_eq_true_eq]
  exact ⟨s, hn, hr⟩

theorem shortest_of_digits {k s : ℕ} {n : ℤ} (hk : 10 ^ k ≤ s) (hs : s < 10 ^ (k + 1))
    (hr : round (s * 10 ^ (n - (k + 1))) = some q) : Shortest q (Numeral.digits 10 (k + 1) s) n where
  ne_nil  := List.ne_nil_of_length_pos <| by simp
  lt _    := Numeral.digits_lt (by norm_num)
  head h  := by
    have ⟨ds, hds⟩ := List.head?_eq_some_iff.mp h
    have hl := congrArg List.length hds
    have hd : ∀ d ∈ ds, d < 10 := fun d hd =>
      Numeral.digits_lt (by norm_num) <| hds ▸ List.mem_cons_of_mem _ hd
    have hv := Numeral.value_lt hd
    have := Numeral.value_digits hs
    rw [hds, Numeral.value_cons] at this
    rw [Numeral.digits_length, List.length_cons] at hl
    obtain rfl : k = ds.length := by omega
    omega
  round   := by
    rw [Numeral.value_digits hs, Numeral.digits_length]
    exact_mod_cast hr

theorem shortest_spec (h : IsDouble q) (hq : 0 < q) :
    Shortest q (shortest q).fst (shortest q).snd := by
  have ⟨k, hk, hd⟩ := shortest_isSome h hq
  rw [shortest]
  generalize hf : List.findSome? _ _ = digits?
  cases digits?
  case none =>
    rw [List.findSome?_eq_none_iff] at hf
    have := hf k <| List.mem_range.mpr <| by omega
    rw [Option.map_eq_none_iff] at this
    simp [this] at hd
  case some digits =>
    obtain ⟨i, _, hi⟩ := List.exists_of_findSome?_eq_some hf
    rw [Option.map_eq_some_iff] at hi
    obtain ⟨⟨s, x⟩, hd, rfl⟩ := hi
    have ⟨_, h₁, h₂, hr⟩ := decimal?_eq_some hq hd
    simp only [Option.getD_some]
    split_ifs with hs
    case pos =>
      have hp : 10 ^ i < 10 ^ (i + 1) := Nat.pow_lt_pow_succ (by norm_num)
      have hn : x + i + 2 - (i + 1) = x + 1 := by ring
      refine shortest_of_digits (le_refl _) hp ?_
      rw [hn, ←hr, hs, zpow_add₀ (by norm_num)]
      push_cast
      ring_nf
    case neg =>
      have hn : x + i + 1 - (i + 1) = x := by ring
      exact shortest_of_digits h₁ (by omega) <| by rwa [hn]

theorem round_zero : round 0 = some 0 :=
  round_eq ⟨0, 0, by simp⟩

end

end Double

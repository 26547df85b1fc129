import Mathlib

-- Numerals of a fixed width, with the most significant digit first.
namespace Numeral

def digits (b : ℕ) : (width : ℕ) → ℕ → List ℕ
  | 0, _     => []
  | w + 1, x => digits b w (x / b) ++ [x % b]

def value (b : ℕ) (ds : List ℕ) : ℕ :=
  ds.foldl (fun acc d => acc * b + d) 0

@[simp]
theorem value_concat : value b (ds ++ [d]) = value b ds * b + d := by
  simp [value]

@[simp]
theorem digits_length : (digits b w x).length = w := by
  induction w generalizing x <;> simp_all [digits]

theorem digits_lt (hb : 0 < b) (h : d ∈ digits b w x) : d < b := by
  induction w generalizing x
  case zero => simp [digits] at h
  case succ ih =>
    rcases List.mem_append.mp h with h | h
    · exact ih h
    · exact List.mem_singleton.mp h ▸ Nat.mod_lt _ hb

theorem value_digits (h : x < b ^ w) : value b (digits b w x) = x := by
  induction w generalizing x
  case zero => simp_all [digits, value]
  case succ ih =>
    have hd : x / b < b ^ _ := Nat.div_lt_of_lt_mul <| by rwa [Nat.mul_comm, ←Nat.pow_succ]
    rw [digits, value_concat, ih hd, Nat.mul_comm]
    exact Nat.div_add_mod x b

theorem value_lt (h : ∀ d ∈ ds, d < b) : value b ds < b ^ ds.length := by
  induction ds using List.reverseRecOn
  case nil => simp [value]
  case append_singleton ds d ih =>
    have hd := h d (by simp)
    have hv := ih fun d hd => h d (by simp [hd])
    rw [value_concat, List.length_append, List.length_singleton, Nat.pow_succ]
    calc value b ds * b + d
      _ < (value b ds + 1) * b  := by rw [Nat.add_mul]; omega
      _ ≤ b ^ ds.length * b     := Nat.mul_le_mul_right b hv

theorem value_cons : value b (d :: ds) = d * b ^ ds.length + value b ds := by
  induction ds using List.reverseRecOn
  case nil => simp [value]
  case append_singleton ds e ih =>
    rw [←List.cons_append, value_concat, ih, value_concat, List.length_append, List.length_singleton,
      Nat.pow_succ]
    ring

theorem value_append : value b (ds₁ ++ ds₂) = value b ds₁ * b ^ ds₂.length + value b ds₂ := by
  induction ds₁
  case nil => simp [value]
  case cons d ds₁ ih =>
    rw [List.cons_append, value_cons, value_cons, ih, List.length_append, Nat.pow_add]
    ring

@[simp]
theorem value_replicate_zero : value b (.replicate n 0) = 0 := by
  induction n
  case zero      => rfl
  case succ n ih => rw [List.replicate_succ, value_cons, ih, Nat.zero_mul]

-- The least significant digit comes first in the reversed numeral.
theorem reverse_digits : (digits b w x).reverse = (List.range w).map fun j => x / b ^ j % b := by
  induction w generalizing x
  case zero => rfl
  case succ w ih =>
    rw [digits, List.reverse_append, ih, List.range_succ_eq_map]
    simp [Function.comp_def, Nat.div_div_eq_div_mul, Nat.pow_succ']

theorem digits_value (h : ∀ d ∈ ds, d < b) : digits b ds.length (value b ds) = ds := by
  induction ds using List.reverseRecOn
  case nil => rfl
  case append_singleton ds d ih =>
    have hd := h d (by simp)
    have hb : 0 < b := by omega
    rw [List.length_append, List.length_singleton, digits, value_concat, Nat.mul_add_mod_of_lt hd,
      Nat.mul_comm, Nat.mul_add_div hb, Nat.div_eq_of_lt hd, Nat.add_zero,
      ih fun d hd => h d (by simp [hd])]

end Numeral

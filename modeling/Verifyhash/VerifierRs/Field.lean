import Verifyhash.Library.Limbs

-- The arithmetic of `verifier-rs/src/field.rs`.
namespace FieldArith

open Limbs

-- Four limbs, of which the first is the least significant.
structure U256 where
  limbs  : List UInt64
  length : limbs.length = 4
  deriving DecidableEq

namespace U256

def ZERO : U256 :=
  ⟨[0, 0, 0, 0], rfl⟩

def ONE : U256 :=
  ⟨[1, 0, 0, 0], rfl⟩

-- The number which the limbs stand for.
def val (a : U256) : ℕ :=
  value a.limbs

-- Eight bytes, of which the first is the most significant.
def limbOf (bytes : List UInt8) : UInt64 :=
  bytes.foldl (fun v b => v <<< 8 ||| b.toUInt64) 0

def from_be_bytes (b : List.Vector UInt8 32) : U256 :=
  ⟨[3, 2, 1, 0].map fun i => limbOf <| (b.val.drop <| i * 8).take 8, rfl⟩

def bytesOf (v : UInt64) : List UInt8 :=
  (List.range 8).map fun j => (v >>> .ofNat (8 * (7 - j))).toUInt8

theorem length_to_be_bytes (a : U256) : (a.limbs.reverse.flatMap bytesOf).length = 32 := by
  simp [bytesOf, List.length_flatMap, a.length]

def to_be_bytes (a : U256) : List.Vector UInt8 32 :=
  ⟨a.limbs.reverse.flatMap bytesOf, a.length_to_be_bytes⟩

def is_zero (a : U256) : Bool :=
  a.limbs = [0, 0, 0, 0]

def is_even (a : U256) : Bool :=
  a.limbs.headD 0 &&& 1 = 0

def bit (a : U256) (i : ℕ) : Bool :=
  Limbs.bit a.limbs i

theorem length_shr1 (a : U256) : (Limbs.shr1 a.limbs).length = 4 :=
  (shr1_spec a.limbs).left.trans a.length

def shr1 (a : U256) : U256 :=
  ⟨Limbs.shr1 a.limbs, a.length_shr1⟩

theorem length_adc (a o : U256) : (Limbs.adc a.limbs o.limbs 0).fst.length = 4 :=
  (adc_spec <| a.length.trans o.length.symm).left.trans a.length

-- The sum, and whether there is a carry.
def adc (a o : U256) : U256 × Bool :=
  (⟨(Limbs.adc a.limbs o.limbs 0).fst, a.length_adc o⟩, (Limbs.adc a.limbs o.limbs 0).snd ≠ 0)

theorem length_sbb (a o : U256) : (Limbs.sbb a.limbs o.limbs 0).fst.length = 4 :=
  (sbb_spec (a.length.trans o.length.symm) (.inl rfl)).left.trans a.length

-- The difference, and whether there is a borrow.
def sbb (a o : U256) : U256 × Bool :=
  (⟨(Limbs.sbb a.limbs o.limbs 0).fst, a.length_sbb o⟩, (Limbs.sbb a.limbs o.limbs 0).snd ≠ 0)

def cmp (a o : U256) : Ordering :=
  Limbs.cmp a.limbs o.limbs

-- `self >= other`
def ge (a o : U256) : Bool :=
  (a.cmp o).isGE

theorem length_setTop (a : U256) : (Limbs.setTop a.limbs).length = 4 :=
  (length_setTop_eq a.limbs).trans a.length

-- `r.0[3] |= 1u64 << 63`
def setTop (a : U256) : U256 :=
  ⟨Limbs.setTop a.limbs, a.length_setTop⟩

end U256

open U256

def reduce_once (a m : U256) : U256 :=
  if a.ge m then (a.sbb m).fst else a

def add_mod (a b m : U256) : U256 :=
  let (s, carry) := a.adc b
  if carry ∨ s.ge m then (s.sbb m).fst else s

def sub_mod (a b m : U256) : U256 :=
  let (d, borrow) := a.sbb b
  if borrow then (d.adc m).fst else d

-- The loop of `mul_mod` over the bits below `i`.
def mulLoop (a b m : U256) : (i : ℕ) → (acc : U256) → U256
  | 0,     acc => acc
  | i + 1, acc =>
    let acc := add_mod acc acc m
    mulLoop a b m i <| if b.bit i then add_mod acc a m else acc

def mul_mod (a b m : U256) : U256 :=
  mulLoop (reduce_once a m) b m 256 ZERO

-- The loop of `pow_mod` over the bits below `i`.
def powLoop (base exp m : U256) : (i : ℕ) → (result : U256) → U256
  | 0,     result => result
  | i + 1, result =>
    let result := mul_mod result result m
    powLoop base exp m i <| if exp.bit i then mul_mod result base m else result

def pow_mod (base exp m : U256) : U256 :=
  powLoop (reduce_once base m) exp m 256 ONE

def half_mod (a m : U256) : U256 :=
  if a.is_even then
    a.shr1
  else
    let (s, carry) := a.adc m
    if carry then s.shr1.setTop else s.shr1

-- The loops which halve `u` as long as it is even. There is no result if the fuel runs out.
def halve (m : U256) : (fuel : ℕ) → (u x : U256) → Option (U256 × U256)
  | 0,        _, _ => none
  | fuel + 1, u, x => if u.is_even then halve m fuel u.shr1 (half_mod x m) else some (u, x)

-- The outer loop of `inv_mod`.
def invLoop (m : U256) : (fuel : ℕ) → (u v x1 x2 : U256) → Option U256
  | 0,        _, _, _,  _  => none
  | fuel + 1, u, v, x1, x2 =>
    if u ≠ ONE ∧ v ≠ ONE then do
      let (u, x1) ← halve m fuel u x1
      let (v, x2) ← halve m fuel v x2
      if u.ge v then
        invLoop m fuel (u.sbb v).fst v (sub_mod x1 x2 m) x2
      else
        invLoop m fuel u (v.sbb u).fst x1 (sub_mod x2 x1 m)
    else
      some <| if u = ONE then x1 else x2

def inv_mod (fuel : ℕ) (a m : U256) : Option U256 :=
  invLoop m fuel (reduce_once a m) m ONE ZERO

-- The moduli of `verifier-rs/src/secp256k1.rs`: the prime of the field and the order of the group.
def P : U256 :=
  ⟨[0xfffffffefffffc2f, 0xffffffffffffffff, 0xffffffffffffffff, 0xffffffffffffffff], rfl⟩

def N : U256 :=
  ⟨[0xbfd25e8cd0364141, 0xbaaedce6af48a03b, 0xfffffffffffffffe, 0xffffffffffffffff], rfl⟩

end FieldArith

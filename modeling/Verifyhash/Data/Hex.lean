import Verifyhash.Data.Bytes

-- A JavaScript string is a sequence of UTF-16 code units.
abbrev JsString := List UInt16

instance : LawfulBEq JsString :=
  inferInstance

-- The code units of a literal in the basic plane.
def js (s : String) : JsString :=
  s.toList.map fun c => .ofNat c.toNat

namespace Hex

def digit? (u : UInt16) : Option ℕ :=
  if 48 ≤ u ∧ u ≤ 57 then       -- 0 to 9
    some (u.toNat - 48)
  else if 97 ≤ u ∧ u ≤ 102 then -- a to f
    some (u.toNat - 87)
  else if 65 ≤ u ∧ u ≤ 70 then  -- A to F
    some (u.toNat - 55)
  else
    none

def lowerDigit (d : ℕ) : UInt16 :=
  .ofNat (if d < 10 then 48 + d else 87 + d)

-- `/^0x[0-9a-fA-F]{64}$/`
def isHex32 (s : JsString) : Bool :=
  s.take 2 = js "0x" ∧ (s.drop 2).length = 64 ∧ (s.drop 2).all fun u => (digit? u).isSome

-- `BigInt(s)` for a string `s` of hexadecimal digits after `0x`.
def bigInt (s : JsString) : ℕ :=
  Numeral.value 16 <| (s.drop 2).map fun u => (digit? u).getD 0

-- The bytes which a string of hexadecimal digits after `0x` spells.
def getBytes (s : JsString) : Bytes :=
  .ofNat ((s.length - 2) / 2) (bigInt s)

def toBytes32 (s : JsString) : Bytes32 :=
  .ofNat 256 (bigInt s)

-- The spelling in which every hash is returned: lower-case digits after `0x`.
def hexlify (w : Bytes32) : JsString :=
  js "0x" ++ (Numeral.digits 16 64 w.toNat).map lowerDigit

def lowerUnit (u : UInt16) : UInt16 :=
  if 65 ≤ u ∧ u ≤ 90 then u + 32 else u

-- `s.toLowerCase()` for a string in the basic Latin block.
def toLowerCase (s : JsString) : JsString :=
  s.map lowerUnit

theorem digit?_lowerDigit (h : d < 16) : digit? (lowerDigit d) = some d := by
  have : ∀ d < 16, digit? (lowerDigit d) = some d := by decide
  exact this d h

theorem digit?_lt (h : digit? u = some d) : d < 16 := by
  simp only [digit?] at h
  split_ifs at h <;> simp only [Option.some.injEq, UInt16.le_iff_toNat_le] at * <;> grind

theorem length_of_isHex32 (h : isHex32 s) : s.length = 66 := by
  simp only [isHex32, decide_eq_true_eq, List.length_drop] at h
  omega

theorem bigInt_lt (h : isHex32 s) : bigInt s < 2 ^ 256 := by
  have hl := length_of_isHex32 h
  have hd : ∀ d ∈ (s.drop 2).map fun u => (digit? u).getD 0, d < 16 := by
    intro d hd
    obtain ⟨u, _, rfl⟩ := List.mem_map.mp hd
    cases hu : digit? u
    case none => simp
    case some => simpa using digit?_lt hu
  have := Numeral.value_lt hd
  rw [List.length_map, List.length_drop, hl] at this
  exact this

theorem toNat_toBytes32 (h : isHex32 s) : (toBytes32 s).toNat = bigInt s := by
  rw [toBytes32, BitVec.toNat_ofNat, Nat.mod_eq_of_lt (bigInt_lt h)]

theorem getBytes_eq (h : isHex32 s) : getBytes s = .ofBytes32 (toBytes32 s) := by
  rw [getBytes, Bytes.ofBytes32, toNat_toBytes32 h, length_of_isHex32 h]

section

variable (w : Bytes32)

theorem drop_hexlify : (hexlify w).drop 2 = (Numeral.digits 16 64 w.toNat).map lowerDigit := by
  rw [hexlify, List.drop_left' (by decide)]

theorem digits_hexlify :
    ((hexlify w).drop 2).map digit? = (Numeral.digits 16 64 w.toNat).map some := by
  rw [drop_hexlify, List.map_map]
  apply List.map_congr_left
  intro d hd
  exact digit?_lowerDigit <| Numeral.digits_lt (by omega) hd

@[simp]
theorem isHex32_hexlify : isHex32 (hexlify w) := by
  have hd : ∀ u ∈ (hexlify w).drop 2, (digit? u).isSome := by
    intro u hu
    have := List.mem_map_of_mem (f := digit?) hu
    rw [digits_hexlify] at this
    obtain ⟨d, _, hd⟩ := List.mem_map.mp this
    exact hd ▸ rfl
  simp only [isHex32, decide_eq_true_eq, List.all_eq_true]
  exact ⟨List.take_left' (by decide), by simp [drop_hexlify], hd⟩

theorem bigInt_hexlify : bigInt (hexlify w) = w.toNat := by
  have hd : ((hexlify w).drop 2).map (fun u => (digit? u).getD 0) = Numeral.digits 16 64 w.toNat := by
    have := congrArg (List.map fun d : Option ℕ => d.getD 0) (digits_hexlify w)
    simpa [Function.comp_def] using this
  have hw : w.toNat < 16 ^ 64 := w.isLt
  rw [bigInt, hd, Numeral.value_digits hw]

@[simp]
theorem toBytes32_hexlify : toBytes32 (hexlify w) = w := by
  rw [toBytes32, bigInt_hexlify, BitVec.ofNat_toNat, BitVec.setWidth_eq]

theorem getBytes_hexlify : getBytes (hexlify w) = .ofBytes32 w := by
  rw [getBytes_eq <| isHex32_hexlify w, toBytes32_hexlify w]

end

@[simp]
theorem map_toBytes32_hexlify {ws : List Bytes32} : (ws.map hexlify).map toBytes32 = ws := by
  simp [Function.comp_def]

theorem hexlify_inj (h : hexlify v = hexlify w) : v = w := by
  rw [←toBytes32_hexlify v, h, toBytes32_hexlify]

section

variable {s : JsString}

theorem lowerUnit_lowerUnit (u : UInt16) : lowerUnit (lowerUnit u) = lowerUnit u := by
  simp only [lowerUnit]
  split_ifs with h₁ h₂
  · simp only [UInt16.le_iff_toNat_le, UInt16.toNat_add] at h₁ h₂
    simp at h₁ h₂
    omega
  all_goals rfl

theorem digit?_lowerUnit (u : UInt16) : digit? (lowerUnit u) = digit? u := by
  rw [lowerUnit]
  split_ifs with h
  case neg => rfl
  case pos =>
    have ha : (u + 32).toNat = u.toNat + 32 := by
      simp only [UInt16.le_iff_toNat_le] at h
      simp at h ⊢
      omega
    simp only [digit?, UInt16.le_iff_toNat_le, ha] at h ⊢
    simp at h ⊢
    split_ifs <;> first | omega | simp

@[simp]
theorem toLowerCase_toLowerCase : toLowerCase (toLowerCase s) = toLowerCase s := by
  simp [toLowerCase, Function.comp_def, lowerUnit_lowerUnit]

theorem isHex32_toLowerCase (h : isHex32 s) : isHex32 (toLowerCase s) := by
  simp only [isHex32, decide_eq_true_eq, List.all_eq_true] at h ⊢
  obtain ⟨hx, hl, hd⟩ := h
  have ht : (toLowerCase s).take 2 = toLowerCase (s.take 2) := List.map_take.symm
  have hr : (toLowerCase s).drop 2 = toLowerCase (s.drop 2) := List.map_drop.symm
  refine ⟨by rw [ht, hx]; decide, by rw [hr, toLowerCase, List.length_map, hl], ?_⟩
  intro u hu
  rw [hr] at hu
  obtain ⟨v, hv, rfl⟩ := List.mem_map.mp hu
  rw [digit?_lowerUnit]
  exact hd v hv

@[simp]
theorem toLowerCase_hexlify (w : Bytes32) : toLowerCase (hexlify w) = hexlify w := by
  have hd : ∀ d < 16, lowerUnit (lowerDigit d) = lowerDigit d := by decide
  have hx : (js "0x").map lowerUnit = js "0x" := by decide
  have hs : ((Numeral.digits 16 64 w.toNat).map lowerDigit).map lowerUnit =
      (Numeral.digits 16 64 w.toNat).map lowerDigit := by
    rw [List.map_map]
    exact List.map_congr_left fun d h => hd d <| Numeral.digits_lt (by omega) h
  rw [toLowerCase, hexlify, List.map_append, hx, hs]

end

end Hex

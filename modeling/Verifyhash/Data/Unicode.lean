import Verifyhash.Data.Hex

-- A value of type `Char` is a Unicode scalar value, so a list of them is a text which both encodings
-- can represent.
namespace Unicode

def utf8 (cs : List Char) : Bytes :=
  cs.flatMap String.utf8EncodeChar

def utf16Char (c : Char) : JsString :=
  if c.toNat < 0x10000 then
    [.ofNat c.toNat]
  else
    [.ofNat (0xD800 + (c.toNat - 0x10000) / 0x400), .ofNat (0xDC00 + (c.toNat - 0x10000) % 0x400)]

def utf16 (cs : List Char) : JsString :=
  cs.flatMap utf16Char

def isHigh (u : UInt16) : Bool :=
  0xD800 ≤ u ∧ u ≤ 0xDBFF

def isLow (u : UInt16) : Bool :=
  0xDC00 ≤ u ∧ u ≤ 0xDFFF

-- The character of a single code unit. A lone surrogate becomes the replacement character.
def ofUnit (u : UInt16) : Char :=
  if isHigh u ∨ isLow u then .ofNat 0xFFFD else .ofNat u.toNat

def ofPair (u v : UInt16) : Char :=
  .ofNat <| 0x10000 + (u.toNat - 0xD800) * 0x400 + (v.toNat - 0xDC00)

def decode : JsString → List Char
  | u :: v :: s => if isHigh u ∧ isLow v then ofPair u v :: decode s else ofUnit u :: decode (v :: s)
  | [u]         => [ofUnit u]
  | []          => []

-- Strings without unpaired surrogates.
def WellFormed (s : JsString) : Prop :=
  ∃ cs, utf16 cs = s

-- `Buffer.from(s, "utf8")`
def bufferFrom (s : JsString) : Bytes :=
  utf8 <| decode s

-- Encoders, such as the function `toUtf8Bytes` of `ethers`, which do not fail on Unicode text.
def Encodes (toUtf8Bytes : JsString → Except JsString Bytes) : Prop :=
  ∀ cs, toUtf8Bytes (utf16 cs) = .ok (utf8 cs)

-- Encoders which do not map two strings to the same bytes.
def Lossless (toUtf8Bytes : JsString → Except JsString Bytes) : Prop :=
  ∀ s t b, toUtf8Bytes s = .ok b → toUtf8Bytes t = .ok b → s = t

-- An encoder which fails if a surrogate is not paired.
def strictUtf8 (s : JsString) : Except JsString Bytes :=
  if utf16 (decode s) = s then .ok <| bufferFrom s else .error <| js "invalid surrogate pair"

@[simp]
theorem utf16_cons : utf16 (c :: cs) = utf16Char c ++ utf16 cs :=
  rfl

@[simp]
theorem utf16_append : utf16 (cs₁ ++ cs₂) = utf16 cs₁ ++ utf16 cs₂ :=
  List.flatMap_append

section

variable {c : Char} {cs : List Char} {s : JsString}

theorem toNat_ofNat_of_lt {n : ℕ} (h : n < 2 ^ 16) : (UInt16.ofNat n).toNat = n := by
  simpa using Nat.mod_eq_of_lt h

theorem not_surrogate (c : Char) : c.toNat < 0xD800 ∨ 0xDFFF < c.toNat ∧ c.toNat < 0x110000 :=
  c.valid

theorem isHigh_iff : isHigh u ↔ 0xD800 ≤ u.toNat ∧ u.toNat ≤ 0xDBFF := by
  simp [isHigh, UInt16.le_iff_toNat_le]

theorem isLow_iff : isLow u ↔ 0xDC00 ≤ u.toNat ∧ u.toNat ≤ 0xDFFF := by
  simp [isLow, UInt16.le_iff_toNat_le]

-- A character of the basic plane is a single code unit, and any other one is a pair of surrogates.
theorem utf16Char_cases (c : Char) :
    (∃ u, utf16Char c = [u] ∧ ¬ isHigh u ∧ ¬ isLow u ∧ ofUnit u = c) ∨
    (∃ u v, utf16Char c = [u, v] ∧ isHigh u ∧ isLow v ∧ ofPair u v = c) := by
  have hc := not_surrogate c
  simp only [utf16Char]
  split_ifs with h
  case pos =>
    have hu := toNat_ofNat_of_lt h
    have hh : ¬ isHigh (.ofNat c.toNat) := by
      rw [isHigh_iff, hu]
      omega
    have hl : ¬ isLow (.ofNat c.toNat) := by
      rw [isLow_iff, hu]
      omega
    refine .inl ⟨_, rfl, hh, hl, ?_⟩
    rw [ofUnit, if_neg (by tauto), hu, Char.ofNat_toNat]
  case neg =>
    have hu := toNat_ofNat_of_lt (n := 0xD800 + (c.toNat - 0x10000) / 0x400) (by omega)
    have hv := toNat_ofNat_of_lt (n := 0xDC00 + (c.toNat - 0x10000) % 0x400) (by omega)
    refine .inr ⟨_, _, rfl, ?_, ?_, ?_⟩
    · rw [isHigh_iff, hu]
      omega
    · rw [isLow_iff, hv]
      omega
    · rw [ofPair, hu, hv]
      have : 0x10000 + (0xD800 + (c.toNat - 0x10000) / 0x400 - 0xD800) * 0x400 +
          (0xDC00 + (c.toNat - 0x10000) % 0x400 - 0xDC00) = c.toNat := by omega
      rw [this, Char.ofNat_toNat]

theorem utf16Char_ofUnit (h : ¬ isHigh u) (l : ¬ isLow u) : utf16Char (ofUnit u) = [u] := by
  have hu := u.toNat_lt
  have hv : u.toNat.isValidChar := by
    rw [isHigh_iff] at h
    rw [isLow_iff] at l
    rw [Nat.isValidChar]
    omega
  have hn : (ofUnit u).toNat = u.toNat := by
    rw [ofUnit, if_neg (not_or.mpr ⟨h, l⟩), Char.toNat_ofNat, if_pos hv]
  rw [utf16Char, hn, if_pos (by omega), UInt16.ofNat_toNat]

theorem utf16Char_ofPair (h : isHigh u) (l : isLow v) : utf16Char (ofPair u v) = [u, v] := by
  rw [isHigh_iff] at h
  rw [isLow_iff] at l
  have hv : (0x10000 + (u.toNat - 0xD800) * 0x400 + (v.toNat - 0xDC00)).isValidChar := by
    rw [Nat.isValidChar]
    omega
  have hn : (ofPair u v).toNat = 0x10000 + (u.toNat - 0xD800) * 0x400 + (v.toNat - 0xDC00) := by
    rw [ofPair, Char.toNat_ofNat, if_pos hv]
  have hu : 0xD800 + ((ofPair u v).toNat - 0x10000) / 0x400 = u.toNat := by omega
  have hl : 0xDC00 + ((ofPair u v).toNat - 0x10000) % 0x400 = v.toNat := by omega
  rw [utf16Char, if_neg (by omega), hu, hl, UInt16.ofNat_toNat, UInt16.ofNat_toNat]

namespace WellFormed

theorem nil : WellFormed [] :=
  ⟨[], rfl⟩

theorem append (h₁ : WellFormed s₁) (h₂ : WellFormed s₂) : WellFormed (s₁ ++ s₂) := by
  obtain ⟨cs₁, rfl⟩ := h₁
  obtain ⟨cs₂, rfl⟩ := h₂
  exact ⟨cs₁ ++ cs₂, utf16_append⟩

theorem unit (h : ¬ isHigh u) (l : ¬ isLow u) : WellFormed [u] :=
  ⟨[ofUnit u], by rw [utf16_cons, utf16Char_ofUnit h l]; rfl⟩

theorem pair (h : isHigh u) (l : isLow v) : WellFormed [u, v] :=
  ⟨[ofPair u v], by rw [utf16_cons, utf16Char_ofPair h l]; rfl⟩

theorem of_units (h : ∀ u ∈ s, ¬ isHigh u ∧ ¬ isLow u) : WellFormed s := by
  induction s
  case nil => exact nil
  case cons u s ih =>
    have ⟨⟨hh, hl⟩, h⟩ := List.forall_mem_cons.mp h
    exact (unit hh hl).append <| ih h

end WellFormed

theorem decode_append : decode (utf16Char c ++ s) = c :: decode s := by
  rcases utf16Char_cases c with ⟨u, hu, hh, _, hc⟩ | ⟨u, v, hu, hh, hl, hc⟩ <;> rw [hu]
  case inl => cases s <;> simp [decode, hh, hc]
  case inr => simp [decode, hh, hl, hc]

@[simp]
theorem decode_utf16 : decode (utf16 cs) = cs := by
  induction cs
  case nil        => rfl
  case cons c _ h => rw [utf16_cons, decode_append, h]

@[simp]
theorem bufferFrom_utf16 : bufferFrom (utf16 cs) = utf8 cs := by
  rw [bufferFrom, decode_utf16]

theorem encodes_strictUtf8 : Encodes strictUtf8 := by
  intro cs
  rw [strictUtf8, decode_utf16, if_pos rfl, bufferFrom_utf16]

theorem utf16_inj (h : utf16 cs₁ = utf16 cs₂) : cs₁ = cs₂ := by
  rw [←@decode_utf16 cs₁, h, decode_utf16]

-- Unicode text is encoded without loss.
theorem Encodes.eq_ok {toUtf8Bytes : JsString → Except JsString Bytes} (he : Encodes toUtf8Bytes)
    (h : WellFormed s) : toUtf8Bytes s = .ok (bufferFrom s) := by
  obtain ⟨cs, rfl⟩ := h
  rw [he, bufferFrom_utf16]

theorem utf8_inj (h : utf8 cs₁ = utf8 cs₂) : cs₁ = cs₂ := by
  have : cs₁.utf8Encode = cs₂.utf8Encode := congrArg List.toByteArray h
  have : String.ofList cs₁ = String.ofList cs₂ := String.toByteArray_inj.mp this
  simpa using congrArg String.toList this

theorem bufferFrom_inj (hs : WellFormed s) (ht : WellFormed t) (h : bufferFrom s = bufferFrom t) :
    s = t := by
  obtain ⟨cs, rfl⟩ := hs
  obtain ⟨ds, rfl⟩ := ht
  rw [bufferFrom_utf16, bufferFrom_utf16] at h
  rw [utf8_inj h]

theorem lossless_strictUtf8 : Lossless strictUtf8 := by
  have hw {s b} (h : strictUtf8 s = .ok b) : WellFormed s ∧ bufferFrom s = b := by
    rw [strictUtf8] at h
    split_ifs at h with hs
    exact ⟨⟨decode s, hs⟩, Except.ok.inj h⟩
  intro s t b hs ht
  have ⟨hs, hb⟩ := hw hs
  have ⟨ht, hb'⟩ := hw ht
  exact bufferFrom_inj hs ht <| hb.trans hb'.symm

end

end Unicode

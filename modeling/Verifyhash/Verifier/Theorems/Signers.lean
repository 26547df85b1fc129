import Verifyhash.Verifier.Theorems.Recover
import Verifyhash.VerifierRs.Theorems.Bytes
import Verifyhash.VerifierRs.Theorems.Secp256k1

-- The signers which the two implementations recover from a message, where the hash is the keccak256 of the repository.
namespace Recover

open Hex FieldArith U256

section

variable {cs : List Char} (h : ∀ c ∈ cs, c.toNat < 128)

include h

theorem utf16_ascii : Unicode.utf16 cs = cs.map fun c => .ofNat c.toNat := by
  rw [Unicode.utf16, List.map_eq_flatMap]
  refine List.flatMap_congr fun c hc => ?_
  have := h c hc
  rw [Unicode.utf16Char, if_pos (by omega)]

theorem utf8_ascii : Unicode.utf8 cs = cs.map fun c => .ofNat c.toNat := by
  rw [Unicode.utf8, List.map_eq_flatMap]
  refine List.flatMap_congr fun c hc => ?_
  have := h c hc
  have hv : c.val.toNat ≤ 127 := by
    change c.toNat ≤ 127
    omega
  rw [String.utf8EncodeChar, if_pos hv]
  rfl

end

theorem bufferFrom_ascii {cs : List Char} (h : ∀ c ∈ cs, c.toNat < 128) :
    Unicode.bufferFrom (cs.map fun c => .ofNat c.toNat) = cs.map fun c => .ofNat c.toNat := by
  rw [←utf16_ascii h, Unicode.bufferFrom_utf16, utf8_ascii h]

theorem ascii_toString (n : ℕ) : ∀ c ∈ (toString n).toList, c.toNat < 128 := by
  intro c hc
  rw [Nat.toString_eq_ofList_toDigits, String.toList_ofList] at hc
  have hd := Nat.isDigit_of_mem_toDigits (b := 10) (by omega) (by omega) hc
  rw [Char.isDigit, Bool.and_eq_true, decide_eq_true_eq, decide_eq_true_eq] at hd
  have : c.val.toNat ≤ 57 := hd.right
  change c.val.toNat < 128
  omega

theorem recIdOf_eq (v : UInt8) : ((Secp256k1.recIdOf v).toNat : ℤ) = recIdOf v.toNat ∧ (Secp256k1.recIdOf v).toNat < 2 := by
  have hm (w : UInt8) : ((if w ≠ 0 ∧ w ≠ 1 then w &&& 1 else w : UInt8).toNat : ℤ) =
      (if (w.toNat : ℤ) ≠ 0 ∧ (w.toNat : ℤ) ≠ 1 then (w.toNat : ℤ) % 2 else w.toNat) ∧
      (if w ≠ 0 ∧ w ≠ 1 then w &&& 1 else w : UInt8).toNat < 2 := by
    have h₀ : w = 0 ↔ w.toNat = 0 := UInt8.toNat_inj.symm
    have h₁ : w = 1 ↔ w.toNat = 1 := UInt8.toNat_inj.symm
    have hb : (w &&& 1).toNat = w.toNat % 2 := by
      rw [UInt8.toNat_and]
      exact Nat.and_one_is_mod _
    have hc : (w ≠ 0 ∧ w ≠ 1) ↔ ((w.toNat : ℤ) ≠ 0 ∧ (w.toNat : ℤ) ≠ 1) := by
      rw [ne_eq, ne_eq, h₀, h₁]
      omega
    by_cases h : w ≠ 0 ∧ w ≠ 1
    case pos =>
      rw [if_pos h, hb, if_pos <| hc.mp h]
      omega
    case neg =>
      rw [if_neg h, if_neg <| mt hc.mpr h]
      rw [hc] at h
      omega
  have hv := v.toNat_lt
  dsimp only [Secp256k1.recIdOf, recIdOf]
  by_cases h : v ≥ 27
  case pos =>
    have hs : (v - 27).toNat = v.toNat - 27 := UInt8.toNat_sub_of_le _ _ h
    have hle : 27 ≤ v.toNat := UInt8.le_iff_toNat_le.mp h
    have hw := hm (v - 27)
    rw [hs, Nat.cast_sub hle] at hw
    rw [if_pos h, if_pos (by omega : (v.toNat : ℤ) ≥ 27)]
    exact hw
  case neg =>
    have hlt : ¬ 27 ≤ v.toNat := fun h' => h <| UInt8.le_iff_toNat_le.mpr h'
    rw [if_neg h, if_neg (by omega : ¬ (v.toNat : ℤ) ≥ 27)]
    exact hm v

theorem eip191Hash_eq (message : Input) : eip191Hash Keccak.keccak256 message = (Secp256k1.eip191_hash message.bytes).val := by
  have hc : ∀ c ∈ Char.ofNat 25 :: "Ethereum Signed Message:\n".toList ++ (toString message.bytes.length).toList, c.toNat < 128 := by
    have h₀ : ∀ c ∈ Char.ofNat 25 :: "Ethereum Signed Message:\n".toList, c.toNat < 128 := by simp
    intro c hm
    rcases List.mem_append.mp hm with hm | hm
    case inl => exact h₀ c hm
    case inr => exact ascii_toString _ c hm
  have hp := bufferFrom_ascii hc
  rw [List.map_append, List.map_append] at hp
  rw [Secp256k1.eip191_hash, VerifierRs.keccak256_eq, eip191Hash]
  exact congrArg (fun pre => Bytes.ofBytes32 <| Keccak.keccak256 <| pre ++ message.bytes) hp

theorem digit_eq {d : ℕ} (h : d < 16) : (Nat.digitChar d).toNat < 128 ∧ .ofNat (Nat.digitChar d).toNat = lowerDigit d := by
  have : ∀ d < 16, (Nat.digitChar d).toNat < 128 ∧ .ofNat (Nat.digitChar d).toNat = lowerDigit d := by decide
  exact this d h

-- The address of a key is spelled alike.
theorem address_eq (q : U256 × U256) :
    pubKeyToAddress Keccak.keccak256 ((q.fst.val : ℤ), (q.snd.val : ℤ)) = Unicode.utf16 (Secp256k1.address q) := by
  have hd (b : UInt8) {d : ℕ} (h : d ∈ Numeral.digits 16 2 b.toNat) : d < 16 := Numeral.digits_lt (by omega) h
  have hc : ∀ c ∈ Secp256k1.address q, c.toNat < 128 := by
    intro c hm
    rcases List.mem_append.mp hm with hm | hm
    case inl =>
      have : ∀ c ∈ "0x".toList, c.toNat < 128 := by simp
      exact this c hm
    case inr =>
      obtain ⟨b, -, hm⟩ := List.mem_flatMap.mp hm
      obtain ⟨d, hm', rfl⟩ := List.mem_map.mp hm
      exact (digit_eq <| hd b hm').left
  have hb (b : UInt8) : (Secp256k1.hexByte b).map (fun c => .ofNat c.toNat) = hexByte b := by
    rw [Secp256k1.hexByte, hexByte, List.map_map]
    exact List.map_congr_left fun d hm => (digit_eq <| hd b hm).right
  rw [utf16_ascii hc, Secp256k1.address, pubKeyToAddress, VerifierRs.keccak256_eq, to_be_bytes_eq, to_be_bytes_eq,
    List.map_append, List.map_flatMap, bigTo32, bigTo32, Int.toNat_natCast, Int.toNat_natCast]
  exact congrArg (js "0x" ++ ·) <| List.flatMap_congr fun b _ => (hb b).symm

-- A key which stands for a point is the same pair of numbers.
theorem pub_eq {q : U256 × U256} {pub : ℤ × ℤ} {Q : Curve.Group} (h : Secp256k1.Stands (some q) Q) (h' : Stands (some pub) Q) :
    pub = ((q.fst.val : ℤ), (q.snd.val : ℤ)) := by
  rw [Stands, ←h] at h'
  injection h'

variable {fuel : ℕ}

-- The two implementations recover the same address.
theorem recover_agree (hf : 2 ^ 257 ≤ fuel) (message : Input) (sig : Bytes) :
    ∃ a, Secp256k1.recover_personal_sign fuel message.bytes sig = some a ∧
      (recoverPersonalSignAddress Keccak.keccak256 message <| .buffer sig).toOption = a.map Unicode.utf16 := by
  by_cases hl : sig.length = 65
  case neg =>
    refine ⟨none, ?_, ?_⟩
    · rw [Secp256k1.recover_personal_sign, dif_neg hl]
    · have hn : ∃ e, normalizeSig (.buffer sig) = .error e := ⟨_, if_pos hl⟩
      obtain ⟨e, he⟩ := hn
      rw [recoverPersonalSignAddress, he]
      rfl
  case pos =>
    have hn : normalizeSig (.buffer sig) = .ok sig := if_neg (not_not.mpr hl)
    obtain ⟨hid, hid₂⟩ := recIdOf_eq (sig.getD 64 0)
    have hr := val_from_be_bytes ⟨sig.take 32, by simp [hl]⟩
    have hs := val_from_be_bytes ⟨(sig.drop 32).take 32, by simp [hl]⟩
    have he := val_from_be_bytes <| Secp256k1.eip191_hash message.bytes
    rw [←eip191Hash_eq] at he
    have hJ : recoverPersonalSignAddress Keccak.keccak256 message (.buffer sig) =
        (recoverPublicKey (eip191Hash Keccak.keccak256 message) (bufToBig <| sig.take 32) (bufToBig <| (sig.drop 32).take 32)
          (recIdOf (sig.getD 64 0).toNat)).bind fun pub => .ok <| pubKeyToAddress Keccak.keccak256 pub := by
      rw [recoverPersonalSignAddress, hn]
      rfl
    have hR := Secp256k1.recover_personal_sign_eq fuel message.bytes hl
    obtain ⟨q, hq, h⟩ := Secp256k1.recover_pubkey_spec hf (Secp256k1.eip191_hash message.bytes)
      (from_be_bytes ⟨sig.take 32, by simp [hl]⟩) (from_be_bytes ⟨(sig.drop 32).take 32, by simp [hl]⟩)
      (Secp256k1.recIdOf <| sig.getD 64 0)
    have hp := recoverPublicKey_spec (eip191Hash Keccak.keccak256 message) (bufToBig <| sig.take 32)
      (bufToBig <| (sig.drop 32).take 32) (Secp256k1.recIdOf <| sig.getD 64 0).toNat
    rw [hid, bufToBig_eq, bufToBig_eq, bufToBig_eq, Int.toNat_natCast, Int.toNat_natCast, Int.toNat_natCast, ←hr, ←hs, ←he] at hp
    rw [bufToBig_eq, bufToBig_eq, ←hr, ←hs] at hJ
    refine ⟨q.map Secp256k1.address, by rw [hR, hq]; rfl, ?_⟩
    rw [hJ]
    rcases h with ⟨Q, hQ, hst⟩ | ⟨rfl, hn⟩
    case inl =>
      rcases hp with ⟨pub, Q', hQ', hp, hst'⟩ | ⟨-, hn⟩
      case inl =>
        rw [←hQ.unique hQ'] at hst'
        cases q
        case none => exact absurd (Secp256k1.stands_none.mp hst) hQ.key_ne
        case some q =>
          rw [hp, pub_eq hst hst']
          exact congrArg some <| address_eq q
      case inr => exact absurd hQ <| hn Q
    case inr =>
      rcases hp with ⟨pub, Q', hQ', -, -⟩ | ⟨⟨e, hp⟩, -⟩
      case inl => exact absurd hQ' <| hn Q'
      case inr =>
        rw [hp]
        rfl

theorem digit?_lt_ascii {u : UInt16} (h : (digit? u).isSome) : u.toNat < 128 := by
  rw [digit?] at h
  split_ifs at h with h₁ h₂ h₃
  · have : u.toNat ≤ 57 := UInt16.le_iff_toNat_le.mp h₁.right
    omega
  · have : u.toNat ≤ 102 := UInt16.le_iff_toNat_le.mp h₂.right
    omega
  · have : u.toNat ≤ 70 := UInt16.le_iff_toNat_le.mp h₃.right
    omega
  · cases h

-- The first byte of a character which is not ASCII is none either.
theorem ascii_of_utf8 {cs : List Char} (h : ∀ b ∈ Unicode.utf8 cs, b.toNat < 128) : ∀ c ∈ cs, c.toNat < 128 := by
  intro c hc
  by_contra hn
  have hv : ¬ c.val.toNat ≤ 0x7f := fun h => hn <| Nat.lt_succ_of_le h
  obtain ⟨b, hb, hle⟩ : ∃ b ∈ String.utf8EncodeChar c, 128 ≤ b.toNat := by
    rw [String.utf8EncodeChar, if_neg hv]
    split_ifs <;> exact ⟨_, List.mem_cons_self, by rw [UInt8.toNat_ofNat']; omega⟩
  have := h b <| List.mem_flatMap.mpr ⟨c, hc, hb⟩
  omega

theorem ascii_of_utf16 {cs : List Char} (h : ∀ u ∈ Unicode.utf16 cs, u.toNat < 128) : ∀ c ∈ cs, c.toNat < 128 := by
  intro c hc
  by_contra hn
  have hs := Unicode.not_surrogate c
  obtain ⟨u, hu, hle⟩ : ∃ u ∈ Unicode.utf16Char c, 128 ≤ u.toNat := by
    rw [Unicode.utf16Char]
    split_ifs
    · exact ⟨_, List.mem_cons_self, by rw [UInt16.toNat_ofNat']; omega⟩
    · exact ⟨_, List.mem_cons_self, by rw [UInt16.toNat_ofNat']; omega⟩
  have := h u <| List.mem_flatMap.mpr ⟨c, hc, hu⟩
  omega

-- The digits of a text are those of its bytes.
theorem utf16_eq_map {cs : List Char} (h : ∀ c ∈ cs, c.toNat < 128) : Unicode.utf16 cs = (Unicode.utf8 cs).map UInt8.toUInt16 := by
  rw [utf16_ascii h, utf8_ascii h, List.map_map]
  refine List.map_congr_left fun c hc => UInt16.toNat_inj.mp ?_
  have := h c hc
  rw [Function.comp_apply, UInt8.toNat_toUInt16, UInt8.toNat_ofNat', UInt16.toNat_ofNat']
  omega

theorem hexLoop_eq (b : Bytes) (h : b.length % 2 = 0) : Secp256k1.hexLoop b =
    if (b.map UInt8.toUInt16).all fun u => (digit? u).isSome then some (ofHex <| b.map UInt8.toUInt16) else none := by
  induction b using Secp256k1.hexLoop.induct
  case case1 hi lo b ih =>
    rw [List.length_cons, List.length_cons] at h
    rw [Secp256k1.hexLoop, ih (by omega)]
    cases hh : digit? hi.toUInt16
    case none => simp [hh]
    case some =>
      cases hl : digit? lo.toUInt16
      case none => simp [hh, hl]
      case some =>
        simp only [List.map_cons, List.all_cons, hh, hl, Option.isSome_some, Bool.true_and, ofHex, Option.getD_some]
        split_ifs <;> rfl
  case case2 b hn =>
    cases b
    case nil => rfl
    case cons hi b =>
      cases b
      case nil => simp at h
      case cons lo b => exact absurd rfl <| hn hi lo b

theorem normalizeSig_eq (s : JsString) : normalizeSig (.string <| js "0x" ++ s) =
    if ¬ (s.all fun u => (digit? u).isSome) ∨ s.length % 2 ≠ 0 then
      .error <| js "secp256k1: signature must be 0x-hex (even length)"
    else
      normalizeSig <| .buffer <| ofHex s := by
  have hd : (if (js "0x" ++ s).take 2 = js "0x" ∨ (js "0x" ++ s).take 2 = js "0X" then (js "0x" ++ s).drop 2 else js "0x" ++ s) = s :=
    if_pos <| .inl rfl
  conv =>
    lhs
    rw [normalizeSig]
    dsimp only
    rw [hd]
  split_ifs <;> rfl

-- The two implementations report the same signer for every text of a message and of a signature after `0x`.
theorem recoverPersonalSignAddress_agree (hf : 2 ^ 257 ≤ fuel) (message signature : List Char) :
    ∃ a, Secp256k1.recovered fuel message ('0' :: 'x' :: signature) = some a ∧
      (recoverPersonalSignAddress Keccak.keccak256 (.string <| Unicode.utf16 message)
        (.string <| js "0x" ++ Unicode.utf16 signature)).toOption = a.map Unicode.utf16 := by
  have hn := normalizeSig_eq (Unicode.utf16 signature)
  by_cases hd : ¬ ((Unicode.utf16 signature).all fun u => (digit? u).isSome) ∨ (Unicode.utf16 signature).length % 2 ≠ 0
  case pos =>
    have hx : Secp256k1.hex0x_to_bytes ('0' :: 'x' :: signature) = none := by
      by_cases hl : (Unicode.utf8 signature).length % 2 = 0
      case neg => rw [Secp256k1.hex0x_to_bytes, if_pos hl]
      case pos =>
        rw [Secp256k1.hex0x_to_bytes, if_neg (not_not.mpr hl), hexLoop_eq _ hl, if_neg]
        intro hb
        have ha := ascii_of_utf8 fun b hm => by
          have := digit?_lt_ascii <| List.all_eq_true.mp hb _ <| List.mem_map_of_mem hm
          rwa [UInt8.toNat_toUInt16] at this
        rw [utf16_eq_map ha, List.length_map] at hd
        exact hd.elim (· hb) (· hl)
    refine ⟨none, by rw [Secp256k1.recovered, hx], ?_⟩
    · rw [if_pos hd] at hn
      rw [recoverPersonalSignAddress, hn]
      rfl
  case neg =>
    rw [if_neg hd] at hn
    rw [not_or, not_not, not_not, List.all_eq_true] at hd
    have ha := ascii_of_utf16 fun u hu => digit?_lt_ascii <| hd.left u hu
    have he := utf16_eq_map ha
    have hm : Unicode.bufferFrom (Unicode.utf16 message) = Unicode.utf8 message := Unicode.bufferFrom_utf16
    have hx : Secp256k1.hex0x_to_bytes ('0' :: 'x' :: signature) = some (ofHex <| Unicode.utf16 signature) := by
      have hl : (Unicode.utf8 signature).length % 2 = 0 := by rw [←hd.right, he, List.length_map]
      rw [Secp256k1.hex0x_to_bytes, if_neg (not_not.mpr hl), hexLoop_eq _ hl, ←he, if_pos <| List.all_eq_true.mpr hd.left]
    obtain ⟨a, h, h'⟩ := recover_agree hf (.string <| Unicode.utf16 message) (ofHex <| Unicode.utf16 signature)
    refine ⟨a, ?_, ?_⟩
    · rw [Secp256k1.recovered, hx]
      rwa [Input.bytes, hm] at h
    · rw [recoverPersonalSignAddress] at h' ⊢
      rwa [hn]

theorem recoverPersonalSignAddress_agree_ones : ∃ a,
    Secp256k1.recovered (2 ^ 257) ['h', 'i'] ('0' :: 'x' :: List.replicate 130 '1') = some a ∧
      (recoverPersonalSignAddress Keccak.keccak256 (.string <| Unicode.utf16 ['h', 'i'])
        (.string <| js "0x" ++ Unicode.utf16 (List.replicate 130 '1'))).toOption = a.map Unicode.utf16 :=
  recoverPersonalSignAddress_agree le_rfl ['h', 'i'] (List.replicate 130 '1')

end Recover

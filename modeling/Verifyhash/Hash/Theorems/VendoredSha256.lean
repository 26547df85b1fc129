import Verifyhash.Hash.VendoredSha256

namespace VendoredSha256

open Bitwise
open Fips180 (Registers Word)

-- Registers of integers as registers of words.
def words (r : Registers ℤ) : Registers Word where
  a := bits r.a
  b := bits r.b
  c := bits r.c
  d := bits r.d
  e := bits r.e
  f := bits r.f
  g := bits r.g
  h := bits r.h

section

variable {msg : Bytes} {x : ℤ}

theorem bits_rotr (h : n < 32) : bits (rotr x n) = (bits x).rotateRight n := by
  rw [BitVec.rotateRight_eq_rotateRightAux_of_lt h, BitVec.rotateRightAux, rotr]
  simp

theorem bits_byteAt : bits (byteAt msg i) = (msg.getD i 0).toBitVec.setWidth 32 := by
  rw [byteAt, bits_natCast]
  exact BitVec.eq_of_toNat_eq <| by simp

theorem bits_word : bits (word msg i) = Fips180.word msg i := by
  have bytes (a b c d : BitVec 8) : a.setWidth 32 <<< 24 ||| b.setWidth 32 <<< 16 ||| c.setWidth 32 <<< 8 |||
      d.setWidth 32 = a ++ b ++ c ++ d := by
    have ha := a.isLt
    have hb := b.isLt
    have hc := c.isLt
    have hd := d.isLt
    apply BitVec.eq_of_toNat_eq
    simp only [BitVec.toNat_or, BitVec.toNat_shiftLeft, BitVec.toNat_setWidth, BitVec.toNat_append,
      Nat.shiftLeft_or_distrib, ←Nat.shiftLeft_add]
    simp (disch := omega) only [Nat.mod_eq_of_lt, Nat.reduceAdd]
  simp only [word, bits_ushr, bits_or, bits_shl, bits_byteAt, BitVec.ushiftRight_zero, bytes, Fips180.word]

theorem bits_nextWord {w : List ℤ} :
    bits (nextWord w i) = Fips180.smallSigma1 (bits <| w.getD (i - 2) 0) + bits (w.getD (i - 7) 0) +
      Fips180.smallSigma0 (bits <| w.getD (i - 15) 0) + bits (w.getD (i - 16) 0) := by
  simp [nextWord, bits_rotr, Fips180.smallSigma0, Fips180.smallSigma1]
  ring

-- The words which are already in the array are those of the message schedule.
theorem schedule_spec {block : ℕ → Word} {w : List ℤ} (hl : w.length = 16)
    (hw : ∀ t < 16, bits (w.getD t 0) = block t) (n : ℕ) :
    let w' := (List.range' 16 n).foldl (fun w i => w ++ [nextWord w i]) w
    w'.length = 16 + n ∧ ∀ t < 16 + n, bits (w'.getD t 0) = Fips180.schedule block t := by
  induction n
  case zero =>
    refine ⟨hl, fun t ht => ?_⟩
    rw [Fips180.schedule_of_lt ht]
    exact hw t ht
  case succ n ih =>
    obtain ⟨ihl, ih⟩ := ih
    rw [List.range'_concat, List.foldl_append, Nat.one_mul]
    generalize (List.range' 16 n).foldl (fun w i => w ++ [nextWord w i]) w = w' at ihl ih
    refine ⟨by simp [ihl, Nat.add_assoc], fun t ht => ?_⟩
    rcases (by omega : t < 16 + n ∨ t = 16 + n) with ht | rfl
    case inl =>
      rw [←ih t ht]
      simp [List.getElem?_append_left (show t < w'.length by omega)]
    case inr =>
      have : ([16 + n].foldl (fun w i => w ++ [nextWord w i]) w').getD (16 + n) 0 = nextWord w' (16 + n) := by
        simp [ihl]
      rw [this, bits_nextWord, Fips180.schedule_of_le (Nat.le_add_right _ _)]
      rw [ih _ (by omega), ih _ (by omega), ih _ (by omega), ih _ (by omega)]

theorem bits_schedule (h : t < 64) :
    bits ((schedule msg off).getD t 0) = Fips180.schedule (fun i => Fips180.word msg (off + 4 * i)) t := by
  have hw (t : ℕ) (ht : t < 16) : bits (((List.range 16).map fun i => word msg (off + i * 4)).getD t 0) =
      Fips180.word msg (off + 4 * t) := by
    simp [ht, bits_word, Nat.mul_comm]
  have := (schedule_spec (by simp) hw 48).right t (by omega)
  rwa [schedule]

theorem bits_K : bits (K.getD t 0) = Fips180.K t := by
  have hm : K.map bits = Fips180.constants := by decide
  rw [Fips180.K, ←hm]
  exact (List.getD_map K 0 bits).symm

theorem words_round {r : Registers ℤ} {k w : ℤ} :
    words (round r k w) = Fips180.step (words r) (bits k) (bits w) := by
  simp [words, round, Fips180.step, Fips180.bigSigma0, Fips180.bigSigma1, Fips180.Ch, Fips180.Maj, bits_rotr]

theorem words_compress {h : Registers ℤ} :
    words (compress msg h off) = Fips180.compress (words h) fun i => Fips180.word msg (off + 4 * i) := by
  have rounds (n : ℕ) (hn : n ≤ 64) :
      words ((List.range n).foldl (fun r i => round r (K.getD i 0) ((schedule msg off).getD i 0)) h) =
        Fips180.working (words h) (fun i => Fips180.word msg (off + 4 * i)) n := by
    induction n
    case zero => rfl
    case succ n ih =>
      rw [List.range_succ, List.foldl_append, List.foldl_cons, List.foldl_nil, words_round, ih (by omega),
        bits_K, bits_schedule (by omega)]
      rfl
  have := rounds 64 le_rfl
  rw [Fips180.compress, ←this, compress]
  simp [words, add_comm]

theorem words_foldl_compress : words (((List.range n).map (64 * ·)).foldl (compress msg) initial) =
    Fips180.hashValue msg n := by
  induction n
  case zero => rfl
  case succ n ih =>
    rw [List.range_succ, List.map_append, List.foldl_append, List.map_singleton, List.foldl_cons,
      List.foldl_nil, words_compress, ih]
    rfl

theorem wordBytes_eq : wordBytes x = Fips180.wordBytes (bits x) := by
  simp [wordBytes, Fips180.wordBytes, toByte_and]

theorem digest_eq :
    digest msg = (Fips180.hashValue msg (msg.length / 64)).toList.flatMap Fips180.wordBytes := by
  rw [←words_foldl_compress, digest]
  simp only [Registers.toList, words, List.flatMap_cons, List.flatMap_nil, wordBytes_eq]

theorem toByte_byteAt : toByte (and (byteAt msg i) 0xff) = msg.getD i 0 := by
  rw [toByte_and, bits_byteAt]
  exact UInt8.toBitVec_inj.mp <| BitVec.eq_of_toNat_eq <| by simp

-- The first loop copies the message.
theorem copy_eq {bytes : Bytes} (h : bytes.length ≤ msg.length) :
    (List.range bytes.length).foldl (fun msg i => msg.set i <| toByte <| and (byteAt bytes i) 0xff) msg =
      bytes ++ msg.drop bytes.length := by
  have prefixes (n : ℕ) (hn : n ≤ bytes.length) :
      (List.range n).foldl (fun msg i => msg.set i <| toByte <| and (byteAt bytes i) 0xff) msg =
        bytes.take n ++ msg.drop n := by
    induction n
    case zero => rfl
    case succ n ih =>
      have hl : (bytes.take n).length = n := by simp; omega
      have hd : msg.drop n = msg[n] :: msg.drop (n + 1) := List.drop_eq_getElem_cons (by omega)
      have ht : bytes.take (n + 1) = bytes.take n ++ [bytes[n]] := List.take_succ_eq_append_getElem (by omega)
      rw [List.range_succ, List.foldl_append, List.foldl_cons, List.foldl_nil, ih (by omega), toByte_byteAt,
        List.set_append_right _ _ (by omega), hl, Nat.sub_self, hd, List.set_cons_zero, ht,
        List.getD_eq_getElem _ _ (by omega), List.append_assoc, List.singleton_append]
  rw [prefixes _ le_rfl, List.take_length]

theorem set_append_add {l₁ l₂ : Bytes} : (l₁ ++ l₂).set (l₁.length + n) b = l₁ ++ l₂.set n b := by
  rw [List.set_append_right _ _ (by omega), Nat.add_sub_cancel_left]

-- The bytes of the length are split into two words.
theorem lengthField_eq (len : ℕ) :
    let hiBits : ℤ := (len / 0x20000000 : ℕ)
    let loBits := ushr (shl len 3) 0
    Fips180.lengthField len = [
      toByte <| and (ushr hiBits 24) 0xff, toByte <| and (ushr hiBits 16) 0xff,
      toByte <| and (ushr hiBits 8) 0xff, toByte <| and hiBits 0xff,
      toByte <| and (ushr loBits 24) 0xff, toByte <| and (ushr loBits 16) 0xff,
      toByte <| and (ushr loBits 8) 0xff, toByte <| and loBits 0xff
    ] := by
  simp only [toByte_and, bits_ushr, bits_shl, bits_natCast, BitVec.ushiftRight_zero, Fips180.lengthField,
    List.map_cons, List.map_nil, List.cons.injEq, UInt8.ofBitVec.injEq, ←BitVec.toNat_inj,
    BitVec.toNat_setWidth, BitVec.toNat_ushiftRight, BitVec.toNat_shiftLeft, BitVec.toNat_ofNat,
    Nat.shiftRight_eq_div_pow, Nat.shiftLeft_eq, and_true]
  refine ⟨?_, ?_, ?_, ?_, ?_, ?_, ?_, ?_⟩ <;> omega

theorem padInto_eq (bytes : Bytes) :
    padInto (.replicate (paddedLength bytes.length) 0) bytes = Fips180.pad bytes := by
  have htotal : paddedLength bytes.length = bytes.length + 1 + Fips180.zeros bytes.length + 8 := by
    simp only [paddedLength, Fips180.zeros]
    omega
  have hset : (bytes ++ List.replicate (1 + Fips180.zeros bytes.length + 8) 0).set bytes.length (0x80 : UInt8) =
      (bytes ++ 0x80 :: List.replicate (Fips180.zeros bytes.length) 0) ++ List.replicate 8 0 := by
    rw [List.set_append_right _ _ le_rfl, Nat.sub_self, Nat.add_assoc, Nat.add_comm 1, List.replicate_succ,
      List.set_cons_zero, List.replicate_add]
    simp
  simp only [padInto, List.length_replicate, htotal]
  rw [copy_eq (by simp; omega), List.drop_replicate,
    show bytes.length + 1 + Fips180.zeros bytes.length + 8 - bytes.length = 1 + Fips180.zeros bytes.length + 8
      by omega, hset]
  have hl : (bytes ++ 0x80 :: List.replicate (Fips180.zeros bytes.length) 0).length =
      bytes.length + 1 + Fips180.zeros bytes.length := by
    simp
    omega
  rw [Fips180.pad, lengthField_eq, ←hl]
  generalize bytes ++ 0x80 :: List.replicate (Fips180.zeros bytes.length) 0 = front
  simp only [show front.length + 8 - 8 = front.length + 0 by omega,
    show front.length + 8 - 7 = front.length + 1 by omega, show front.length + 8 - 6 = front.length + 2 by omega,
    show front.length + 8 - 5 = front.length + 3 by omega, show front.length + 8 - 4 = front.length + 4 by omega,
    show front.length + 8 - 3 = front.length + 5 by omega, show front.length + 8 - 2 = front.length + 6 by omega,
    show front.length + 8 - 1 = front.length + 7 by omega, set_append_add]
  rfl

theorem sha256Bytes_eq {bytes : Bytes} (h : bytes.length < 2 ^ 53 - 72) :
    sha256Bytes bytes = some (Fips180.sha256 bytes) := by
  have hl : paddedLength bytes.length ≤ 2 ^ 53 - 1 := by
    rw [paddedLength]
    omega
  rw [sha256Bytes, newUint8Array, if_pos hl]
  show some (digest <| padInto _ bytes) = _
  rw [padInto_eq, digest_eq, Fips180.sha256]

-- The digits of bytes, two for each of them.
def hex (bytes : Bytes) : JsString :=
  bytes.flatMap fun b => (Numeral.digits 16 2 b.toNat).map Hex.lowerDigit

theorem toHex_eq (bytes : Bytes) : toHex bytes = hex bytes := by
  refine List.flatMap_congr fun b _ => ?_
  have hb := b.toNat_lt
  rw [toString16]
  split_ifs with h
  case pos =>
    have hd : Numeral.digits 16 2 b.toNat = [0, b.toNat] := by
      simp [Numeral.digits, Nat.div_eq_of_lt h, Nat.mod_eq_of_lt h]
    rw [hd]
    rfl
  case neg =>
    have hd : Numeral.digits 16 2 b.toNat = [b.toNat / 16, b.toNat % 16] := by
      simp [Numeral.digits]
      omega
    rw [hd]
    rfl

section

open Unicode

-- The first byte of a sequence, where the bits of the marker and of the code point are disjoint.
theorem toByte_or (i a y : ℕ) (hy : y < 2 ^ i) (h : 2 ^ i * a + y < 2 ^ 8) :
    toByte (or (2 ^ i * a : ℕ) y) = .ofNat (y + 2 ^ i * a) := by
  have hor : (2 ^ i * a) ||| y = 2 ^ i * a + y := (Nat.two_pow_add_eq_or_of_lt hy a).symm
  rw [or_natCast (by omega) (by omega), toByte_natCast, hor, Nat.add_comm]

theorem toByte_continuation (x : ℕ) (h : x < 2 ^ 31) :
    toByte (or 0x80 (and x 0x3f)) = .ofNat (x % 64 + 128) := by
  have hm : Bitwise.and x 0x3f = (x % 64 : ℕ) := by
    rw [show (0x3f : ℤ) = (63 : ℕ) from rfl, and_natCast h (by omega), Nat.and_two_pow_sub_one_eq_mod x 6]
  rw [hm]
  exact toByte_or 7 1 (x % 64) (by omega) (by omega)

theorem encode_eq (c : Char) : (encode c.toNat).map toByte = String.utf8EncodeChar c := by
  have hc := not_surrogate c
  have hv : c.val.toNat = c.toNat := rfl
  simp only [encode, String.utf8EncodeChar, hv]
  generalize c.toNat = v at hc
  have hs (k : ℕ) : sshr v k = (v / 2 ^ k : ℕ) := sshr_natCast (by omega)
  by_cases h₁ : v < 0x80
  case pos =>
    rw [if_pos (by omega), if_pos (by omega), List.map_singleton, toByte_natCast]
  rw [if_neg (by omega), if_neg (show ¬ v ≤ 0x7f by omega)]
  by_cases h₂ : v < 0x800
  case pos =>
    rw [if_pos (by omega), if_pos (by omega), List.map_cons, List.map_singleton, hs,
      toByte_continuation v (by omega), show (0xc0 : ℤ) = (2 ^ 5 * 6 : ℕ) from rfl,
      toByte_or 5 6 (v / 2 ^ 6) (by omega) (by omega), Nat.mod_eq_of_lt (show v / 64 < 0x20 by omega)]
    rfl
  rw [if_neg (by omega), if_neg (show ¬ v ≤ 0x7ff by omega)]
  by_cases h₃ : v < 0x10000
  case pos =>
    rw [if_pos (by omega), if_pos (by omega), List.map_cons, List.map_cons, List.map_singleton, hs, hs,
      toByte_continuation v (by omega), toByte_continuation (v / 2 ^ 6) (by omega),
      show (0xe0 : ℤ) = (2 ^ 4 * 14 : ℕ) from rfl, toByte_or 4 14 (v / 2 ^ 12) (by omega) (by omega),
      Nat.mod_eq_of_lt (show v / 4096 < 0x10 by omega)]
    rfl
  rw [if_neg (by omega), if_neg (show ¬ v ≤ 0xffff by omega), List.map_cons, List.map_cons, List.map_cons,
    List.map_singleton, hs, hs, hs, toByte_continuation v (by omega), toByte_continuation (v / 2 ^ 6) (by omega),
    toByte_continuation (v / 2 ^ 12) (by omega), show (0xf0 : ℤ) = (2 ^ 3 * 30 : ℕ) from rfl,
    toByte_or 3 30 (v / 2 ^ 18) (by omega) (by omega), Nat.mod_eq_of_lt (show v / 262144 < 0x08 by omega)]
  rfl

theorem unpaired_eq (u : UInt16) : unpaired u = (ofUnit u).toNat := by
  rw [unpaired, ofUnit]
  by_cases hh : isHigh u
  · rw [if_pos (by simpa [isHigh] using hh), if_pos (.inl hh)]
    rfl
  rw [if_neg (by simpa [isHigh] using hh)]
  by_cases hl : isLow u
  · rw [if_pos (by simpa [isLow] using hl), if_pos (.inr hl)]
    rfl
  rw [if_neg (by simpa [isLow] using hl), if_neg (by tauto)]
  have hu := u.toNat_lt
  have hv : u.toNat.isValidChar := by
    rw [isHigh_iff] at hh
    rw [isLow_iff] at hl
    rw [Nat.isValidChar]
    omega
  rw [Char.toNat_ofNat, if_pos hv]

theorem paired_eq (h : isHigh u) (l : isLow v) :
    0x10000 + shl (u.toNat - 0xd800) 10 + (v.toNat - 0xdc00) = (ofPair u v).toNat := by
  rw [isHigh_iff] at h
  rw [isLow_iff] at l
  have hu : (u.toNat : ℤ) - 0xd800 = (u.toNat - 0xd800 : ℕ) := by omega
  have hv : (0x10000 + (u.toNat - 0xD800) * 0x400 + (v.toNat - 0xDC00)).isValidChar := by
    rw [Nat.isValidChar]
    omega
  rw [hu, shl_natCast (by omega), ofPair, Char.toNat_ofNat, if_pos hv]
  omega

theorem codes_eq (s : JsString) : (codes s).map toByte = bufferFrom s := by
  rw [bufferFrom]
  induction s using decode.induct
  case case1 u v s h ih =>
    have hc : (0xd800 ≤ u ∧ u ≤ 0xdbff) ∧ 0xdc00 ≤ v ∧ v ≤ 0xdfff := by simpa [isHigh, isLow] using h
    rw [codes, if_pos hc, List.map_append, ih, paired_eq h.1 h.2, encode_eq, decode, if_pos h]
    rfl
  case case2 u v s h ih =>
    have hc : ¬ ((0xd800 ≤ u ∧ u ≤ 0xdbff) ∧ 0xdc00 ≤ v ∧ v ≤ 0xdfff) := by simpa [isHigh, isLow] using h
    rw [codes, if_neg hc, List.map_append, ih, unpaired_eq, encode_eq, decode, if_neg h]
    rfl
  case case3 u =>
    rw [codes, unpaired_eq, encode_eq, decode]
    exact (List.append_nil _).symm
  case case4 => rfl

end

theorem sha256Hex_eq (bytes : Bytes) :
    sha256Hex bytes = if bytes.length < 2 ^ 53 - 72 then some <| hex <| Fips180.sha256 bytes else none := by
  rw [sha256Hex]
  split_ifs with h
  case pos => rw [sha256Bytes_eq h, Option.map_some, toHex_eq]
  case neg =>
    have hl : ¬ paddedLength bytes.length ≤ 2 ^ 53 - 1 := by
      rw [paddedLength]
      omega
    rw [sha256Bytes, newUint8Array, if_neg hl]
    rfl

theorem sha256HexUtf8_eq (str : JsString) : sha256HexUtf8 str =
    if (Unicode.bufferFrom str).length < 2 ^ 32 then
      some <| hex <| Fips180.sha256 <| Unicode.bufferFrom str
    else
      none := by
  have hl : (codes str).length = (Unicode.bufferFrom str).length := by
    rw [←codes_eq, List.length_map]
  rw [sha256HexUtf8, utf8Bytes, hl, codes_eq]
  split_ifs with h
  case pos =>
    show (sha256Bytes _).bind (fun digest => some <| toHex digest) = _
    rw [sha256Bytes_eq (by omega), Option.bind_some, toHex_eq]
  case neg => rfl

-- The function is the one of the standard for all arrays which the language can pad.
theorem sha256_correct :
    (∀ bytes, sha256Hex bytes =
      if bytes.length < 2 ^ 53 - 72 then some <| hex <| Fips180.sha256 bytes else none) ∧
    (∀ str, sha256HexUtf8 str =
      if (Unicode.bufferFrom str).length < 2 ^ 32 then
        some <| hex <| Fips180.sha256 <| Unicode.bufferFrom str
      else
        none) :=
  ⟨sha256Hex_eq, sha256HexUtf8_eq⟩

-- The padding of an array of almost `2 ^ 53` bytes is too long for an array.
theorem not_sha256_of_long :
    ¬ ∀ bytes : Bytes, bytes.length < 2 ^ 53 → sha256Hex bytes = some (hex <| Fips180.sha256 bytes) := by
  intro h
  have := h (List.replicate (2 ^ 53 - 72) 0) (by rw [List.length_replicate]; omega)
  rw [sha256Hex_eq, List.length_replicate, if_neg (by omega)] at this
  cases this

end

end VendoredSha256

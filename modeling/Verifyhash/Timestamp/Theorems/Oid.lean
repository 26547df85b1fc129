import Verifyhash.Data.Decimals
import Verifyhash.Library.Fallible
import Verifyhash.Timestamp.Der

-- The object identifiers, and what their encodings are decoded as.
namespace Rfc3161

open Fallible Json Value

structure ObjectIdentifier where
  first  : ℕ
  second : ℕ
  arcs   : List ℕ
  top    : first ≤ 2
  packed : first < 2 → second < 40

-- The digits of a number to the base 128, each with the bit which says that more follow.
def continued (n : ℕ) : Bytes :=
  if n = 0 then [] else continued (n / 128) ++ [.ofNat (128 + n % 128)]

def subidentifier (n : ℕ) : Bytes :=
  continued (n / 128) ++ [.ofNat (n % 128)]

namespace ObjectIdentifier

-- The content octets of the distinguished encoding.
def encode (o : ObjectIdentifier) : Bytes :=
  subidentifier (40 * o.first + o.second) ++ o.arcs.flatMap subidentifier

def texts (o : ObjectIdentifier) : List JsString :=
  (o.first :: o.second :: o.arcs).map fun n => js <| toString n

def dotted (o : ObjectIdentifier) : JsString :=
  joinArcs o.texts

end ObjectIdentifier

-- The number with the given value, as doubles compute it from its digits to the base 128.
def horner (n : ℕ) : Option ℚ :=
  if n < 128 then accumulate (some 0) n else accumulate (horner (n / 128)) (n % 128)

-- Two identifiers are decoded to their dotted strings, and to distinct ones if their encodings are distinct.
structure DecodesApart (o o' : ObjectIdentifier) : Prop where
  left  : ∀ buf valStart valEnd, slice buf valStart valEnd = .ok o.encode →
    decodeOID buf valStart valEnd = .ok o.dotted
  right : ∀ buf valStart valEnd, slice buf valStart valEnd = .ok o'.encode →
    decodeOID buf valStart valEnd = .ok o'.dotted
  apart : o.encode ≠ o'.encode → ∀ buf valStart valEnd buf' valStart' valEnd',
    slice buf valStart valEnd = .ok o.encode → slice buf' valStart' valEnd' = .ok o'.encode →
      decodeOID buf valStart valEnd ≠ decodeOID buf' valStart' valEnd'

-- The second arc is less than 40, also below the arc 2, and every further arc is printed as itself after
-- the sum of its digits in doubles.
structure Representable (o : ObjectIdentifier) : Prop where
  second : o.second < 40
  arcs   : ∀ n ∈ o.arcs, arcText (horner n) = js (toString n)

-- The loop of the decoder, over the bytes themselves.
def arcsOf : Bytes → (val : Option ℚ) → (started : Bool) → (parts : List JsString) → Except Failure (List JsString)
  | [],      _,   started, parts =>
    if started then derError <| js "truncated OID (last sub-identifier unterminated)" else .ok parts
  | b :: bs, val, started, parts => do
    throwIf (¬ started ∧ b = 0x80) <| js "non-minimal OID sub-identifier"
    let val := accumulate val (b &&& 0x7f).toNat
    if b &&& 0x80 = 0 then
      arcsOf bs (some 0) false (parts ++ [arcText val])
    else
      arcsOf bs val true parts

section

variable {buf rest : Bytes} {i count n valStart valEnd : ℕ} {val : Option ℚ} {started : Bool}
  {parts : List JsString} {o o' : ObjectIdentifier}

theorem decodeArcs_eq (h : i + count ≤ buf.length) :
    decodeArcs buf count i val started parts = arcsOf ((buf.drop i).take count) val started parts := by
  induction count generalizing i val started parts
  case zero => rw [decodeArcs, List.take_zero, arcsOf]
  case succ count ih =>
    have hi : i < buf.length := by omega
    have hb : byteAt buf i = .ok buf[i] := by rw [byteAt, List.getElem?_eq_getElem hi]
    have hn : i + 1 + count ≤ buf.length := by omega
    rw [decodeArcs, hb, ok_bind, List.drop_eq_getElem_cons hi, List.take_succ_cons, arcsOf]
    simp only [ih hn]

-- A byte which says that more follow, unless it is a zero at the start.
theorem arcsOf_more {d : ℕ} (hd : d < 128) (h : started ∨ d ≠ 0) :
    arcsOf (.ofNat (128 + d) :: rest) val started parts = arcsOf rest (accumulate val d) true parts := by
  have hb : ∀ d < 128, (UInt8.ofNat (128 + d) &&& 0x7f).toNat = d ∧ UInt8.ofNat (128 + d) &&& 0x80 ≠ 0 ∧
      (UInt8.ofNat (128 + d) = 0x80 → d = 0) := by decide
  obtain ⟨h₁, h₂, h₃⟩ := hb d hd
  have hc : ¬ (¬ started ∧ UInt8.ofNat (128 + d) = 0x80) := by
    rintro ⟨hs, hz⟩
    exact h.elim hs fun h => h <| h₃ hz
  rw [arcsOf, throwIf, if_neg hc, ok_bind, if_neg h₂, h₁]

-- The last byte of a number.
theorem arcsOf_last {d : ℕ} (hd : d < 128) :
    arcsOf (.ofNat d :: rest) val started parts = arcsOf rest (some 0) false (parts ++ [arcText <| accumulate val d]) := by
  have hb : ∀ d < 128, (UInt8.ofNat d &&& 0x7f).toNat = d ∧ UInt8.ofNat d &&& 0x80 = 0 ∧ UInt8.ofNat d ≠ 0x80 := by
    decide
  obtain ⟨h₁, h₂, h₃⟩ := hb d hd
  rw [arcsOf, throwIf, if_neg fun h => h₃ h.right, ok_bind, if_pos h₂, h₁]

theorem arcsOf_continued (hn : 0 < n) :
    arcsOf (continued n ++ rest) (some 0) false parts = arcsOf rest (horner n) true parts := by
  induction n using Nat.strong_induction_on generalizing rest
  case h n ih =>
    rw [continued, if_neg hn.ne', List.append_assoc, List.singleton_append, horner]
    split_ifs with h
    case pos =>
      have hz : continued (n / 128) = [] := by rw [Nat.div_eq_of_lt h, continued, if_pos rfl]
      rw [hz, List.nil_append, Nat.mod_eq_of_lt h, arcsOf_more h (.inr hn.ne')]
    case neg =>
      rw [ih (n / 128) (by omega) (by omega), arcsOf_more (Nat.mod_lt _ (by norm_num)) (.inl rfl)]

theorem arcsOf_subidentifier : arcsOf (subidentifier n ++ rest) (some 0) false parts =
    arcsOf rest (some 0) false (parts ++ [arcText <| horner n]) := by
  rw [subidentifier, List.append_assoc, List.singleton_append, horner]
  split_ifs with h
  case pos =>
    have hz : continued (n / 128) = [] := by rw [Nat.div_eq_of_lt h, continued, if_pos rfl]
    rw [hz, List.nil_append, Nat.mod_eq_of_lt h, arcsOf_last h]
  case neg => rw [arcsOf_continued (by omega), arcsOf_last (Nat.mod_lt _ (by norm_num))]

theorem arcsOf_flatMap {ns : List ℕ} : arcsOf (ns.flatMap subidentifier) (some 0) false parts =
    .ok (parts ++ ns.map fun n => arcText (horner n)) := by
  induction ns generalizing parts
  case nil => simp [arcsOf]
  case cons n ns ih => rw [List.flatMap_cons, arcsOf_subidentifier, ih, List.append_assoc, List.singleton_append,
    List.map_cons]

theorem prefix_of_arcsOf {bs : Bytes} {r : List JsString} (h : arcsOf bs val started parts = .ok r) :
    ∃ l, r = parts ++ l := by
  induction bs generalizing val started parts
  case nil =>
    rw [arcsOf] at h
    split_ifs at h
    · cases h
    · exact ⟨[], by simp [Except.ok.inj h]⟩
  case cons b bs ih =>
    simp only [arcsOf, bind_eq_ok] at h
    obtain ⟨_, _, h⟩ := h
    split_ifs at h
    · obtain ⟨l, rfl⟩ := ih h
      exact ⟨_, List.append_assoc ..⟩
    · exact ih h

-- The decoder on the bytes which it is given.
theorem decodeOID_eq {b : UInt8} {bs : Bytes} (h : slice buf valStart valEnd = .ok (b :: bs)) :
    decodeOID buf valStart valEnd = (joinArcs ·) <$>
      arcsOf bs (some 0) false [js <| toString (b.toNat / 40), js <| toString (b.toNat % 40)] := by
  rw [slice] at h
  split_ifs at h with hl
  have h := Except.ok.inj h
  have hlen := congrArg List.length h
  rw [List.length_take, List.length_drop, List.length_cons] at hlen
  have hs : valStart < buf.length := by omega
  rw [List.drop_eq_getElem_cons hs] at h
  obtain ⟨count, hc⟩ : ∃ count, valEnd - valStart = count + 1 := ⟨valEnd - valStart - 1, by omega⟩
  rw [hc, List.take_succ_cons, List.cons_eq_cons] at h
  obtain ⟨rfl, rfl⟩ := h
  have hb : byteAt buf valStart = .ok buf[valStart] := by rw [byteAt, List.getElem?_eq_getElem hs]
  have hc' : valEnd - (valStart + 1) = count := by omega
  rw [decodeOID, throwIf, if_neg (by omega), ok_bind, hb, ok_bind, hc']
  dsimp only
  rw [decodeArcs_eq (by omega)]
  rfl

theorem joinArcs_cons {p q : JsString} {ps : List JsString} :
    joinArcs (p :: q :: ps) = p ++ js "." ++ joinArcs (q :: ps) := by
  simp [joinArcs, List.intercalate]

-- The number of the points in a text which is joined from parts.
theorem count_joinArcs {p : JsString} {ps : List JsString} :
    (joinArcs (p :: ps)).count 46 = ps.length + ((p :: ps).map (List.count 46)).sum := by
  induction ps generalizing p
  case nil => simp [joinArcs, List.intercalate]
  case cons q ps ih =>
    have h₁ : (js ".").count 46 = 1 := by decide
    rw [joinArcs_cons, List.count_append, List.count_append, ih, h₁]
    simp only [List.map_cons, List.sum_cons, List.length_cons]
    omega

theorem splitOn_joinArcs {ps : List JsString} (hne : ps ≠ []) (h : ∀ p ∈ ps, 46 ∉ p) :
    (joinArcs ps).splitOn 46 = ps :=
  List.splitOn_intercalate 46 h hne

theorem point_notMem_toString (n : ℕ) : (46 : UInt16) ∉ js (toString n) := by
  intro h
  exact absurd (isDigit_js_toString n 46 h) (by decide)

-- Parts without points are told from as many others by what they are joined to.
theorem joinArcs_inj {p q : JsString} {ps qs : List JsString} (hl : ps.length = qs.length)
    (hq : ∀ x ∈ q :: qs, 46 ∉ x) (h : joinArcs (p :: ps) = joinArcs (q :: qs)) : p :: ps = q :: qs := by
  have hc := congrArg (List.count 46) h
  rw [count_joinArcs, count_joinArcs, hl, Nat.add_left_cancel_iff] at hc
  have hz : ((q :: qs).map (List.count 46)).sum = 0 := List.sum_eq_zero <| by
    intro c hc
    obtain ⟨x, hx, rfl⟩ := List.mem_map.mp hc
    exact List.count_eq_zero.mpr <| hq x hx
  rw [hz, List.sum_eq_zero_iff] at hc
  have hp : ∀ x ∈ p :: ps, 46 ∉ x := fun x hx =>
    List.count_eq_zero.mp <| hc _ <| List.mem_map_of_mem hx
  rw [←splitOn_joinArcs (by simp) hp, h, splitOn_joinArcs (by simp) hq]

theorem point_notMem_texts (o : ObjectIdentifier) : ∀ x ∈ o.texts, 46 ∉ x := by
  intro x hx
  obtain ⟨n, _, rfl⟩ := List.mem_map.mp hx
  exact point_notMem_toString n

theorem dotted_inj (h : o.dotted = o'.dotted) : o.encode = o'.encode := by
  have ht : o.texts = o'.texts := by
    rw [←splitOn_joinArcs (by simp [ObjectIdentifier.texts]) (point_notMem_texts o),
      ←splitOn_joinArcs (by simp [ObjectIdentifier.texts]) (point_notMem_texts o')]
    exact congrArg _ h
  have hl := List.map_injective_iff.mpr (fun _ _ h => js_toString_inj h) ht
  simp only [List.cons.injEq] at hl
  rw [ObjectIdentifier.encode, ObjectIdentifier.encode, hl.left, hl.right.left, hl.right.right]

theorem toNat_ofNat (h : n < 256) : (UInt8.ofNat n).toNat = n :=
  Nat.mod_eq_of_lt h

theorem le_of_mem_continued : ∀ b ∈ continued n, 128 ≤ b.toNat := by
  induction n using Nat.strong_induction_on
  case h n ih =>
    rw [continued]
    split_ifs with h
    case pos => simp
    case neg =>
      intro b hb
      rw [List.mem_append, List.mem_singleton] at hb
      rcases hb with hb | rfl
      · exact ih (n / 128) (by omega) b hb
      · have : n % 128 < 128 := Nat.mod_lt _ (by norm_num)
        rw [toNat_ofNat (by omega)]
        omega

-- The first byte of a number from 120 on.
theorem subidentifier_of_le (h : 120 ≤ n) : ∃ b bs, subidentifier n = b :: bs ∧ 120 ≤ b.toNat := by
  rw [subidentifier]
  cases hc : continued (n / 128)
  case nil =>
    have hn : n < 128 := by
      by_contra hn
      rw [continued, if_neg (by omega)] at hc
      simp at hc
    refine ⟨_, [], rfl, ?_⟩
    rw [toNat_ofNat (by omega)]
    omega
  case cons b bs =>
    have := le_of_mem_continued b (hc ▸ List.mem_cons_self)
    exact ⟨b, _, rfl, by omega⟩

theorem subidentifier_of_lt (h : n < 128) : subidentifier n = [.ofNat n] := by
  rw [subidentifier, Nat.div_eq_of_lt h, continued, if_pos rfl, Nat.mod_eq_of_lt h, List.nil_append]

theorem decodeOID_of_lt (hs : o.second < 40) (h : slice buf valStart valEnd = .ok o.encode) :
    decodeOID buf valStart valEnd = .ok (joinArcs (js (toString o.first) :: js (toString o.second) ::
      o.arcs.map fun n => arcText (horner n))) := by
  have ht := o.top
  have hn : 40 * o.first + o.second < 128 := by omega
  rw [ObjectIdentifier.encode, subidentifier_of_lt hn, List.singleton_append] at h
  rw [decodeOID_eq h, toNat_ofNat (by omega), arcsOf_flatMap]
  have h₁ : (40 * o.first + o.second) / 40 = o.first := by omega
  have h₂ : (40 * o.first + o.second) % 40 = o.second := by omega
  rw [h₁, h₂]
  rfl

-- The first arc of an identifier whose second arc is 40 or more is decoded as 3 or more.
theorem decodeOID_ne (hs : 40 ≤ o.second) (h : slice buf valStart valEnd = .ok o.encode) :
    decodeOID buf valStart valEnd ≠ .ok o.dotted := by
  intro hd
  have ht := o.top
  have hp := o.packed
  have h2 : o.first = 2 := by omega
  obtain ⟨b, bs, hb, hle⟩ := subidentifier_of_le (n := 40 * o.first + o.second) (by omega)
  rw [ObjectIdentifier.encode, hb, List.cons_append] at h
  rw [decodeOID_eq h] at hd
  cases hr : arcsOf (bs ++ o.arcs.flatMap subidentifier) (some 0) false
    [js <| toString (b.toNat / 40), js <| toString (b.toNat % 40)]
  case error =>
    rw [hr] at hd
    cases hd
  case ok r  =>
    obtain ⟨l, rfl⟩ := prefix_of_arcsOf hr
    have hk : b.toNat / 40 < 10 := by
      have := b.toNat_lt
      omega
    rw [hr] at hd
    have hd : joinArcs (js (toString (b.toNat / 40)) :: js (toString (b.toNat % 40)) :: l) = o.dotted :=
      Except.ok.inj hd
    rw [ObjectIdentifier.dotted, ObjectIdentifier.texts, List.map_cons, List.map_cons, joinArcs_cons, joinArcs_cons, h2,
      js_toString_of_lt hk, js_toString_of_lt (by norm_num : 2 < 10)] at hd
    have hu : digitUnit (b.toNat / 40) = digitUnit 2 := List.head_eq_of_cons_eq hd
    have hv := digitUnit_spec hk |>.right
    rw [hu, (digitUnit_spec (by norm_num) |>.right : (digitUnit 2).toNat - 48 = 2)] at hv
    omega

theorem slice_self (bs : Bytes) : slice bs 0 bs.length = .ok bs := by
  simp [slice]

-- An identifier is decoded to its dotted string if and only if it is representable.
theorem decodes_iff : (∀ buf valStart valEnd, slice buf valStart valEnd = .ok o.encode →
    decodeOID buf valStart valEnd = .ok o.dotted) ↔ Representable o := by
  constructor
  case mp =>
    intro h
    have hd := h _ _ _ (slice_self o.encode)
    have hs : o.second < 40 := not_le.mp fun hs => decodeOID_ne hs (slice_self o.encode) hd
    rw [decodeOID_of_lt hs (slice_self _)] at hd
    have hj := joinArcs_inj (by simp) (point_notMem_texts o) (Except.ok.inj hd)
    simp only [List.map_cons, List.cons.injEq, true_and, List.map_inj_left] at hj
    exact ⟨hs, hj⟩
  case mpr =>
    intro ⟨hs, ha⟩ buf valStart valEnd h
    rw [decodeOID_of_lt hs h, List.map_congr_left ha]
    rfl

end

-- The identifier 2.100, which is decoded as 3.9.52.
def joint : ObjectIdentifier where
  first  := 2
  second := 100
  arcs   := []
  top    := by decide
  packed := by decide

end Rfc3161

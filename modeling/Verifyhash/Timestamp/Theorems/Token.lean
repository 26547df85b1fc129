import Verifyhash.Library.Fallible
import Verifyhash.Library.Outcome
import Verifyhash.Timestamp.Token

-- The structure of the tokens which are accepted.
namespace Rfc3161

open Fallible Json

-- No byte beyond the end of the buffer is accessed.
def InBounds (e : Failure) : Prop :=
  e ≠ .overRead

-- The field of a definite length at position `p`, which ends at `start`.
inductive DefiniteLength (buf : Bytes) (p : ℕ) : (start len : ℕ) → Prop
  | short : buf[p]? = some b → b < 0x80 → DefiniteLength buf p (p + 1) b.toNat
  | long  : buf[p]? = some b → b.toNat = 128 + n → 1 ≤ n → n ≤ 4 → p + 1 + n ≤ buf.length →
    DefiniteLength buf p (p + 1 + n) (Numeral.value 256 <| ((buf.drop (p + 1)).take n).map UInt8.toNat)

-- A value with its tag and a definite length is found at position `pos`, and ends by `limit`.
structure Element (buf : Bytes) (pos limit : ℕ) (t : TLV) : Prop where
  tag    : buf[pos]? = some t.tag
  length : DefiniteLength buf (pos + 1) t.valStart (t.valEnd - t.valStart)
  start  : pos < t.valStart
  order  : t.valStart ≤ t.valEnd
  within : t.valEnd ≤ limit

section

variable {buf : Bytes} {pos limit p q count len valStart valEnd : ℕ}

theorem ensures_derError {P : α → Prop} {m : JsString} : Ensures InBounds P (derError m) :=
  nofun

theorem ensures_throwIf {c : Prop} [Decidable c] {m : JsString} :
    Ensures InBounds (fun _ => ¬ c) (throwIf c m) := by
  rw [throwIf]
  split_ifs with h
  · exact ensures_derError
  · exact h

theorem ensures_byteAt (h : p < buf.length) : Ensures InBounds (fun b => buf[p]? = some b) (byteAt buf p) := by
  rw [byteAt, List.getElem?_eq_getElem h]
  rfl

theorem ensures_slice (h : q ≤ buf.length) : Ensures InBounds (fun _ => True) (slice buf p q) := by
  rw [slice, if_pos h]
  trivial

theorem readLength_eq (h : p + count ≤ buf.length) : readLength buf count p len =
    .ok (len * 256 ^ count + Numeral.value 256 (((buf.drop p).take count).map UInt8.toNat), p + count) := by
  induction count generalizing p len
  case zero => simp [readLength, Numeral.value]
  case succ count ih =>
    have hp : p < buf.length := by omega
    have hb : byteAt buf p = .ok buf[p] := by rw [byteAt, List.getElem?_eq_getElem hp]
    have hl : (List.map UInt8.toNat (List.take count (List.drop (p + 1) buf))).length = count := by
      simp
      omega
    rw [readLength, hb, ok_bind, ih (by omega), List.drop_eq_getElem_cons hp, List.take_succ_cons, List.map_cons,
      Numeral.value_cons, hl]
    congr 2
    · ring
    · omega

theorem ensures_lengthField {lenByte : UInt8} (hb : buf[p]? = some lenByte) (hl : limit ≤ buf.length) :
    Ensures InBounds (fun r => DefiniteLength buf p r.snd r.fst ∧ p < r.snd)
      (lengthField buf lenByte (p + 1) limit) := by
  rw [lengthField]
  split_ifs with h h'
  case pos => exact ensures_pure ⟨.short hb h, Nat.lt_succ_self p⟩
  case pos => exact ensures_derError
  case neg =>
    have hn : (lenByte &&& 0x7f).toNat = lenByte.toNat % 128 := Nat.and_two_pow_sub_one_eq_mod _ 7
    have h₁ : 128 < lenByte.toNat := by
      have : lenByte.toNat ≠ 128 := fun h => h' <| UInt8.toNat_inj.mp h
      have := UInt8.not_lt.mp h
      rw [UInt8.le_iff_toNat_le] at this
      have : (128 : UInt8).toNat = 128 := rfl
      omega
    have h₂ := lenByte.toNat_lt
    refine ensures_throwIf.bind fun _ hs => ?_
    refine ensures_throwIf.bind fun _ ht => ?_
    rw [readLength_eq (by omega), ok_bind]
    refine ensures_throwIf.bind fun _ _ => ?_
    refine (ensures_byteAt (by omega)).bind fun b _ => ?_
    refine ensures_throwIf.bind fun _ _ => ensures_pure ⟨?_, by omega⟩
    rw [Nat.zero_mul, Nat.zero_add]
    exact .long hb (by omega) (by omega) (by omega) (by omega)

theorem ensures_readTLV (hl : limit ≤ buf.length) :
    Ensures InBounds (Element buf pos limit) (readTLV buf pos limit) := by
  rw [readTLV]
  refine ensures_throwIf.bind fun _ h₁ => ?_
  refine (ensures_byteAt (by omega)).bind fun tag htag => ?_
  refine ensures_throwIf.bind fun _ _ => ?_
  refine ensures_throwIf.bind fun _ h₂ => ?_
  refine (ensures_byteAt (by omega)).bind fun lenByte hb => ?_
  refine (ensures_lengthField hb hl).bind fun r hr => ?_
  refine ensures_throwIf.bind fun _ h₃ => ?_
  have ⟨hd, hs⟩ := hr
  have hn : r.snd + r.fst - r.snd = r.fst := Nat.add_sub_cancel_left ..
  exact ensures_pure ⟨htag, hn.symm ▸ hd, (Nat.lt_succ_self pos).trans hs, Nat.le_add_right .., not_lt.mp h₃⟩

-- An element with a tag which is asked for.
structure Tagged (buf : Bytes) (pos limit : ℕ) (wantTag : UInt8) (t : TLV) : Prop extends Element buf pos limit t where
  eq_tag : t.tag = wantTag

theorem ensures_expectTLV {tag : UInt8} {what : String} (hl : limit ≤ buf.length) :
    Ensures InBounds (Tagged buf pos limit tag) (expectTLV buf pos limit tag what) :=
  (ensures_readTLV hl).bind fun _ ht => ensures_throwIf.bind fun _ h => ensures_pure ⟨ht, not_not.mp h⟩

theorem ensures_decodeArcs {val : Option ℚ} {started : Bool} {parts : List JsString} (h : p + count ≤ buf.length) :
    Ensures InBounds (fun _ => True) (decodeArcs buf count p val started parts) := by
  induction count generalizing p val started parts
  case zero =>
    rw [decodeArcs]
    split_ifs
    · exact ensures_derError
    · trivial
  case succ count ih =>
    rw [decodeArcs]
    refine (ensures_byteAt (by omega)).bind fun b _ => ensures_throwIf.bind fun _ _ => ?_
    dsimp only
    split_ifs
    · exact ih (by omega)
    · exact ih (by omega)

theorem ensures_decodeOID (h : valEnd ≤ buf.length) :
    Ensures InBounds (fun _ => True) (decodeOID buf valStart valEnd) := by
  refine ensures_throwIf.bind fun _ h₁ => (ensures_byteAt (by omega)).bind fun _ _ => ?_
  exact (ensures_decodeArcs (by omega)).bind fun _ _ => trivial

theorem ensures_decodeUInt {what : String} (h : valEnd ≤ buf.length) :
    Ensures InBounds (fun _ => True) (decodeUInt buf valStart valEnd what) := by
  refine ensures_throwIf.bind fun _ h₁ => (ensures_byteAt (by omega)).bind fun first _ => ?_
  have hm : Ensures InBounds (fun _ => True) (checkMinimal buf valStart valEnd first what) := by
    rw [checkMinimal]
    split_ifs
    · refine (ensures_byteAt (by omega)).bind fun _ _ => ensures_throwIf.bind fun _ _ => ?_
      exact ensures_throwIf.mono fun _ _ => trivial
    · trivial
  exact hm.bind fun _ _ => ensures_throwIf.bind fun _ _ => (ensures_slice h).bind fun _ _ => trivial

theorem ensures_decodeFields {raw : JsString} : Ensures InBounds (fun _ => True) (decodeFields raw) := by
  have hf : Ensures InBounds (fun _ => True) (decodeFraction raw) := by
    rw [decodeFraction]
    cases fraction? raw
    case none => trivial
    case some =>
      dsimp only
      split_ifs
      · exact ensures_derError
      · exact ensures_derError
      · trivial
  refine ensures_throwIf.bind fun _ _ => ensures_throwIf.bind fun _ _ => ensures_throwIf.bind fun _ _ => ?_
  refine hf.bind fun frac _ => ?_
  dsimp only
  split
  · exact ensures_derError
  · trivial

theorem ensures_decodeGeneralizedTime (h : valEnd ≤ buf.length) :
    Ensures InBounds (fun _ => True) (decodeGeneralizedTime buf valStart valEnd) := by
  refine (ensures_slice h).bind fun _ _ => ?_
  dsimp only
  split_ifs
  · exact ensures_decodeFields
  · exact ensures_derError
  · exact ensures_derError
  · exact ensures_derError

end

-- Each wrapper lies inside the one before, and the last one holds the element `seq`.
structure Nested (buf : Bytes) (w : Wrappers) (seq : TLV) : Prop where
  contentInfo      : Tagged buf 0 buf.length TAG.SEQUENCE w.contentInfo
  whole            : w.contentInfo.valEnd = buf.length
  content          : ∃ pos, w.contentInfo.valStart < pos ∧ Tagged buf pos w.contentInfo.valEnd (CONTEXT 0) w.content
  signedData       : Tagged buf w.content.valStart w.content.valEnd TAG.SEQUENCE w.signedData
  encapContentInfo : ∃ pos, w.signedData.valStart < pos ∧
    Tagged buf pos w.signedData.valEnd TAG.SEQUENCE w.encapContentInfo
  eContent         : ∃ pos, w.encapContentInfo.valStart < pos ∧
    Tagged buf pos w.encapContentInfo.valEnd (CONTEXT 0) w.eContent
  octet            : Tagged buf w.eContent.valStart w.eContent.valEnd TAG.OCTET_STRING w.octet
  tstInfo          : Tagged buf w.octet.valStart w.octet.valEnd TAG.SEQUENCE seq

-- The explicit wrappers and the octet string hold one element, with no bytes after it.
structure Single (w : Wrappers) (seq : TLV) : Prop where
  content  : w.signedData.valEnd = w.content.valEnd
  eContent : w.octet.valEnd = w.eContent.valEnd
  octet    : seq.valEnd = w.octet.valEnd

-- The wrappers of a buffer and the element in them, as the parser reaches them.
structure Reached (buf : Bytes) (w : Wrappers) (seq : TLV) : Prop where
  wrappers : reachTSTInfo buf = .ok w
  tstInfo  : readTLV buf w.octet.valStart w.octet.valEnd = .ok seq

-- What is asked of the parser on a buffer.
structure Strict (buf : Bytes) : Prop where
  inBounds : parseTimeStampToken buf ≠ .error .overRead
  nested   : ∀ info, parseTimeStampToken buf = .ok info →
    ∃ w seq, Reached buf w seq ∧ Nested buf w seq ∧ Single w seq

-- In a token which is accepted, no bytes follow the signed data, the octet string and the contents
-- inside their wrappers.
def NoTrailingBytes (buf : Bytes) : Prop :=
  ∀ info w seq, parseTimeStampToken buf = .ok info → Reached buf w seq → Single w seq

section

variable {buf : Bytes} {w : Wrappers} {seq : TLV} {info : TSTInfo}

theorem Element.next_le {pos limit : ℕ} {t : TLV} (h : Element buf pos limit t) (hl : limit ≤ buf.length) :
    t.next ≤ limit ∧ t.valEnd ≤ buf.length ∧ pos < t.valEnd := by
  have ⟨_, _, hs, ho, hw⟩ := h
  exact ⟨hw, by omega, by omega⟩

-- The wrappers without the contents of the last one.
theorem ensures_reachTSTInfo : Ensures InBounds
    (fun w => w.octet.valEnd ≤ buf.length ∧
      ∀ seq, Tagged buf w.octet.valStart w.octet.valEnd TAG.SEQUENCE seq → Nested buf w seq)
    (reachTSTInfo buf) := by
  refine (ensures_expectTLV (le_refl _)).bind fun ci hci => ensures_throwIf.bind fun _ hall => ?_
  have hall : ci.valEnd = buf.length := not_not.mp hall
  refine (ensures_expectTLV hall.le).bind fun ct hct => ?_
  have ⟨_, hct₁, _⟩ := hct.next_le hall.le
  refine (ensures_decodeOID hct₁).bind fun _ _ => ensures_throwIf.bind fun _ _ => ?_
  refine (ensures_expectTLV hall.le).bind fun content hc => ?_
  have ⟨_, hc₁, _⟩ := hc.next_le hall.le
  refine (ensures_expectTLV hc₁).bind fun sd hsd => ?_
  have ⟨_, hsd₁, _⟩ := hsd.next_le hc₁
  refine (ensures_expectTLV hsd₁).bind fun sdVer hv => ?_
  have ⟨_, _, hv₁⟩ := hv.next_le hsd₁
  refine (ensures_expectTLV hsd₁).bind fun digestAlgs hd => ?_
  have ⟨_, _, hd₁⟩ := hd.next_le hsd₁
  refine (ensures_expectTLV hsd₁).bind fun enc he => ?_
  have ⟨_, he₁, _⟩ := he.next_le hsd₁
  refine (ensures_expectTLV he₁).bind fun eContentType het => ?_
  have ⟨_, het₁, het₂⟩ := het.next_le he₁
  refine (ensures_decodeOID het₁).bind fun _ _ => ensures_throwIf.bind fun _ _ => ?_
  refine (ensures_expectTLV he₁).bind fun eContent hec => ?_
  have ⟨_, hec₁, _⟩ := hec.next_le he₁
  refine (ensures_expectTLV hec₁).bind fun octet ho => ?_
  have ⟨_, ho₁, _⟩ := ho.next_le hec₁
  refine ensures_pure ⟨ho₁, fun seq hseq => ?_⟩
  have := hct.next_le hall.le |>.right.right
  exact ⟨hci, hall, ⟨_, this, hc⟩, hsd, ⟨_, hv₁.trans hd₁, he⟩, ⟨_, het₂, hec⟩, ho, hseq⟩

theorem ensures_parseFields (h : seq.valEnd ≤ buf.length) :
    Ensures InBounds (fun _ => True) (parseFields buf seq) := by
  refine (ensures_expectTLV h).bind fun ver hv => ?_
  have ⟨_, hv₁, _⟩ := hv.next_le h
  refine (ensures_decodeUInt hv₁).bind fun _ _ => ensures_throwIf.bind fun _ _ => ?_
  refine (ensures_expectTLV h).bind fun pol hp => ?_
  have ⟨_, hp₁, _⟩ := hp.next_le h
  refine (ensures_decodeOID hp₁).bind fun _ _ => ?_
  refine (ensures_expectTLV h).bind fun mi hm => ?_
  have ⟨_, hm₁, _⟩ := hm.next_le h
  refine (ensures_expectTLV hm₁).bind fun alg ha => ?_
  have ⟨_, ha₁, _⟩ := ha.next_le hm₁
  refine (ensures_expectTLV ha₁).bind fun algOid hao => ?_
  have ⟨_, hao₁, _⟩ := hao.next_le ha₁
  refine (ensures_decodeOID hao₁).bind fun _ _ => ?_
  refine (ensures_expectTLV hm₁).bind fun hm hh => ?_
  have ⟨_, hh₁, _⟩ := hh.next_le hm₁
  refine (ensures_slice hh₁).bind fun _ _ => ?_
  refine (ensures_expectTLV h).bind fun ser hs => ?_
  have ⟨_, hs₁, _⟩ := hs.next_le h
  refine (ensures_decodeUInt hs₁).bind fun _ _ => ?_
  refine (ensures_expectTLV h).bind fun gt hg => ?_
  have ⟨_, hg₁, _⟩ := hg.next_le h
  exact (ensures_decodeGeneralizedTime hg₁).bind fun _ _ => trivial

theorem readTLV_of_expectTLV {pos limit : ℕ} {wantTag : UInt8} {what : String} {t : TLV}
    (h : expectTLV buf pos limit wantTag what = .ok t) : readTLV buf pos limit = .ok t := by
  simp only [expectTLV, bind_eq_ok, pure_eq_ok] at h
  obtain ⟨_, h, _, _, rfl⟩ := h
  exact h

-- What holds of every token which is accepted.
theorem ensures_parseTimeStampToken :
    Ensures InBounds (fun _ => ∃ w seq, Reached buf w seq ∧ Nested buf w seq) (parseTimeStampToken buf) := by
  refine ensures_throwIf.bind fun _ _ => ensures_reachTSTInfo.with_eq.bind fun w hw => ?_
  obtain ⟨hr, hl, hn⟩ := hw
  refine (ensures_expectTLV hl).with_eq.bind fun seq hs => ?_
  obtain ⟨hx, hs⟩ := hs
  have ⟨_, hs₁, _⟩ := hs.next_le hl
  exact (ensures_parseFields hs₁).mono fun _ _ => ⟨w, seq, ⟨hr, readTLV_of_expectTLV hx⟩, hn seq hs⟩

-- The parser never reads beyond the buffer, and the wrappers of a token which is accepted have definite
-- lengths and lie inside one another. It is strict about a buffer if and only if the buffer is not a token
-- with bytes after the one element of an explicit wrapper, or of the octet string: only the outermost
-- sequence is tested for bytes after it.
theorem parseTimeStampToken_strict_iff : Strict buf ↔ NoTrailingBytes buf := by
  constructor
  case mp =>
    intro h info w seq hp ⟨hw, hs⟩
    obtain ⟨w', seq', ⟨hw', hs'⟩, _, h₁⟩ := h.nested info hp
    obtain rfl : w = w' := Except.ok.inj <| hw.symm.trans hw'
    obtain rfl : seq = seq' := Except.ok.inj <| hs.symm.trans hs'
    exact h₁
  case mpr =>
    intro h
    refine ⟨fun he => ensures_parseTimeStampToken.of_error he rfl, fun info hp => ?_⟩
    obtain ⟨w, seq, hr, hn⟩ := ensures_parseTimeStampToken.of_ok hp
    exact ⟨w, seq, hr, hn, h info w seq hp hr⟩

end

-- A token with a byte after the contents in the octet string.
def padded : Bytes := [
  0x30, 0x50, 0x06, 0x09, 0x2a, 0x86, 0x48, 0x86, 0xf7, 0x0d, 0x01, 0x07, 0x02, 0xa0, 0x43, 0x30, 0x41, 0x02, 0x01,
  0x03, 0x31, 0x00, 0x30, 0x3a, 0x06, 0x0b, 0x2a, 0x86, 0x48, 0x86, 0xf7, 0x0d, 0x01, 0x09, 0x10, 0x01, 0x04, 0xa0,
  0x2b, 0x04, 0x29, 0x30, 0x26, 0x02, 0x01, 0x01, 0x06, 0x02, 0x2a, 0x03, 0x30, 0x09, 0x30, 0x04, 0x06, 0x02, 0x2a,
  0x03, 0x04, 0x01, 0x00, 0x02, 0x01, 0x07, 0x18, 0x0f, 0x32, 0x30, 0x32, 0x36, 0x30, 0x31, 0x33, 0x31, 0x31, 0x32,
  0x30, 0x30, 0x30, 0x30, 0x5a, 0x00
]

-- It is accepted.
theorem not_strict : ¬ ∀ buf, Strict buf := by
  intro h
  have hp : parseTimeStampToken padded = .ok {
    version        := .finite 1
    policyOID      := js "1.2.3"
    messageImprint := ⟨js "1.2.3", js "00"⟩
    serialNumber   := ⟨js "07", 7⟩
    genTime        := js "2026-01-31T12:00:00Z"
    genTimeEpochMs := 1769860800000
  } := by decide +kernel
  obtain ⟨w, seq, ⟨hw, hs⟩, _, h₁⟩ := (h padded).nested _ hp
  have hw' : reachTSTInfo padded = .ok {
    contentInfo      := ⟨TAG.SEQUENCE, 2, 82⟩
    content          := ⟨CONTEXT 0, 15, 82⟩
    signedData       := ⟨TAG.SEQUENCE, 17, 82⟩
    encapContentInfo := ⟨TAG.SEQUENCE, 24, 82⟩
    eContent         := ⟨CONTEXT 0, 39, 82⟩
    octet            := ⟨TAG.OCTET_STRING, 41, 82⟩
  } := by decide +kernel
  obtain rfl := Except.ok.inj <| hw'.symm.trans hw
  have hs' : readTLV padded 41 82 = .ok ⟨TAG.SEQUENCE, 43, 81⟩ := by decide +kernel
  obtain rfl := Except.ok.inj <| hs'.symm.trans hs
  exact absurd h₁.octet (by decide)

end Rfc3161

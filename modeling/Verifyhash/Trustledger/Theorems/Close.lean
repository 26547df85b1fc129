import Verifyhash.Library.Fallible
import Verifyhash.Library.Hashing
import Verifyhash.Trustledger.Close

namespace PeriodClose

open Value Json Fallible

-- The fields of a close which its digest covers.
def covered (obj : Value) : List Value := [
  obj.get "schemaVersion",
  obj.get "period",
  obj.get "reportDate",
  (obj.get "opening").get "bank",
  (obj.get "opening").get "book",
  (obj.get "ending").get "bank",
  (obj.get "ending").get "book",
  obj.get "subledger",
  obj.get "tiesOut",
  obj.get "pass",
  (obj.get "inputs").get "bankRecords",
  (obj.get "inputs").get "bookRecords",
  (obj.get "inputs").get "rentrollRecords"
]

-- The shape of a close, apart from its digest.
structure HasShape (obj : Value) : Prop where
  isObject      : obj.isObject
  schemaVersion : obj.get "schemaVersion" = string SCHEMA_VERSION
  period        : obj.has "period" ∧ (obj.get "period" = null ∨ ∃ s, obj.get "period" = string s)
  reportDate    : ∃ text, dateText (obj.get "reportDate") = some text ∧ fits "dddd-dd-dd" text
  opening       : isBalancePair (obj.get "opening")
  ending        : isBalancePair (obj.get "ending")
  subledger     : isCents (obj.get "subledger")
  tiesOut       : ∃ b, obj.get "tiesOut" = bool b
  pass          : ∃ b, obj.get "pass" = bool b
  inputs        : (obj.get "inputs").isObject
  counts        : ∀ key ∈ ["bankRecords", "bookRecords", "rentrollRecords"], isCount ((obj.get "inputs").get key)

-- A close with the digest of another one, from which it differs in what the digest covers.
structure Edits (obj close : Value) : Prop where
  covered      : covered obj ≠ PeriodClose.covered close
  inputsDigest : obj.get "inputsDigest" = close.get "inputsDigest"

theorem firstFailure_eq_ok : firstFailure checks = .ok () ↔ ∀ c ∈ checks, c.fst := by
  rw [firstFailure]
  cases h : checks.find? (!·.fst)
  case none =>
    rw [List.find?_eq_none] at h
    simpa using h
  case some c =>
    have hm := List.mem_of_find?_eq_some h
    have hc := List.find?_some h
    simp only [reduceCtorEq, false_iff, not_forall]
    exact ⟨c, hm, by simpa using hc⟩

theorem dateCheck_fst : (dateCheck v message).fst ↔ ∃ text, dateText v = some text ∧ fits "dddd-dd-dd" text := by
  rw [dateCheck]
  cases dateText v <;> simp

theorem has_of_isBalancePair {obj : Value} (h : isBalancePair (obj.get key)) : obj.has key :=
  has_of_get fun hu => by simp [hu, isBalancePair, Value.isObject] at h

theorem has_of_isCents {obj : Value} (h : isCents (obj.get key)) : obj.has key :=
  has_of_get fun hu => by simp [hu, isCents, toInt?] at h

theorem isNull_or_toString? {v : Value} :
    (v.isNull || v.toString?.isSome) ↔ v = null ∨ ∃ s, v = string s := by
  rw [Bool.or_eq_true, isNull_iff, Option.isSome_iff_exists]
  simp only [toString?_eq_some]

-- A close is accepted exactly if it has its shape and its digest has the form of a digest.
theorem validateClose_eq_ok : validateClose obj = .ok v ↔
    v = obj ∧ HasShape obj ∧ ∃ digest, obj.get "inputsDigest" = string digest ∧ isDigest digest := by
  have hb {key} : (obj.get key).toBool?.isSome ↔ ∃ b, obj.get key = bool b := by
    rw [Option.isSome_iff_exists]
    simp only [toBool?_eq_some]
  have hd : (obj.get "inputsDigest").toString?.any isDigest ↔
      ∃ digest, obj.get "inputsDigest" = string digest ∧ isDigest digest := by
    simp only [Option.any_eq_true, toString?_eq_some]
  have hs : ((obj.get "schemaVersion").toString? == some SCHEMA_VERSION) ↔
      obj.get "schemaVersion" = string SCHEMA_VERSION := by
    rw [beq_iff_eq, toString?_eq_some]
  have hc : firstFailure (closeChecks obj) = .ok () ↔
      HasShape obj ∧ ∃ digest, obj.get "inputsDigest" = string digest ∧ isDigest digest := by
    simp only [firstFailure_eq_ok, closeChecks, List.forall_mem_cons, List.not_mem_nil, false_imp_iff,
      implies_true, and_true, dateCheck_fst, isNull_or_toString?, hb, hd, hs]
    constructor
    · rintro ⟨ho, hs, hp, hp', hr, -, hop, -, he, -, hl, ht, hpa, hi, h₁, h₂, h₃, hd⟩
      exact ⟨⟨ho, hs, ⟨hp, hp'⟩, hr, hop, he, hl, ht, hpa, hi, by simp [h₁, h₂, h₃]⟩, hd⟩
    · rintro ⟨s, hd⟩
      have hk := s.counts
      simp only [List.forall_mem_cons, List.not_mem_nil, false_imp_iff, implies_true, and_true] at hk
      exact ⟨s.isObject, s.schemaVersion, s.period.left, s.period.right, s.reportDate, has_of_isBalancePair s.opening,
        s.opening, has_of_isBalancePair s.ending, s.ending, has_of_isCents s.subledger, s.subledger, s.tiesOut,
        s.pass, s.inputs, hk.left, hk.right.left, hk.right.right, hd⟩
  rw [validateClose, bind_eq_ok]
  constructor
  · rintro ⟨_, h, ⟨rfl⟩⟩
    exact ⟨rfl, hc.mp h⟩
  · rintro ⟨rfl, h⟩
    exact ⟨(), hc.mpr h, rfl⟩

theorem digest_of_buildClose (h : buildClose model = .ok close) :
    ∃ digest, close.get "inputsDigest" = string digest ∧ isDigest digest := by
  simp only [buildClose, bind_eq_ok] at h
  obtain ⟨_, -, _, -, _, -, h⟩ := h
  obtain ⟨rfl, _, hd⟩ := validateClose_eq_ok.mp h
  exact hd

section

variable {syntaxError : JsString → JsString}

-- What is read is a close object itself, or a text of it.
inductive Reads (obj : Value) : Value → Prop
  | object : obj.isObject → Reads obj obj
  | text   : parse text = some obj → Reads obj (string text)

theorem Reads.readClose (h : Reads obj input) : readClose syntaxError input = validateClose obj := by
  cases h
  case object h =>
    obtain ⟨_, rfl⟩ := isObject_iff.mp h
    rfl
  case text h => rw [PeriodClose.readClose, h]

theorem Reads.not_nullish (h : Reads obj input) : input.isNullish = false := by
  cases h
  case object h =>
    obtain ⟨_, rfl⟩ := isObject_iff.mp h
    rfl
  case text => rfl

theorem gap_self (a : ℤ) : gap a a = .finite 0 := by
  simp [gap, ofRational_of_some Double.round_zero]

-- A close which is accepted is in continuity with its own ending balances.
theorem checkContinuity_ending (hi : Reads obj input) (h : validateClose obj = .ok obj) (s : HasShape obj) :
    ∃ r, checkContinuity syntaxError input (obj.get "ending") = .ok r ∧ r.ok := by
  obtain ⟨-, ha, hb⟩ := of_decide_eq_true s.ending
  obtain ⟨a, ha⟩ := Option.isSome_iff_exists.mp ha
  obtain ⟨b, hb⟩ := Option.isSome_iff_exists.mp hb
  simp [checkContinuity, hi.not_nullish, hi.readClose, h, ha, hb, gap_self]

-- An edited close is rejected exactly if some field has lost its shape: the digest is never computed
-- again from what was read.
theorem readClose_rejects_iff (hb : buildClose model = .ok close) (he : Edits obj close) (hi : Reads obj input) :
    ((∃ e, readClose syntaxError input = .error e) ∧
      ∀ opening r, checkContinuity syntaxError input opening = .ok r → ¬ r.ok) ↔ ¬ HasShape obj := by
  have hd := he.inputsDigest ▸ digest_of_buildClose hb
  constructor
  case mp =>
    rintro ⟨⟨e, h⟩, -⟩ s
    rw [hi.readClose, validateClose_eq_ok.mpr ⟨rfl, s, hd⟩] at h
    simp at h
  case mpr =>
    intro hs
    cases h : validateClose obj
    case ok =>
      obtain ⟨-, s, -⟩ := validateClose_eq_ok.mp h
      exact absurd s hs
    case error e =>
      refine ⟨⟨e, hi.readClose.trans h⟩, fun opening r hr => ?_⟩
      rw [checkContinuity, hi.not_nullish, hi.readClose, h] at hr
      simp at hr

end

-- The close of a month, and the same close with another ending balance.
def june : Value :=
  object [
    (js "reportDate", string <| js "2026-06-30"),
    (js "balances", object [(js "bank", nat 1234567), (js "book", nat 1234567), (js "subledger", nat 1234567)]),
    (js "tiesOut", bool true)
  ]

def juneClose : Value :=
  (buildClose june).toOption.getD null

def editedText : JsString :=
  js "\x7b\"schemaVersion\":\"trustledger.period-close/v1\",\"period\":null,\"reportDate\":\"2026-06-30\"," ++
  js "\"opening\":\x7b\"bank\":0,\"book\":0\x7d,\"ending\":\x7b\"bank\":1,\"book\":1\x7d," ++
  js "\"subledger\":1234567,\"tiesOut\":true,\"pass\":true,\"inputs\":\x7b\"bankRecords\":0," ++
  js "\"bookRecords\":0,\"rentrollRecords\":0\x7d,\"inputsDigest\":" ++
  quote ((juneClose.get "inputsDigest").toString?.getD []) ++ js "\x7d"

def editedClose : Value :=
  (parse editedText).getD null

-- The text which is hashed for the close, and its digest, so that they are computed once.
def juneText : JsString :=
  js "\x7b\"schemaVersion\":\"trustledger.period-close/v1\",\"period\":null,\"reportDate\":\"2026-06-30\"," ++
  js "\"opening\":\x7b\"bank\":0,\"book\":0\x7d,\"ending\":\x7b\"bank\":1234567,\"book\":1234567\x7d," ++
  js "\"subledger\":1234567,\"tiesOut\":true,\"pass\":true,\"inputs\":\x7b\"bankRecords\":0," ++
  js "\"bookRecords\":0,\"rentrollRecords\":0\x7d\x7d"

def juneDigest : JsString :=
  js "d1963f61f215d9766bcbf14465a99e4d7a9c0ac32730bb7b0d3b3376502a215f"

-- The text which would be hashed for the edited close.
def editedInputs : JsString :=
  js "\x7b\"schemaVersion\":\"trustledger.period-close/v1\",\"period\":null,\"reportDate\":\"2026-06-30\"," ++
  js "\"opening\":\x7b\"bank\":0,\"book\":0\x7d,\"ending\":\x7b\"bank\":1,\"book\":1\x7d," ++
  js "\"subledger\":1234567,\"tiesOut\":true,\"pass\":true,\"inputs\":\x7b\"bankRecords\":0," ++
  js "\"bookRecords\":0,\"rentrollRecords\":0\x7d\x7d"

-- The fields of the closes which their digests cover.
def juneParts (ending : ℕ) : List (JsString × Value) := [
  (js "period", null),
  (js "reportDate", string <| js "2026-06-30"),
  (js "opening", object [(js "bank", nat 0), (js "book", nat 0)]),
  (js "ending", object [(js "bank", nat ending), (js "book", nat ending)]),
  (js "subledger", nat 1234567),
  (js "tiesOut", bool true),
  (js "pass", bool true),
  (js "inputs", object [(js "bankRecords", nat 0), (js "bookRecords", nat 0), (js "rentrollRecords", nat 0)])
]

def juneWith (ending : ℕ) (digest : JsString) : Value :=
  object <| (js "schemaVersion", string SCHEMA_VERSION) :: juneParts ending ++ [(js "inputsDigest", string digest)]

-- The values which are computed for the closes.
structure JuneValues : Prop where
  partsText  : (stringify <| canonicalInputs <| object <| juneParts 1234567).getD [] = juneText
  closeText  : (stringify <| canonicalInputs <| juneWith 1234567 juneDigest).getD [] = juneText
  editedText : (stringify <| canonicalInputs <| juneWith 1 juneDigest).getD [] = editedInputs
  checks     : ∀ ending ∈ [1, 1234567], ∀ c ∈ closeChecks (juneWith ending juneDigest), c.fst
  endings    : (covered <| juneWith 1 juneDigest)[5]?.bind toInt? ≠
    (covered <| juneWith 1234567 juneDigest)[5]?.bind toInt?
  keys       : (["schemaVersion", "period", "reportDate", "opening", "ending", "subledger", "tiesOut", "pass", "inputs",
    "inputsDigest"].map js).Nodup ∧ [js "bank", js "book"].Nodup ∧
      [js "bankRecords", js "bookRecords", js "rentrollRecords"].Nodup
  digest     : Sha256.sha256HexUtf8 juneText = juneDigest
  differs    : Sha256.sha256HexUtf8 editedInputs ≠ juneDigest
  rendered   : render (juneWith 1 juneDigest) =
    js "\x7b\"schemaVersion\":\"trustledger.period-close/v1\",\"period\":null,\"reportDate\":\"2026-06-30\"," ++
    js "\"opening\":\x7b\"bank\":0,\"book\":0\x7d,\"ending\":\x7b\"bank\":1,\"book\":1\x7d," ++
    js "\"subledger\":1234567,\"tiesOut\":true,\"pass\":true,\"inputs\":\x7b\"bankRecords\":0," ++
    js "\"bookRecords\":0,\"rentrollRecords\":0\x7d,\"inputsDigest\":" ++ quote juneDigest ++ js "\x7d"

theorem juneValues : JuneValues := by
  constructor
  all_goals decide +kernel

theorem validateClose_juneWith (h : ending ∈ [1, 1234567]) :
    validateClose (juneWith ending juneDigest) = .ok (juneWith ending juneDigest) := by
  rw [validateClose, firstFailure_eq_ok.mpr <| juneValues.checks ending h]
  rfl

theorem digestInputs_june : digestInputs (object <| juneParts 1234567) = juneDigest := by
  rw [digestInputs, juneValues.partsText, juneValues.digest]

theorem buildClose_june_eq : buildClose june = .ok (juneWith 1234567 juneDigest) := by
  have h : firstFailure [
    (june.isObject, fail "buildClose requires the report packet model object"),
    dateCheck (june.get "reportDate") "model.reportDate must be a \"YYYY-MM-DD\" string",
    (isBalancePair <| june.get "balances", fail "model.balances must carry integer-cents bank/book balances"),
    (isCents <| (june.get "balances").get "subledger", fail "model.balances.subledger must be integer cents")
  ] = .ok () := rfl
  have ho : openingOf june = .ok (object [(js "bank", nat 0), (js "book", nat 0)]) := rfl
  have hp : periodOf june = .ok null := rfl
  have hb : buildClose june = validateClose (juneWith 1234567 <| digestInputs <| object <| juneParts 1234567) := by
    rw [buildClose, h, ok_bind, ho, ok_bind, hp, ok_bind]
    rfl
  rw [hb, digestInputs_june, validateClose_juneWith <| by simp]

theorem juneClose_eq : juneClose = juneWith 1234567 juneDigest := by
  rw [juneClose, buildClose_june_eq]
  rfl

theorem buildClose_june : buildClose june = .ok juneClose := by
  rw [buildClose_june_eq, juneClose_eq]

theorem plain_juneWith {ending : ℕ} {digest : JsString} (h : ending < 2 ^ 53) : Plain (juneWith ending digest) := by
  have hk := juneValues.keys
  have hn {n : ℕ} (h : n < 2 ^ 53) : Plain (nat n) := .number <| Double.isDouble_natCast h
  have hz : Plain (nat 0) := hn (by omega)
  refine .object hk.left ?_
  simp only [juneParts, List.cons_append, List.nil_append, List.forall_mem_cons, List.not_mem_nil, false_imp_iff,
    implies_true, and_true]
  refine ⟨.string, .null, .string, .object hk.right.left ?_, .object hk.right.left ?_, hn (by omega), .bool, .bool,
    .object hk.right.right ?_, .string⟩
  all_goals simp only [List.forall_mem_cons, List.not_mem_nil, false_imp_iff, implies_true, and_true]
  · exact ⟨hz, hz⟩
  · exact ⟨hn h, hn h⟩
  · exact ⟨hz, hz, hz⟩

theorem editedText_eq : editedText = render (juneWith 1 juneDigest) := by
  have hd : (juneClose.get "inputsDigest").toString?.getD [] = juneDigest := by
    rw [juneClose_eq]
    rfl
  rw [editedText, hd, juneValues.rendered]

theorem editedClose_eq : editedClose = juneWith 1 juneDigest := by
  rw [editedClose, editedText_eq, parse_render <| plain_juneWith <| by omega, Option.getD_some]

theorem reads_editedText : Reads editedClose (string editedText) :=
  .text <| by rw [editedText_eq, editedClose_eq, parse_render <| plain_juneWith <| by omega]

theorem edits_editedClose : Edits editedClose juneClose := by
  rw [editedClose_eq, juneClose_eq]
  exact ⟨fun h => juneValues.endings <| h ▸ rfl, rfl⟩

theorem readClose_rejects_iff_june :
    ((∃ e, readClose id (string editedText) = .error e) ∧
      ∀ opening r, checkContinuity id (string editedText) opening = .ok r → ¬ r.ok) ↔ ¬ HasShape editedClose :=
  readClose_rejects_iff buildClose_june edits_editedClose reads_editedText

-- The edited text is read, and the next month may open with the edited balances.
theorem readClose_edited :
    buildClose june = .ok juneClose ∧ Edits editedClose juneClose ∧ Reads editedClose (string editedText) ∧
    CollisionFree Sha256.sha256HexUtf8 [(stringify <| canonicalInputs juneClose).getD [],
      (stringify <| canonicalInputs editedClose).getD []] ∧
    (∃ obj, readClose id (string editedText) = .ok obj) ∧
    ∃ r, checkContinuity id (string editedText) (object [(js "bank", nat 1), (js "book", nat 1)]) = .ok r ∧ r.ok := by
  have hv : validateClose editedClose = .ok editedClose := by
    rw [editedClose_eq, validateClose_juneWith <| by simp]
  have hf : CollisionFree Sha256.sha256HexUtf8 [(stringify <| canonicalInputs juneClose).getD [],
      (stringify <| canonicalInputs editedClose).getD []] := by
    have hd := juneValues.differs
    rw [juneClose_eq, editedClose_eq, juneValues.closeText, juneValues.editedText]
    simp [CollisionFree, juneValues.digest, hd, hd.symm]
  refine ⟨buildClose_june, edits_editedClose, reads_editedText, hf, ⟨_, reads_editedText.readClose.trans hv⟩, ?_⟩
  have hs := (validateClose_eq_ok.mp hv).right.left
  have he : editedClose.get "ending" = object [(js "bank", nat 1), (js "book", nat 1)] := by
    rw [editedClose_eq]
    rfl
  exact he ▸ checkContinuity_ending reads_editedText hv hs

end PeriodClose

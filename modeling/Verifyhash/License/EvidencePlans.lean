import Verifyhash.Data.Words
import Verifyhash.License.Payload

-- The catalog of plans and the mapping of orders to licenses in `cli/core/evidence-plans.js`.
namespace EvidencePlans

open Value Json Checks CoreAttestation CoreLicense

def EVIDENCE_PLAN_CATALOG_KIND : JsString := js "vh-evidence-plan-catalog"

def LICENSE_KIND : JsString := js "vh-evidence-license"

def ENTITLEMENTS : List JsString := [js "evidence_signed", js "evidence_unlimited"]

theorem kind_ne_nil : LICENSE_KIND ≠ [] := by
  simp [LICENSE_KIND, js]

theorem version_supported : 1 ∈ [1] :=
  List.mem_singleton_self 1

theorem entitlements_ne_nil : ENTITLEMENTS ≠ [] := by
  simp [ENTITLEMENTS]

theorem nodup_entitlements : ENTITLEMENTS.Nodup := by
  decide

theorem isDouble_version : ∀ n ∈ [1], Double.IsDouble (n : ℕ) := by
  simpa using Double.isDouble_natCast (n := 1) (by omega)

-- The framing of the licenses in `cli/evidence.js`
def LICENSE_CFG : Cfg where
  kind                    := LICENSE_KIND
  schemaVersion           := 1
  supportedSchemaVersions := [1]
  note                    := js <|
    "This verifyhash EVIDENCE license is a SIGNED entitlement token, verified OFFLINE by re-deriving the " ++
    "signer from these exact bytes and pinning it to the evidence-product vendor key. A valid verdict " ++
    "proves the vendor signed THESE entitlements for THIS customer within [issuedAt, expiresAt]; it is an " ++
    "UNTRUSTED transport container (verifyLicense never trusts the file's own claims), it is NOT a trusted " ++
    "timestamp (issuedAt/expiresAt are self-asserted and ride the vendor key custody, STRATEGY.md P-3), " ++
    "and it is NOT the legal subscription agreement (which governs). It gates the evidence product's PAID " ++
    "surface; it never replaces the contract."
  entitlements            := ENTITLEMENTS
  named                   := kind_ne_nil
  supported               := version_supported
  nonempty                := entitlements_ne_nil
  distinct                := nodup_entitlements
  versions                := isDouble_version

def ALLOWED_ENTITLEMENT_FLAGS : List JsString :=
  entitlementFlags LICENSE_CFG

-- The string `v`, if `typeof v === "string" && v.trim() !== ""`.
def notBlank? (v : Value) : Option { s // Words.trim s ≠ [] } :=
  match v with
  | string s => if h : Words.trim s ≠ [] then some ⟨s, h⟩ else none
  | _        => none

-- A plan which is valid. A term is a double, of which every value is exact here.
structure Plan where
  planId       : JsString
  displayName  : JsString
  entitlements : List JsString
  termDays     : ℤ
  named        : Words.trim planId ≠ []
  granted      : entitlements ≠ []
  allowed      : ∀ f ∈ entitlements, f ∈ ALLOWED_ENTITLEMENT_FLAGS
  distinct     : entitlements.Nodup
  positive     : 0 < termDays

-- `Array.isArray(v)`
def isArray : Value → Bool
  | array _ => true
  | _       => false

def listText (texts : List JsString) : JsString :=
  (js ", ").intercalate texts

-- `_validatePlan`
def validatePlan (plan : Value) (index : ℕ) : Except JsString Plan := do
  let place := js "plan[" ++ natText index ++ js "]"
  require plan.isObject <| place ++ js " must be an object"
  let planId ← demand (notBlank? <| plan.get "planId") <| place ++ js ".planId must be a non-empty string"
  let subject := js "evidence plan " ++ shown (string planId.val)
  let displayName ← demand (notBlank? <| plan.get "displayName") <|
    subject ++ js " is missing a non-empty displayName"
  require (isArray <| plan.get "entitlements") <| subject ++ js " entitlements must be an array"
  match plan.get "entitlements" with
  | array (elem :: elems) =>
    let flags ← checkFlags ALLOWED_ENTITLEMENT_FLAGS
      (subject ++ js " has a non-string entitlement " ++ shown ·)
      (subject ++ js " has unknown entitlement " ++ shown · ++ js "; closed set is: " ++
        listText ALLOWED_ENTITLEMENT_FLAGS)
      (subject ++ js " has duplicate entitlement " ++ shown ·) [] (elem :: elems)
    require (plan.has "termDays") <| subject ++ js " is missing required field: termDays"
    let termDays ← demand (plan.get "termDays").toInt? <|
      subject ++ js " termDays must be an integer; got " ++ shown (plan.get "termDays")
    if positive : 0 < termDays then
      return {
        planId       := planId.val
        displayName  := displayName.val
        entitlements := sorted flags.flags
        termDays
        named        := planId.property
        granted      := flags.sorted_ne_nil
        allowed      := fun _ h => (flags.allowed _ <| mem_sorted.mp h).left
        distinct     := nodup_sorted flags.distinct
        positive
      }
    else
      throw <| subject ++ js " termDays must be a positive integer; got " ++ shown (plan.get "termDays")
  | _                     => throw <| subject ++ js " entitlements must be a non-empty array"

-- The plans of the elements of an array, after those whose names have been seen.
structure Plans (seen : List JsString) (elems : List Value) where
  plans    : List Plan
  length   : plans.length = elems.length
  fresh    : ∀ p ∈ plans, p.planId ∉ seen
  distinct : (plans.map (·.planId)).Nodup

theorem fresh_nil (seen : List JsString) : ∀ p ∈ ([] : List Plan), p.planId ∉ seen :=
  List.forall_mem_nil _

theorem distinct_nil : (([] : List Plan).map (·.planId)).Nodup :=
  .nil

def Plans.nil : Plans seen [] where
  plans    := []
  length   := rfl
  fresh    := fresh_nil seen
  distinct := distinct_nil

def Plans.cons {plan : Plan} (ps : Plans (plan.planId :: seen) elems) (hs : plan.planId ∉ seen) :
    Plans seen (elem :: elems) where
  plans    := plan :: ps.plans
  length   := congrArg (· + 1) ps.length
  fresh    := by
    rintro p (_ | ⟨_, hp⟩)
    · exact hs
    · exact fun h => ps.fresh p hp <| .tail _ h
  distinct := by
    refine List.nodup_cons.mpr ⟨fun h => ?_, ps.distinct⟩
    obtain ⟨p, hp, h⟩ := List.mem_map.mp h
    exact ps.fresh p hp <| h ▸ .head _

def sortById (plans : List Plan) : List Plan :=
  plans.insertionSort fun p q => p.planId ≤ q.planId

theorem Plans.sortById_ne_nil (ps : Plans seen (elem :: elems)) : sortById ps.plans ≠ [] := by
  intro h
  have hp := (List.perm_insertionSort (fun p q : Plan => p.planId ≤ q.planId) ps.plans).length_eq
  rw [sortById] at h
  rw [h, ps.length] at hp
  cases hp

theorem Plans.nodup_sortById (ps : Plans seen elems) : ((sortById ps.plans).map (·.planId)).Nodup :=
  ((List.perm_insertionSort _ ps.plans).map _).nodup_iff.mpr ps.distinct

def plansFrom (index : ℕ) (seen : List JsString) : (elems : List Value) → Except JsString (Plans seen elems)
  | []            => .ok .nil
  | elem :: elems => do
    let plan ← validatePlan elem index
    if hs : plan.planId ∈ seen then
      throw <| js "evidence plan catalog has duplicate planId " ++ shown (string plan.planId)
    else
      return (← plansFrom (index + 1) (plan.planId :: seen) elems).cons hs

-- A catalog which is valid. Its fields `kind` and `schemaVersion` are constant, and the map `plansById` is
-- given by the plans.
structure Catalog where
  plans    : List Plan
  nonempty : plans ≠ []
  distinct : (plans.map (·.planId)).Nodup

-- `Object.keys(catalog.plansById).sort().join(", ")`
def Catalog.known (catalog : Catalog) : JsString :=
  listText <| sorted <| catalog.plans.map (·.planId)

-- `catalog.plansById[planId]`
def Catalog.find? (catalog : Catalog) (planId : JsString) : Option Plan :=
  catalog.plans.find? (·.planId = planId)

def validateEvidencePlanCatalog (obj : Value) : Except JsString Catalog := do
  require obj.isObject <| js "evidence plan catalog must be a JSON object"
  require ((obj.get "kind").toString? = some EVIDENCE_PLAN_CATALOG_KIND) <|
    js "evidence plan catalog has wrong kind " ++ shown (obj.get "kind") ++ js "; expected " ++
      shown (string EVIDENCE_PLAN_CATALOG_KIND)
  require (obj.has "schemaVersion") <| js "evidence plan catalog is missing required field: schemaVersion"
  require (supports [1] <| obj.get "schemaVersion") <|
    js "unsupported evidence plan catalog schemaVersion " ++ shown (obj.get "schemaVersion") ++
      js "; this build understands: 1"
  require (obj.has "plans") <| js "evidence plan catalog is missing required field: plans"
  require (isArray <| obj.get "plans") <| js "evidence plan catalog plans must be an array"
  match obj.get "plans" with
  | array (elem :: elems) =>
    let plans ← plansFrom 0 [] (elem :: elems)
    return {
      plans    := sortById plans.plans
      nonempty := plans.sortById_ne_nil
      distinct := plans.nodup_sortById
    }
  | _                     => throw <| js "evidence plan catalog plans must be a non-empty array"

-- What is thrown: the named error, or any other one, which the caller does not expect.
inductive Thrown
  | named (message : JsString)
  | other
  deriving DecidableEq

-- A message which cannot be formed is another error.
def raise (message : Option JsString) : Except Thrown α :=
  .error <| message.elim .other .named

def requireCanonicalInstant (field : String) (value : Value) : Except Thrown CanonicalInstant :=
  match value.toString?.filter Instant.isInstant with
  | none      => raise <| value.toText.map fun text =>
    js "order " ++ js field ++ js " must be an ISO-8601 UTC instant (\"YYYY-MM-DDTHH:MM:SS(.mmm)Z\"), got: " ++ text
  | some text =>
    match canonical : Instant.canonical? text with
    | some ms => .ok { text, ms, canonical }
    | none    => raise <| js "order " ++ js field ++ js (" must be a canonical ISO-8601 UTC instant " ++
        "(\"YYYY-MM-DDTHH:MM:SS.mmmZ\", millis required, no rolled-over/impossible fields), got: ") ++ text

def resolvePlan (catalog : Catalog) (planId : Value) : Except Thrown Plan :=
  match notBlank? planId with
  | none        => raise <| js "order `plan` must be a non-empty planId string"
  | some planId =>
    match catalog.find? planId.val with
    | some plan => .ok plan
    | none      => raise <| js "unknown plan " ++ shown (string planId.val) ++ js "; known plans are: " ++ catalog.known

-- The last time of a `Date`, and the first one but for the sign.
def MAX_TIME : ℤ := 8640000000000000

def DAY_MS : ℤ := 86400000

-- `new Date(ms).toISOString()`
def dateText (ms : ℤ) : Except Thrown JsString :=
  if -MAX_TIME ≤ ms ∧ ms ≤ MAX_TIME then .ok <| Instant.toISOString ms else .error .other

-- The sum is only rounded where there is no such date.
def expiry (order : Value) (plan : Plan) (issuedAt : CanonicalInstant) : Except Thrown JsString :=
  if (order.get "paidThrough").isNullish then
    dateText <| issuedAt.ms + plan.termDays * DAY_MS
  else do
    let paidThrough ← requireCanonicalInstant "paidThrough" <| order.get "paidThrough"
    if paidThrough.ms ≤ issuedAt.ms then
      raise <| js "order paidThrough (" ++ paidThrough.text ++ js ") must be strictly AFTER issuedAt (" ++
        issuedAt.text ++ js ")"
    else
      return paidThrough.text

structure Params where
  licenseId    : Value
  customer     : JsString
  plan         : JsString
  entitlements : List JsString
  issuedAt     : JsString
  expiresAt    : JsString

def Params.toValue (p : Params) : Value :=
  object [
    (js "licenseId", p.licenseId),
    (js "customer", string p.customer),
    (js "plan", string p.plan),
    (js "entitlements", ofStrings p.entitlements),
    (js "issuedAt", string p.issuedAt),
    (js "expiresAt", string p.expiresAt)
  ]

-- `order.licenseId != null && order.licenseId !== ""`
def hasLicenseId (order : Value) : Bool :=
  ¬ (order.get "licenseId").isNullish ∧ (order.get "licenseId").toString? ≠ some []

def fulfillEvidenceOrder (order : Value) (catalog : Catalog) : Except Thrown Params :=
  if ¬ order.isObject then
    raise <| js <| "fulfillEvidenceOrder requires an order object " ++
      "\x7b plan, customer, issuedAt, paidThrough?, licenseId? \x7d"
  else do
    let plan ← resolvePlan catalog <| order.get "plan"
    match (order.get "customer").toString?.filter (· ≠ []) with
    | none          => raise <| js "order `customer` must be a non-empty string"
    | some customer =>
      let issuedAt ← requireCanonicalInstant "issuedAt" <| order.get "issuedAt"
      let expiresAt ← expiry order plan issuedAt
      let licenseId :=
        if hasLicenseId order then order.get "licenseId"
        else string <| js "LIC-" ++ issuedAt.text ++ js "-" ++ plan.planId
      return {
        licenseId
        customer
        plan         := plan.planId
        entitlements := plan.entitlements
        issuedAt     := issuedAt.text
        expiresAt
      }

end EvidencePlans

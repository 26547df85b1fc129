import Verifyhash.License.EvidencePlans

-- The binding of prices to plans, and the orders of events, in `cli/core/fulfill-intake.js`.
namespace PriceBinding

open Value Json Checks CoreAttestation CoreLicense EvidencePlans

def EVIDENCE_PRICE_BINDING_KIND : JsString := js "vh-evidence-price-binding"

def MAX_EPOCH_SECONDS : ℤ := 8640000000000

def BINDING_KEY_SEP : UInt16 := 0

def bindingKey (provider priceId : JsString) : JsString :=
  provider ++ BINDING_KEY_SEP :: priceId

structure Mapping (catalog : Catalog) where
  provider : JsString
  priceId  : JsString
  planId   : JsString
  separate : BINDING_KEY_SEP ∉ provider ∧ BINDING_KEY_SEP ∉ priceId
  bound    : (catalog.find? planId).isSome

section

variable {catalog : Catalog}

def Mapping.key (m : Mapping catalog) : JsString :=
  bindingKey m.provider m.priceId

def validateEvidenceMapping (mapping : Value) (index : ℕ) (catalog : Catalog) :
    Except JsString (Mapping catalog) := do
  let place := js "mapping[" ++ natText index ++ js "]"
  require mapping.isObject <| place ++ js " must be an object"
  let provider ← demand (notBlank? <| mapping.get "provider") <|
    place ++ js ".provider must be a non-empty string"
  if hp : BINDING_KEY_SEP ∈ provider.val then
    throw <| place ++ js ".provider must not contain a NUL character"
  else
    let ofProvider := place ++ js " (provider " ++ shown (string provider.val)
    let priceId ← demand (notBlank? <| mapping.get "priceId") <|
      ofProvider ++ js ") priceId must be a non-empty string"
    if hq : BINDING_KEY_SEP ∈ priceId.val then
      throw <| ofProvider ++ js ") priceId must not contain a NUL character"
    else
      let ofPrice := ofProvider ++ js ", priceId " ++ shown (string priceId.val) ++ js ") "
      let planId ← demand (notBlank? <| mapping.get "planId") <| ofPrice ++ js "planId must be a non-empty string"
      if bound : (catalog.find? planId.val).isSome then
        return {
          provider := provider.val
          priceId  := priceId.val
          planId   := planId.val
          separate := ⟨hp, hq⟩
          bound
        }
      else
        throw <| ofPrice ++ js "points at planId " ++ shown (string planId.val) ++
          js " which is NOT in the supplied evidence catalog; known plans are: " ++ catalog.known

-- The mappings of the elements of an array, after those whose keys have been seen.
structure Mappings (catalog : Catalog) (seen : List JsString) where
  mappings : List (Mapping catalog)
  fresh    : ∀ m ∈ mappings, m.key ∉ seen
  distinct : (mappings.map (·.key)).Nodup

theorem fresh_nil (catalog : Catalog) (seen : List JsString) : ∀ m ∈ ([] : List (Mapping catalog)), m.key ∉ seen :=
  List.forall_mem_nil _

theorem distinct_nil (catalog : Catalog) : (([] : List (Mapping catalog)).map (·.key)).Nodup :=
  .nil

def Mappings.nil : Mappings catalog seen where
  mappings := []
  fresh    := fresh_nil catalog seen
  distinct := distinct_nil catalog

def Mappings.cons {mapping : Mapping catalog} (ms : Mappings catalog (mapping.key :: seen))
    (hs : mapping.key ∉ seen) : Mappings catalog seen where
  mappings := mapping :: ms.mappings
  fresh    := by
    rintro m (_ | ⟨_, hm⟩)
    · exact hs
    · exact fun h => ms.fresh m hm <| .tail _ h
  distinct := by
    refine List.nodup_cons.mpr ⟨fun h => ?_, ms.distinct⟩
    obtain ⟨m, hm, h⟩ := List.mem_map.mp h
    exact ms.fresh m hm <| h ▸ .head _

def mappingsFrom (catalog : Catalog) (index : ℕ) (seen : List JsString) :
    List Value → Except JsString (Mappings catalog seen)
  | []            => .ok .nil
  | elem :: elems => do
    let mapping ← validateEvidenceMapping elem index catalog
    if hs : mapping.key ∈ seen then
      throw <| js "evidence price binding has duplicate (provider, priceId) (" ++
        shown (string mapping.provider) ++ js ", " ++ shown (string mapping.priceId) ++ js ")"
    else
      return (← mappingsFrom catalog (index + 1) (mapping.key :: seen) elems).cons hs

-- A binding which is valid. Its index `_byKey` is given by the mappings.
structure Binding (catalog : Catalog) where
  mappings : List (Mapping catalog)
  distinct : (mappings.map (·.key)).Nodup

def sortByKey (mappings : List (Mapping catalog)) : List (Mapping catalog) :=
  mappings.insertionSort fun m n => m.key ≤ n.key

theorem Mappings.nodup_sortByKey (ms : Mappings catalog seen) : ((sortByKey ms.mappings).map (·.key)).Nodup :=
  ((List.perm_insertionSort _ ms.mappings).map _).nodup_iff.mpr ms.distinct

def validateEvidencePriceBinding (obj : Value) (catalog : Catalog) : Except JsString (Binding catalog) := do
  require obj.isObject <| js "evidence price binding must be a JSON object"
  require ((obj.get "kind").toString? = some EVIDENCE_PRICE_BINDING_KIND) <|
    js "evidence price binding has wrong kind " ++ shown (obj.get "kind") ++ js "; expected " ++
      shown (string EVIDENCE_PRICE_BINDING_KIND)
  require (obj.has "schemaVersion") <| js "evidence price binding is missing required field: schemaVersion"
  require (supports [1] <| obj.get "schemaVersion") <|
    js "unsupported evidence price binding schemaVersion " ++ shown (obj.get "schemaVersion") ++
      js "; this build understands: 1"
  require (obj.has "mappings") <| js "evidence price binding is missing required field: mappings"
  require (isArray <| obj.get "mappings") <| js "evidence price binding mappings must be an array"
  let elems ← demand (nonemptyArray? <| obj.get "mappings") <|
    js "evidence price binding mappings must be a non-empty array"
  let mappings ← mappingsFrom catalog 0 [] elems
  return { mappings := sortByKey mappings.mappings, distinct := mappings.nodup_sortByKey }

-- `resolveEvidencePlanId`, where the caller has checked that both arguments are not blank.
def resolveEvidencePlanId (binding : Binding catalog) (provider priceId : JsString) : Except JsString JsString :=
  match binding.mappings.find? (·.key = bindingKey provider priceId) with
  | some mapping => .ok mapping.planId
  | none         => .error <| js "no evidence plan bound for (provider " ++ shown (string provider) ++
      js ", priceId " ++ shown (string priceId) ++ js "); the price binding has no such mapping"

def epochSecondsToCanonicalISO (field : String) (epochSeconds : Value) : Except Thrown JsString :=
  match epochSeconds.toInt?.filter fun n => 0 ≤ n ∧ n ≤ MAX_EPOCH_SECONDS with
  | some n => dateText <| n * 1000
  | none   => raise <| epochSeconds.toText.map fun text =>
    js field ++ js " must be a non-negative INTEGER UNIX epoch in SECONDS (0..8640000000000), got: " ++ text

def requireCanonicalInstant (field : String) (value : Value) : Except Thrown CanonicalInstant :=
  match value.toString?.filter Instant.isInstant with
  | none      => raise <| value.toText.map fun text =>
    js field ++ js " must be an ISO-8601 UTC instant (\"YYYY-MM-DDTHH:MM:SS(.mmm)Z\"), got: " ++ text
  | some text =>
    match canonical : Instant.canonical? text with
    | some ms => .ok { text, ms, canonical }
    | none    => raise <| js field ++ js (" must be a CANONICAL ISO-8601 UTC instant " ++
        "(\"YYYY-MM-DDTHH:MM:SS.mmmZ\", millis required, no rolled-over/impossible fields), got: ") ++ text

-- The order of an event. The named error is the one of the intake.
def normalizeEvidenceEvent (event : Value) (binding : Binding catalog) (opts : Value) : Except Thrown Value :=
  if ¬ event.isObject then
    raise <| js "normalizeEvidenceEvent requires a parsed event \x7b provider, priceId, customer, periodEnd \x7d"
  else if ¬ opts.isObject then
    raise <| js <| "normalizeEvidenceEvent requires an opts object \x7b issuedAt \x7d (the injected clock; " ++
      "the core never reads it)"
  else
    match notBlank? (event.get "provider"), notBlank? (event.get "priceId") with
    | none, _                     => raise <| js "event `provider` must be a non-empty string"
    | _, none                     => raise <| js "event `priceId` must be a non-empty string"
    | some provider, some priceId =>
      match resolveEvidencePlanId binding provider.val priceId.val with
      | .error e   => raise <| js "cannot normalize event: " ++ e
      | .ok planId =>
        match (event.get "customer").toString?.filter (· ≠ []) with
        | none          => raise <| js "event `customer` must be a non-empty string"
        | some customer => do
          let paidThrough ← epochSecondsToCanonicalISO "periodEnd" <| event.get "periodEnd"
          if (opts.get "issuedAt").isNullish then
            raise <| js <| "normalizeEvidenceEvent requires opts.issuedAt (a canonical ISO instant); " ++
              "the core never reads the system clock"
          else do
            let issuedAt ← requireCanonicalInstant "issuedAt" <| opts.get "issuedAt"
            return object [
              (js "plan", string planId),
              (js "customer", string customer),
              (js "paidThrough", string paidThrough),
              (js "issuedAt", string issuedAt.text)
            ]

end

end PriceBinding

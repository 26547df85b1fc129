import Verifyhash.Data.Text
import Verifyhash.Data.Unicode
import Verifyhash.Intake.StrictJson

-- The reader of webhook bodies in `cli/core/fulfill-intake.js`.
namespace Intake

open Json Value

def MAX_EPOCH_SECONDS : ℤ := 8640000000000

def DEFAULT_MAX_BODY_BYTES : ℕ := 256 * 1024

def MAX_JSON_DEPTH : ℕ := 64

def STRIPE_PROVIDER : JsString := js "stripe"

def INVOICE_PAID : JsString := js "invoice.paid"

def CHECKOUT_SESSION_COMPLETED : JsString := js "checkout.session.completed"

def SUPPORTED_STRIPE_EVENT_TYPES : List JsString :=
  [CHECKOUT_SESSION_COMPLETED, INVOICE_PAID]

-- The provider of an envelope is always the same.
structure Envelope where
  type      : JsString
  priceId   : JsString
  customer  : JsString
  periodEnd : Number
  deriving DecidableEq

-- A validated price binding, of which the index `_byKey` is given by its keys.
structure Binding where
  byKey : List JsString

structure EventOpts where
  maxBytes : Option ℤ := none
  binding  : Option Binding := none

-- `new FulfillIntakeError(..)`
def eventError (message : JsString) : Except FulfillIntakeError α :=
  .error ⟨message⟩

def requireEventString (value : Value) (label : String) : Except FulfillIntakeError JsString :=
  match value.toString?.filter (· ≠ []) with
  | some s => .ok s
  | none   => eventError <| js "event " ++ js label ++ js " must be a non-empty string"

-- The loop over the elements of a list, from an index on.
def requireObjects (label : String) : ℕ → List Value → Except FulfillIntakeError Unit
  | _, []          => .ok ()
  | idx, it :: its =>
    if it.isObject then requireObjects label (idx + 1) its
    else eventError <| js "event " ++ js label ++ js ".data[" ++ natText idx ++ js "] must be an object"

def requireListData (listObj : Value) (label : String) : Except FulfillIntakeError (List Value) :=
  match listObj.get "data" with
  | .array (it :: its) => do
    requireObjects label 0 (it :: its)
    return it :: its
  | _                  =>
    eventError <| js "event " ++ js label ++ js " must be a non-empty \x7b data: [...] \x7d list"

-- `_priceIdOf`, for an object
def priceIdOf (node : Value) : Option JsString :=
  let price := node.get "price"
  let legacy := match price with
    | .object _ => (price.get "id").toString?.filter (· ≠ [])
    | .string s => (some s).filter (· ≠ [])
    | _         => none
  let modern := (((node.get "pricing").get "price_details").get "price").toString?.filter (· ≠ [])
  legacy <|> modern

def requirePriceId (node : Value) (label : String) : Except FulfillIntakeError JsString :=
  match priceIdOf node with
  | some id => .ok id
  | none    => eventError <| js "event " ++ js label ++ js " must carry a price id (either " ++ js label ++
      js ".price.id or " ++ js label ++ js ".pricing.price_details.price)"

def bindingKey (provider priceId : JsString) : JsString :=
  provider ++ [0] ++ priceId

def isBound (binding : Binding) (provider priceId : JsString) : Bool :=
  provider ≠ [] ∧ priceId ≠ [] ∧ bindingKey provider priceId ∈ binding.byKey

-- An item whose price is bound.
def isBoundItem (binding : Binding) (provider : JsString) (it : Value) : Bool :=
  (priceIdOf it).any (isBound binding provider)

def selectBoundListItem (items : List Value) (provider : JsString) (binding : Option Binding) (label : String) :
    Except FulfillIntakeError Value :=
  match items with
  | [it]  => .ok it
  | items =>
    match binding with
    | some binding =>
      match items.filter (isBoundItem binding provider) with
      | [it]  => .ok it
      | []    => eventError <| js "event " ++ js label ++ js " has " ++ natText items.length ++
          js " items but NONE carries a price bound in the supplied binding; cannot select the intended line"
      | bound => eventError <| js "event " ++ js label ++ js " has " ++ natText bound.length ++ js
          (" items whose prices are ALL bound; the intended line is AMBIGUOUS — deliver one plan per event, " ++
            "or split the binding so only one price maps")
    | none =>
      match (items.map priceIdOf).dedup, items with
      | [some _], it :: _ => .ok it
      | distinct, _       => eventError <| js "event " ++ js label ++ js " has " ++ natText items.length ++
          js " items spanning " ++ natText distinct.length ++ js
            (" distinct prices; pass opts.binding so the intended (bound) line is selected unambiguously " ++
              "instead of positionally")

def toNumber? : Value → Option Number
  | .number n => some n
  | _         => none

def subscriptionPeriodEnd (sub item : Value) : Except FulfillIntakeError Number :=
  match toNumber? (item.get "current_period_end") <|> toNumber? (sub.get "current_period_end") with
  | some n => .ok n
  | none   => eventError <| js
      ("event subscription period end is missing: expected either " ++
        "`data.object.subscription.items.data[i].current_period_end` (current Stripe API) or " ++
        "`data.object.subscription.current_period_end` (legacy API), as a UNIX epoch (seconds) number")

def linePeriodEnd (line : Value) : Except FulfillIntakeError Number :=
  match toNumber? <| (line.get "period").get "end" with
  | some n => .ok n
  | none   => eventError <| js "event `data.object.lines.data[0].period.end` must be a UNIX epoch (seconds) number"

def isEpoch (n : Number) : Bool :=
  n.toInt?.any fun i => 0 ≤ i ∧ i ≤ MAX_EPOCH_SECONDS

def requireEpoch (n : Number) : Except FulfillIntakeError Number :=
  if isEpoch n then .ok n
  else eventError <| js "event periodEnd must be a non-negative INTEGER UNIX epoch in SECONDS (0..8640000000000), got: " ++
    numberString n

-- The price and the end of the period of the selected line.
def readInvoice (object : Value) (binding : Option Binding) : Except FulfillIntakeError (JsString × Number) := do
  let lineItems ← requireListData (object.get "lines") "data.object.lines"
  let line ← selectBoundListItem lineItems STRIPE_PROVIDER binding "data.object.lines"
  let priceId ← requirePriceId line "data.object.lines.data[0]"
  let periodEnd ← linePeriodEnd line
  return (priceId, periodEnd)

def readCheckout (object : Value) (binding : Option Binding) : Except FulfillIntakeError (JsString × Number) := do
  let sub := object.get "subscription"
  if ¬ sub.isObject then
    eventError <| js
      ("event `data.object.subscription` must be an expanded subscription object " ++
        "(configure Stripe Checkout with expand:['subscription'])")
  else
    let subItems ← requireListData (sub.get "items") "data.object.subscription.items"
    let item ← selectBoundListItem subItems STRIPE_PROVIDER binding "data.object.subscription.items"
    let priceId ← requirePriceId item "data.object.subscription.items.data[0]"
    let periodEnd ← subscriptionPeriodEnd sub item
    return (priceId, periodEnd)

-- The part of `parseEvidenceEvent` after the body is parsed.
def readEvent (evt : Value) (binding : Option Binding) : Except FulfillIntakeError Envelope := do
  if ¬ evt.isObject then
    eventError <| js "webhook body must be a JSON object"
  else
    let type ← match (evt.get "type").toString?.filter (· ≠ []) with
      | some type => .ok type
      | none      => eventError <| js "event `type` must be a non-empty string"
    if type ∉ SUPPORTED_STRIPE_EVENT_TYPES then
      eventError <| js "unsupported event type " ++ quote type ++
        js "; this handler understands: checkout.session.completed, invoice.paid"
    else
      let object := (evt.get "data").get "object"
      if ¬ object.isObject then
        eventError <| js "event `data.object` must be an object"
      else
        let customer ← requireEventString (object.get "customer") "data.object.customer"
        let (priceId, periodEnd) ← if type = INVOICE_PAID then readInvoice object binding else readCheckout object binding
        let periodEnd ← requireEpoch periodEnd
        return { type, priceId, customer, periodEnd }

def parseEvidenceEvent (rawBody : JsString) (opts : EventOpts) : Except FulfillIntakeError Envelope := do
  let maxBytes ← match opts.maxBytes with
    | none   => .ok (DEFAULT_MAX_BODY_BYTES : ℤ)
    | some m => if m ≤ 0 then eventError <| js "parseEvidenceEvent opts.maxBytes must be a positive integer" else .ok m
  let bodyBytes := (Unicode.bufferFrom rawBody).length
  if (bodyBytes : ℤ) > maxBytes then
    eventError <| js "webhook body is oversized: " ++ natText bodyBytes ++ js " bytes exceeds the " ++
      natText maxBytes.toNat ++ js "-byte limit"
  else
    let evt ← strictJsonParse rawBody MAX_JSON_DEPTH
    readEvent evt opts.binding

end Intake

import Verifyhash.Intake.Event
import Verifyhash.Intake.Theorems.StrictJson
import Verifyhash.Library.Fallible

namespace Intake

open Json Value Fallible

section

variable (evt evt' : Value)

def eventObject : Value :=
  (evt.get "data").get "object"

def subscription : Value :=
  (eventObject evt).get "subscription"

def isInvoice : Bool :=
  (evt.get "type").toString? = some INVOICE_PAID

-- The list from which a line is selected.
def itemList : Value :=
  (if isInvoice evt then (eventObject evt).get "lines" else (subscription evt).get "items").get "data"

def itemsOf : List Value :=
  match itemList evt with
  | .array its => its
  | _          => []

-- The valid end of the period of an item.
def periodOf (item : Value) : Option Number :=
  (if isInvoice evt then linePeriodEnd item else subscriptionPeriodEnd (subscription evt) item).toOption.filter
    (isEpoch ·)

-- An event whose fields outside of the list are accepted, with a list of objects.
structure Readable : Prop where
  isObject     : evt.isObject
  type         : ∃ type ∈ SUPPORTED_STRIPE_EVENT_TYPES, evt.get "type" = string type
  object       : (eventObject evt).isObject
  customer     : ∃ customer ≠ [], (eventObject evt).get "customer" = string customer
  subscription : isInvoice evt = false → (subscription evt).isObject
  items        : itemsOf evt ≠ []
  objects      : ∀ it ∈ itemsOf evt, it.isObject

-- Two events which differ only in the order of the list, as far as they are read.
structure Permuted : Prop where
  isObject     : evt.isObject = evt'.isObject
  type         : evt.get "type" = evt'.get "type"
  object       : (eventObject evt).isObject = (eventObject evt').isObject
  customer     : (eventObject evt).get "customer" = (eventObject evt').get "customer"
  subscription : (subscription evt).isObject = (Intake.subscription evt').isObject
  periodEnd    : (Intake.subscription evt).get "current_period_end" = (Intake.subscription evt').get "current_period_end"
  items        : (itemsOf evt).Perm (itemsOf evt')

-- The selection of a line, without its errors.
def select (binding : Option Binding) (items : List Value) : Option Value :=
  (selectBoundListItem items STRIPE_PROVIDER binding "").toOption

-- The price which all items of a list share.
def SharedPrice (items : List Value) : Prop :=
  2 ≤ items.length ∧ ∃ p, ∀ it ∈ items, priceIdOf it = some p

end

section

variable {evt evt' : Value} {binding : Option Binding} {items items' : List Value} {label label' : String}

theorem toOption_bind {x : Except ε α} {f : α → Except ε β} :
    (x >>= f).toOption = x.toOption.bind fun a => (f a).toOption := by
  cases x <;> rfl

theorem selectBoundListItem_toOption :
    (selectBoundListItem items STRIPE_PROVIDER binding label).toOption = select binding items := by
  rw [select]
  rcases items with _ | ⟨it, _ | ⟨it', its⟩⟩ <;> cases binding <;> simp only [selectBoundListItem]
  all_goals split <;> rfl

theorem requireObjects_toOption {idx : ℕ} :
    (requireObjects label idx items).toOption = if ∀ it ∈ items, it.isObject then some () else none := by
  induction items generalizing idx
  case nil => simp [requireObjects]; rfl
  case cons it its ih =>
    rw [requireObjects]
    split_ifs with h₁ h₂ h₂
    · rw [ih, if_pos fun it hm => h₂ it <| List.mem_cons_of_mem _ hm]
    · rw [ih, if_neg fun h => h₂ <| List.forall_mem_cons.mpr ⟨h₁, h⟩]
    · exact absurd (h₂ it <| List.mem_cons_self ..) h₁
    · rfl

-- What is selected from a list of several items.
theorem select_eq (h : 2 ≤ items.length) : select binding items =
    match binding with
    | some binding => match items.filter (isBoundItem binding STRIPE_PROVIDER) with
      | [it] => some it
      | _    => none
    | none => match (items.map priceIdOf).dedup with
      | [some _] => items.head?
      | _        => none := by
  rw [select]
  rcases items with _ | ⟨it, _ | ⟨it', its⟩⟩
  · simp at h
  · simp at h
  · cases binding <;> simp only [selectBoundListItem]
    case none =>
      rcases ((it :: it' :: its).map priceIdOf).dedup with _ | ⟨_ | p, _ | ⟨q, ps⟩⟩ <;> rfl
    case some binding =>
      rcases (it :: it' :: its).filter (isBoundItem binding STRIPE_PROVIDER) with _ | ⟨x, _ | ⟨y, xs⟩⟩ <;> rfl

theorem dedup_eq_singleton {p : JsString} (hn : items ≠ []) :
    (items.map priceIdOf).dedup = [some p] ↔ ∀ it ∈ items, priceIdOf it = some p := by
  constructor
  case mp =>
    intro h it hm
    have : priceIdOf it ∈ (items.map priceIdOf).dedup := List.mem_dedup.mpr <| List.mem_map_of_mem hm
    simpa [h] using this
  case mpr =>
    intro h
    obtain ⟨it, its, rfl⟩ := List.exists_cons_of_ne_nil hn
    have hr : (it :: its).map priceIdOf = .replicate (its.length + 1) (some p) := by
      rw [List.eq_replicate_iff]
      exact ⟨by simp, by simpa using h⟩
    rw [hr, List.replicate_dedup (by omega)]

theorem dedup_isSome (hn : items ≠ []) :
    (∃ p, (items.map priceIdOf).dedup = [some p]) ↔ ∃ p, ∀ it ∈ items, priceIdOf it = some p :=
  exists_congr fun _ => dedup_eq_singleton hn

-- The selection from several items is that of a list in another order, unless it is the first one of several
-- items with one price.
theorem select_perm (h : items.Perm items') (hs : binding ≠ none ∨ ¬ SharedPrice items) :
    select binding items = select binding items' := by
  by_cases hl : 2 ≤ items.length
  case neg =>
    have : items' = items := by
      rcases items with _ | ⟨it, _ | ⟨it', its⟩⟩
      · exact h.nil_eq.symm
      · exact List.perm_singleton.mp h.symm
      · simp at hl
    rw [this]
  case pos =>
    rw [select_eq hl, select_eq (h.length_eq ▸ hl)]
    cases binding
    case none =>
      have hs : ¬ SharedPrice items := hs.resolve_left fun h => h rfl
      have hn {its : List Value} (hl : 2 ≤ its.length) (h : ¬ ∃ p, ∀ it ∈ its, priceIdOf it = some p) :
          (match (its.map priceIdOf).dedup with
            | [some _] => its.head?
            | _        => none) = none := by
        rw [←dedup_isSome <| List.ne_nil_of_length_pos <| by omega] at h
        generalize (its.map priceIdOf).dedup = ps at h
        rcases ps with _ | ⟨_ | p, _ | ⟨q, ps⟩⟩
        case cons.some.nil => exact absurd ⟨p, rfl⟩ h
        all_goals rfl
      have hp : ¬ ∃ p, ∀ it ∈ items, priceIdOf it = some p := fun hp => hs ⟨hl, hp⟩
      have hp' : ¬ ∃ p, ∀ it ∈ items', priceIdOf it = some p :=
        fun ⟨p, hp'⟩ => hp ⟨p, fun it hm => hp' it <| h.mem_iff.mp hm⟩
      exact (hn hl hp).trans (hn (h.length_eq ▸ hl) hp').symm
    case some binding =>
      have hf := h.filter (isBoundItem binding STRIPE_PROVIDER)
      simp only
      generalize items.filter (isBoundItem binding STRIPE_PROVIDER) = xs at hf
      generalize items'.filter (isBoundItem binding STRIPE_PROVIDER) = ys at hf
      rcases xs with _ | ⟨x, _ | ⟨x', xs⟩⟩
      · rw [hf.nil_eq.symm]
      · rw [List.perm_singleton.mp hf.symm]
      · rcases ys with _ | ⟨y, _ | ⟨y', ys⟩⟩
        · exact absurd hf.length_eq (by simp)
        · exact absurd hf.length_eq (by simp)
        · rfl

-- Of several items with one price the first one is selected if there is no binding.
theorem select_of_shared (hs : SharedPrice items) : select none items = items.head? := by
  obtain ⟨hl, p, hp⟩ := hs
  rw [select_eq hl]
  simp only [dedup_eq_singleton (List.ne_nil_of_length_pos <| by omega) |>.mpr hp]

-- With a binding the selected one of several items is the only one whose price is bound.
theorem filter_of_select {it : Value} (hl : 2 ≤ items.length) (h : select (some bd) items = some it) :
    items.filter (isBoundItem bd STRIPE_PROVIDER) = [it] := by
  rw [select_eq hl] at h
  simp only at h
  generalize items.filter (isBoundItem bd STRIPE_PROVIDER) = xs at h
  rcases xs with _ | ⟨x, _ | ⟨y, xs⟩⟩ <;> simp at h ⊢
  exact h

theorem requireListData_toOption {list : Value} :
    (requireListData list label).toOption = match list.get "data" with
      | .array its => if its ≠ [] ∧ ∀ it ∈ its, it.isObject then some its else none
      | _          => none := by
  rw [requireListData]
  rcases list.get "data" with _ | _ | _ | _ | _ | its | _ <;> try rfl
  rcases its with _ | ⟨it, its⟩
  · rfl
  · simp only [toOption_bind, requireObjects_toOption, ne_eq, reduceCtorEq, not_false_eq_true, true_and]
    split_ifs <;> rfl

theorem requirePriceId_toOption {it : Value} : (requirePriceId it label).toOption = priceIdOf it := by
  rw [requirePriceId]
  cases priceIdOf it <;> rfl

theorem requireEpoch_toOption {n : Number} : (requireEpoch n).toOption = (some n).filter (isEpoch ·) := by
  rw [requireEpoch, Option.filter]
  split_ifs <;> rfl

theorem readInvoice_toOption {obj : Value} : (readInvoice obj binding).toOption =
    (requireListData (obj.get "lines") "data.object.lines").toOption.bind fun its =>
      (select binding its).bind fun it => (priceIdOf it).bind fun p =>
        (linePeriodEnd it).toOption.map fun n => (p, n) := by
  simp only [readInvoice, toOption_bind, selectBoundListItem_toOption, requirePriceId_toOption]
  congr 1
  funext its
  congr 1
  funext it
  congr 1
  funext p
  cases linePeriodEnd it <;> rfl

theorem readCheckout_toOption {obj : Value} (h : (obj.get "subscription").isObject) :
    (readCheckout obj binding).toOption =
    (requireListData ((obj.get "subscription").get "items") "data.object.subscription.items").toOption.bind fun its =>
      (select binding its).bind fun it => (priceIdOf it).bind fun p =>
        (subscriptionPeriodEnd (obj.get "subscription") it).toOption.map fun n => (p, n) := by
  simp only [readCheckout, h, not_true_eq_false, if_false, toOption_bind, selectBoundListItem_toOption,
    requirePriceId_toOption]
  congr 1
  funext its
  congr 1
  funext it
  congr 1
  funext p
  cases subscriptionPeriodEnd (obj.get "subscription") it <;> rfl

def typeOf (evt : Value) : JsString :=
  (evt.get "type").toString?.getD []

def customerOf (evt : Value) : JsString :=
  ((eventObject evt).get "customer").toString?.getD []

-- The two readers, for the type of an event.
theorem read_toOption (h : isInvoice evt = false → (subscription evt).isObject) :
    (if isInvoice evt then readInvoice (eventObject evt) binding else readCheckout (eventObject evt) binding).toOption =
      if itemsOf evt ≠ [] ∧ ∀ it ∈ itemsOf evt, it.isObject then
        (select binding (itemsOf evt)).bind fun it => (priceIdOf it).bind fun p =>
          (if isInvoice evt then linePeriodEnd it else subscriptionPeriodEnd (subscription evt) it).toOption.map
            fun n => (p, n)
      else none := by
  rw [itemsOf, itemList]
  cases hi : isInvoice evt
  case true =>
    simp only [if_true, readInvoice_toOption, requireListData_toOption]
    rcases ((eventObject evt).get "lines").get "data" with _ | _ | _ | _ | _ | its | _ <;> try simp
    split_ifs <;> simp_all
  case false =>
    simp only [Bool.false_eq_true, if_false]
    rw [readCheckout_toOption (h hi), requireListData_toOption]
    rw [show (eventObject evt).get "subscription" = subscription evt from rfl]
    rcases ((subscription evt).get "items").get "data" with _ | _ | _ | _ | _ | its | _ <;> try simp
    split_ifs <;> simp_all

theorem readFields_toOption {type customer : JsString} (h : isInvoice evt ↔ type = INVOICE_PAID) :
    (if type = INVOICE_PAID then do
        let f ← readInvoice (eventObject evt) binding
        let periodEnd ← requireEpoch f.snd
        return { type, priceId := f.fst, customer, periodEnd }
      else do
        let f ← readCheckout (eventObject evt) binding
        let periodEnd ← requireEpoch f.snd
        return { type, priceId := f.fst, customer, periodEnd } : Except FulfillIntakeError Envelope).toOption =
      (if isInvoice evt then readInvoice (eventObject evt) binding
        else readCheckout (eventObject evt) binding).toOption.bind fun f =>
          ((some f.snd).filter (isEpoch ·)).map fun n => ⟨type, f.fst, customer, n⟩ := by
  have hf (f : JsString × Number) : ((requireEpoch f.snd).toOption.bind fun periodEnd =>
      (pure { type, priceId := f.fst, customer, periodEnd } : Except FulfillIntakeError Envelope).toOption) =
      ((some f.snd).filter (isEpoch ·)).map fun n => ⟨type, f.fst, customer, n⟩ := by
    rw [requireEpoch_toOption]
    cases Option.filter (isEpoch ·) (some f.snd) <;> rfl
  by_cases hi : isInvoice evt
  case pos =>
    rw [if_pos (h.mp hi), if_pos hi, toOption_bind]
    simp only [toOption_bind, hf]
  case neg =>
    rw [if_neg fun ht => hi (h.mpr ht), if_neg hi, toOption_bind]
    simp only [toOption_bind, hf]

theorem readCheckout_eq_error (h : ¬ (isInvoice evt = false → (subscription evt).isObject)) :
    (if isInvoice evt then readInvoice (eventObject evt) binding
      else readCheckout (eventObject evt) binding).toOption = none := by
  rw [Classical.not_imp] at h
  have hs : ¬ ((eventObject evt).get "subscription").isObject := h.right
  simp only [h.left, Bool.false_eq_true, if_false, readCheckout, hs, not_false_eq_true, if_true]
  rfl

theorem bind_periodOf {type customer : JsString} {sel : Option Value} :
    (sel.bind fun it => (priceIdOf it).bind fun p =>
      (if isInvoice evt then linePeriodEnd it else subscriptionPeriodEnd (subscription evt) it).toOption.map
        fun n => (p, n)).bind (fun f => ((some f.snd).filter (isEpoch ·)).map fun n => Envelope.mk type f.fst customer n) =
    sel.bind fun it => (priceIdOf it).bind fun p => (periodOf evt it).map fun n => ⟨type, p, customer, n⟩ := by
  cases sel
  case none => rfl
  case some it =>
    simp only [Option.bind_some, periodOf]
    cases priceIdOf it
    case none => rfl
    case some p =>
      simp only [Option.bind_some]
      cases (if isInvoice evt then linePeriodEnd it else subscriptionPeriodEnd (subscription evt) it).toOption <;> rfl

theorem readEvent_toOption [Decidable (Readable evt)] : (readEvent evt binding).toOption =
    if Readable evt then
      (select binding (itemsOf evt)).bind fun it => (priceIdOf it).bind fun p => (periodOf evt it).map fun n =>
        ⟨typeOf evt, p, customerOf evt, n⟩
    else none := by
  rw [readEvent]
  by_cases h₁ : evt.isObject
  case neg =>
    rw [if_neg fun h : Readable evt => h₁ h.isObject]
    simp only [h₁]
    rfl
  case pos =>
    simp only [h₁, not_true_eq_false, if_false]
    cases ht : (evt.get "type").toString?.filter (· ≠ [])
    case none =>
      rw [if_neg]
      · rfl
      · intro h
        obtain ⟨type, hm, h⟩ := h.type
        have hn : ∀ type ∈ SUPPORTED_STRIPE_EVENT_TYPES, type ≠ [] := by decide
        rw [h, toString?, Option.filter_some, if_pos (decide_eq_true (hn type hm))] at ht
        cases ht
    case some type =>
      rw [Option.filter_eq_some_iff] at ht
      have htype := toString?_eq_some.mp ht.left
      have hinv : isInvoice evt ↔ type = INVOICE_PAID := by
        rw [isInvoice, ht.left]
        simp
      have hto : typeOf evt = type := by rw [typeOf, ht.left, Option.getD_some]
      change (if type ∉ SUPPORTED_STRIPE_EVENT_TYPES then _ else _ : Except FulfillIntakeError Envelope).toOption = _
      by_cases h₂ : type ∈ SUPPORTED_STRIPE_EVENT_TYPES
      case neg =>
        have hr : ¬ Readable evt := by
          intro h
          obtain ⟨t, hm, h⟩ := h.type
          obtain rfl : type = t := Value.string.inj <| htype.symm.trans h
          exact h₂ hm
        rw [if_pos h₂, if_neg hr]
        rfl
      case pos =>
        rw [if_neg (not_not.mpr h₂)]
        change (if ¬ (eventObject evt).isObject then _ else _ : Except FulfillIntakeError Envelope).toOption = _
        by_cases h₃ : (eventObject evt).isObject
        case neg =>
          rw [if_pos h₃, if_neg fun h : Readable evt => h₃ h.object]
          rfl
        case pos =>
          rw [if_neg (not_not.mpr h₃), toOption_bind]
          cases hc : ((eventObject evt).get "customer").toString?.filter (· ≠ [])
          case none =>
            have hr : ¬ Readable evt := by
              intro h
              obtain ⟨customer, hn, h⟩ := h.customer
              rw [h, toString?, Option.filter_some, if_pos (decide_eq_true hn)] at hc
              cases hc
            have hq : (requireEventString ((eventObject evt).get "customer") "data.object.customer").toOption = none := by
              rw [requireEventString, hc]
              rfl
            rw [if_neg hr]
            change Option.bind (requireEventString ((eventObject evt).get "customer") "data.object.customer").toOption _ = _
            rw [hq]
            rfl
          case some customer =>
            have hq : (requireEventString ((eventObject evt).get "customer") "data.object.customer").toOption =
                some customer := by
              rw [requireEventString, hc]
              rfl
            rw [Option.filter_eq_some_iff] at hc
            have hco : customerOf evt = customer := by rw [customerOf, hc.left, Option.getD_some]
            change Option.bind (requireEventString ((eventObject evt).get "customer") "data.object.customer").toOption _ = _
            rw [hq, Option.bind_some, hto, hco]
            refine (readFields_toOption (hinv.trans <| by simp)).trans ?_
            by_cases h₄ : isInvoice evt = false → (subscription evt).isObject
            case neg =>
              rw [if_neg fun h : Readable evt => h₄ h.subscription, readCheckout_eq_error h₄]
              rfl
            case pos =>
              have hr : Readable evt ↔ itemsOf evt ≠ [] ∧ ∀ it ∈ itemsOf evt, it.isObject := by
                constructor
                case mp => exact fun h => ⟨h.items, h.objects⟩
                case mpr =>
                  rintro ⟨hi, ho⟩
                  exact ⟨h₁, ⟨type, h₂, htype⟩, h₃, ⟨customer, by simpa using hc.right, toString?_eq_some.mp hc.left⟩,
                    h₄, hi, ho⟩
              rw [read_toOption h₄]
              by_cases hl : itemsOf evt ≠ [] ∧ ∀ it ∈ itemsOf evt, it.isObject
              case pos =>
                rw [if_pos hl, if_pos (hr.mpr hl)]
                exact bind_periodOf
              case neg =>
                rw [if_neg hl, if_neg fun h => hl (hr.mp h)]
                rfl

-- The first of several items with one price decides on the period.
def Positional (binding : Option Binding) (evt evt' : Value) : Prop :=
  Readable evt ∧ binding = none ∧ SharedPrice (itemsOf evt) ∧
    (itemsOf evt).head?.map (periodOf evt) ≠ (itemsOf evt').head?.map (periodOf evt')

namespace Permuted

variable (h : Permuted evt evt')

include h

theorem isInvoice : isInvoice evt = isInvoice evt' := by
  rw [Intake.isInvoice, Intake.isInvoice, h.type]

theorem periodOf : periodOf evt = periodOf evt' := by
  funext it
  rw [Intake.periodOf, Intake.periodOf, h.isInvoice, subscriptionPeriodEnd, subscriptionPeriodEnd, h.periodEnd]

theorem readable_of (hr : Readable evt) : Readable evt' where
  isObject         := h.isObject ▸ hr.isObject
  type             := h.type ▸ hr.type
  object           := h.object ▸ hr.object
  customer         := h.customer ▸ hr.customer
  subscription hi  := h.subscription ▸ hr.subscription (h.isInvoice ▸ hi)
  items hn         := hr.items <| List.perm_nil.mp <| hn ▸ h.items
  objects it hm    := hr.objects it <| h.items.mem_iff.mpr hm

theorem symm : Permuted evt' evt :=
  ⟨h.isObject.symm, h.type.symm, h.object.symm, h.customer.symm, h.subscription.symm, h.periodEnd.symm, h.items.symm⟩

-- Two orders of one list are read alike, unless the first item is selected.
theorem readEvent_eq_iff :
    (readEvent evt binding).toOption = (readEvent evt' binding).toOption ↔ ¬ Positional binding evt evt' := by
  classical
  have hr : Readable evt ↔ Readable evt' := ⟨h.readable_of, h.symm.readable_of⟩
  rw [readEvent_toOption, readEvent_toOption, ←hr]
  by_cases hread : Readable evt
  case neg => simp [hread, Positional]
  case pos =>
    have ht : typeOf evt = typeOf evt' := by rw [typeOf, typeOf, h.type]
    have hc : customerOf evt = customerOf evt' := by rw [customerOf, customerOf, h.customer]
    rw [if_pos hread, if_pos hread, ht, hc, h.periodOf]
    by_cases hs : binding = none ∧ SharedPrice (itemsOf evt)
    case neg =>
      have hs' : binding ≠ none ∨ ¬ SharedPrice (itemsOf evt) := not_and_or.mp hs
      rw [select_perm h.items hs']
      refine iff_of_true rfl ?_
      rintro ⟨_, hb, hp, _⟩
      exact hs ⟨hb, hp⟩
    case pos =>
      obtain ⟨rfl, hs⟩ := hs
      have hs' : SharedPrice (itemsOf evt') := by
        obtain ⟨hl, p, hp⟩ := hs
        exact ⟨h.items.length_eq ▸ hl, p, fun it hm => hp it <| h.items.mem_iff.mpr hm⟩
      rw [select_of_shared hs, select_of_shared hs', Positional, h.periodOf]
      obtain ⟨hl, p, hp⟩ := hs
      obtain ⟨it, its, hi⟩ := List.exists_cons_of_ne_nil hread.items
      obtain ⟨it', its', hi'⟩ := List.exists_cons_of_ne_nil (h.readable_of hread).items
      have hpi : priceIdOf it = some p := hp it <| hi ▸ List.mem_cons_self ..
      have hpi' : priceIdOf it' = some p := hp it' <| h.items.mem_iff.mpr <| hi' ▸ List.mem_cons_self ..
      have hsh : SharedPrice (it :: its) := hi ▸ ⟨hl, p, hp⟩
      simp only [hread, hi, hi', hsh, List.head?_cons, Option.bind_some, hpi, hpi', Option.map_some, true_and, ne_eq,
        Option.some.injEq]
      cases Intake.periodOf evt' it <;> cases Intake.periodOf evt' it' <;> simp

end Permuted

-- An accepted event with several items and a binding names the only bound one.
theorem readEvent_binding {e : Envelope} (h : readEvent evt (some bd) = .ok e) (hl : 2 ≤ (itemsOf evt).length) :
    ∃ it, (itemsOf evt).filter (isBoundItem bd STRIPE_PROVIDER) = [it] ∧ priceIdOf it = some e.priceId ∧
      periodOf evt it = some e.periodEnd := by
  classical
  have ho : (readEvent evt (some bd)).toOption = some e := by rw [h]; rfl
  rw [readEvent_toOption] at ho
  split_ifs at ho
  simp only [Option.bind_eq_some_iff, Option.map_eq_some_iff] at ho
  obtain ⟨it, hs, p, hp, n, hn, rfl⟩ := ho
  exact ⟨it, filter_of_select hl hs, hp, hn⟩

end

section

variable (rawBody rawBody' : JsString) (opts : EventOpts) (evt evt' : Value)

-- The size of a body is within the limit.
def Fits : Prop :=
  match opts.maxBytes with
  | none   => (Unicode.bufferFrom rawBody).length ≤ DEFAULT_MAX_BODY_BYTES
  | some m => 0 < m ∧ (Unicode.bufferFrom rawBody).length ≤ m

-- What the reader promises about two orders of one list.
structure NeverPositional : Prop where
  agree : (parseEvidenceEvent rawBody opts).toOption = (parseEvidenceEvent rawBody' opts).toOption
  only  : ∀ bd, opts.binding = some bd → 2 ≤ (itemsOf evt).length → ∀ e, parseEvidenceEvent rawBody opts = .ok e →
    ∃ it, (itemsOf evt).filter (isBoundItem bd STRIPE_PROVIDER) = [it] ∧ priceIdOf it = some e.priceId ∧
      periodOf evt it = some e.periodEnd

end

section

variable {rawBody rawBody' : JsString} {opts : EventOpts} {evt evt' : Value}

theorem parseEvidenceEvent_of_fits (hf : Fits rawBody opts) (h : strictJsonParse rawBody MAX_JSON_DEPTH = .ok evt) :
    parseEvidenceEvent rawBody opts = readEvent evt opts.binding := by
  rw [parseEvidenceEvent]
  rw [Fits] at hf
  cases hm : opts.maxBytes
  case none =>
    rw [hm] at hf
    simp only [ok_bind]
    rw [if_neg (by simpa using hf), h, ok_bind]
  case some m =>
    rw [hm] at hf
    simp only [not_le.mpr hf.left, if_false, ok_bind]
    rw [if_neg (by simpa using hf.right), h, ok_bind]

theorem parseEvidenceEvent_of_not_fits (hf : ¬ Fits rawBody opts) : (parseEvidenceEvent rawBody opts).toOption = none := by
  rw [parseEvidenceEvent]
  rw [Fits] at hf
  cases hm : opts.maxBytes
  case none =>
    rw [hm] at hf
    simp only [ok_bind]
    rw [if_pos (by simpa using hf)]
    rfl
  case some m =>
    rw [hm] at hf
    by_cases hz : m ≤ 0
    case pos =>
      simp only [hz, if_true]
      rfl
    case neg =>
      simp only [hz, if_false, ok_bind]
      rw [if_pos (by simpa [not_le.mp hz] using hf)]
      rfl

-- Two orders of one list are read alike exactly if not the first item of several ones with one price decides on
-- another period.
theorem neverPositional_iff (h : strictJsonParse rawBody MAX_JSON_DEPTH = .ok evt)
    (h' : strictJsonParse rawBody' MAX_JSON_DEPTH = .ok evt') (hp : Permuted evt evt')
    (hl : (Unicode.bufferFrom rawBody).length = (Unicode.bufferFrom rawBody').length) :
    NeverPositional rawBody rawBody' opts evt ↔ ¬ (Fits rawBody opts ∧ Positional opts.binding evt evt') := by
  have hf' : Fits rawBody' opts ↔ Fits rawBody opts := by rw [Fits, Fits, hl]
  by_cases hf : Fits rawBody opts
  case neg =>
    have hn := parseEvidenceEvent_of_not_fits hf
    have hn' := parseEvidenceEvent_of_not_fits <| mt hf'.mp hf
    refine iff_of_true ⟨hn.trans hn'.symm, ?_⟩ fun h => hf h.left
    intro _ _ _ e he
    rw [he] at hn
    cases hn
  case pos =>
    have hr := parseEvidenceEvent_of_fits hf h
    have hr' := parseEvidenceEvent_of_fits (hf'.mpr hf) h'
    constructor
    case mp =>
      intro hn
      have := hn.agree
      rw [hr, hr', hp.readEvent_eq_iff] at this
      exact fun h => this h.right
    case mpr =>
      intro hn
      refine ⟨?_, ?_⟩
      · rw [hr, hr', hp.readEvent_eq_iff]
        exact fun h => hn ⟨hf, h⟩
      · intro bd hb hl e he
        rw [hr, hb] at he
        exact readEvent_binding he hl

end

section

def invoiceLine (periodEnd : ℕ) : Value :=
  object [(js "price", string <| js "p"), (js "period", object [(js "end", nat periodEnd)])]

-- A paid invoice with two lines of one price.
def invoiceEvent (a b : ℕ) : Value :=
  object [
    (js "type", string INVOICE_PAID),
    (js "data", object [
      (js "object", object [
        (js "customer", string <| js "c"),
        (js "lines", object [(js "data", .array [invoiceLine a, invoiceLine b])])
      ])
    ])
  ]

theorem plain_nat {n : ℕ} (h : n < 2 ^ 53) : Plain (nat n) :=
  .number <| Double.isDouble_natCast h

theorem plain_invoiceLine {n : ℕ} (h : n < 2 ^ 53) : Plain (invoiceLine n) := by
  have hend : Plain (object [(js "end", nat n)]) := .object (List.nodup_singleton _) <| by simpa using plain_nat h
  refine .object (by change [js "price", js "period"].Nodup; decide) ?_
  simpa using ⟨.string, hend⟩

theorem plain_invoiceEvent {a b : ℕ} (ha : a < 2 ^ 53) (hb : b < 2 ^ 53) : Plain (invoiceEvent a b) := by
  have hdata : Plain (.array [invoiceLine a, invoiceLine b]) :=
    .array <| by simpa using ⟨plain_invoiceLine ha, plain_invoiceLine hb⟩
  have hlines : Plain (object [(js "data", .array [invoiceLine a, invoiceLine b])]) :=
    .object (List.nodup_singleton _) <| by simpa using hdata
  have hobject : Plain (object [(js "customer", string <| js "c"),
      (js "lines", object [(js "data", .array [invoiceLine a, invoiceLine b])])]) := by
    refine .object (by change [js "customer", js "lines"].Nodup; decide) ?_
    simpa using ⟨.string, hlines⟩
  refine .object (by change [js "type", js "data"].Nodup; decide) ?_
  simpa using ⟨.string, .object (List.nodup_singleton _) <| by simpa using hobject⟩

def invoiceBody (a b : ℕ) : JsString :=
  render (invoiceEvent a b)

theorem strictJsonParse_invoiceBody {a b : ℕ} (ha : a < 2 ^ 53) (hb : b < 2 ^ 53)
    (h : (strictJsonParse (invoiceBody a b) MAX_JSON_DEPTH).toOption.isSome) :
    strictJsonParse (invoiceBody a b) MAX_JSON_DEPTH = .ok (invoiceEvent a b) := by
  cases hp : strictJsonParse (invoiceBody a b) MAX_JSON_DEPTH
  case error => simp [hp] at h; cases h
  case ok v =>
    have := strictJsonParse_iff (invoiceBody a b) MAX_JSON_DEPTH |>.right v hp |>.left
    rw [invoiceBody, parse_render (plain_invoiceEvent ha hb)] at this
    rw [Option.some.inj this]

theorem permuted_invoiceEvent (a b : ℕ) : Permuted (invoiceEvent a b) (invoiceEvent b a) where
  isObject     := rfl
  type         := rfl
  object       := rfl
  customer     := rfl
  subscription := rfl
  periodEnd    := rfl
  items        := .swap _ _ []

theorem parse_invoiceBody :
    strictJsonParse (invoiceBody 1 2) MAX_JSON_DEPTH = .ok (invoiceEvent 1 2) ∧
    strictJsonParse (invoiceBody 2 1) MAX_JSON_DEPTH = .ok (invoiceEvent 2 1) :=
  ⟨strictJsonParse_invoiceBody (by norm_num) (by norm_num) (by decide +kernel),
    strictJsonParse_invoiceBody (by norm_num) (by norm_num) (by decide +kernel)⟩

theorem length_invoiceBody :
    (Unicode.bufferFrom <| invoiceBody 1 2).length = (Unicode.bufferFrom <| invoiceBody 2 1).length := by
  decide +kernel

theorem neverPositional_iff_invoice :
    NeverPositional (invoiceBody 1 2) (invoiceBody 2 1) { } (invoiceEvent 1 2) ↔
      ¬ (Fits (invoiceBody 1 2) { } ∧ Positional none (invoiceEvent 1 2) (invoiceEvent 2 1)) :=
  neverPositional_iff parse_invoiceBody.left parse_invoiceBody.right (permuted_invoiceEvent 1 2) length_invoiceBody

-- The order of two lines of one price decides on the end of the period.
theorem not_neverPositional :
    (strictJsonParse (invoiceBody 1 2) MAX_JSON_DEPTH = .ok (invoiceEvent 1 2) ∧
      strictJsonParse (invoiceBody 2 1) MAX_JSON_DEPTH = .ok (invoiceEvent 2 1) ∧
      Permuted (invoiceEvent 1 2) (invoiceEvent 2 1)) ∧
    ¬ NeverPositional (invoiceBody 1 2) (invoiceBody 2 1) { } (invoiceEvent 1 2) := by
  refine ⟨⟨parse_invoiceBody.left, parse_invoiceBody.right, permuted_invoiceEvent 1 2⟩, fun h => ?_⟩
  have ha := h.agree
  have hn : (parseEvidenceEvent (invoiceBody 1 2) { }).toOption ≠ (parseEvidenceEvent (invoiceBody 2 1) { }).toOption := by
    decide +kernel
  exact hn ha

end

end Intake

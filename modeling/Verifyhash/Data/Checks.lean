import Verifyhash.Data.Text

-- Checks of values which throw an error with a message.
namespace Checks

open Json

-- A check which throws. Its message is `none` if a value in it cannot be converted to a string.
def require (check : Prop) [Decidable check] (message : Option JsString) : Except JsString Unit :=
  if check then .ok ()
  else .error <| message.getD <| js "Cannot convert object to primitive value"

-- The value of a field which passes a check.
def demand (field : Option α) (message : Option JsString) : Except JsString α :=
  match field with
  | some a => .ok a
  | none   => .error <| message.getD <| js "Cannot convert object to primitive value"

-- The text of a value in a message.
def shown (v : Value) : JsString :=
  (stringify v).getD <| js "undefined"

theorem require_eq_ok {c : Prop} [Decidable c] {message : Option JsString} : require c message = .ok u ↔ c := by
  rw [require]
  split_ifs with h <;> simp [h]

theorem demand_eq_ok {field : Option α} : demand field message = .ok a ↔ field = some a := by
  cases field <;> simp [demand]

end Checks

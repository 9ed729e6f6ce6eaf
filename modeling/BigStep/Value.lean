import BigStep.Expr.Code

/-!
# Values and environments

A value is an integer, a truth value or a closure; a closure keeps the environment in which its
function was made. An environment is a list of bindings, and a newer binding hides an older one of
the same name.

* `Env.extend`, `Env.last?`, `Env.withoutLast`, `Env.lookup?`: work at the newest binding.
* `Env.bindings`: the bindings, oldest first.
* `Value.text`, `Env.text`: the canonical text, as in `x = 1, f = (x = 1)[fun y -> x + y]`.
-/

namespace BigStep

mutual

/-- A value. -/
inductive Value
  | int (n : Int)
  | bool (b : Bool)
  | closure (env : Env) (code : Code)

/-- An environment: empty, or an older environment and the newest binding. -/
inductive Env
  | empty
  | extend (rest : Env) (name : String) (value : Value)

end

deriving instance DecidableEq for Value, Env
deriving instance Repr for Value, Env

instance : Inhabited Env := ⟨.empty⟩

mutual

/-- The canonical text of a value. A closure shows its environment and its code. -/
def Value.text : Value → String
  | .int n => Text.Decimal.write n
  | .bool true => "true"
  | .bool false => "false"
  | .closure env code => "(" ++ env.text ++ ")[" ++ code.text ++ "]"

/-- The canonical text of an environment: its bindings, oldest first. -/
def Env.text : Env → String
  | .empty => ""
  | .extend .empty name value => name ++ " = " ++ value.text
  | .extend rest name value => rest.text ++ ", " ++ name ++ " = " ++ value.text

end

namespace Value

/-- The integer that the value is. -/
def int? : Value → Option Int
  | int n => some n
  | _ => none

/-- The truth value that the value is. -/
def bool? : Value → Option Bool
  | bool b => some b
  | _ => none

end Value

namespace Env

/-- There are no bindings. -/
def isEmpty : Env → Bool
  | empty => true
  | extend _ _ _ => false

/-- The newest binding. -/
def last? : Env → Option (String × Value)
  | empty => none
  | extend _ name value => some (name, value)

/-- The environment without its newest binding. -/
def withoutLast : Env → Env
  | empty => empty
  | extend rest _ _ => rest

/-- The value of the newest binding of a name. -/
def lookup? : Env → String → Option Value
  | empty, _ => none
  | extend rest bound value, name => if bound = name then some value else rest.lookup? name

/-- The number of bindings, hidden ones included. -/
def size : Env → Nat
  | empty => 0
  | extend rest _ _ => rest.size + 1

/-- The bindings, oldest first. -/
def bindings : Env → List (String × Value)
  | empty => []
  | extend rest name value => rest.bindings ++ [(name, value)]

theorem length_bindings : (env : Env) → env.bindings.length = env.size
  | empty => rfl
  | extend rest _ _ => by simp [bindings, size, length_bindings rest]

end Env

end BigStep

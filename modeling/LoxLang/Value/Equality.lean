import LoxLang.Store.Basic

/-!
# Equality of values

Equal are the same nil, truth value, number or text, lists with equal elements, maps with the same
keys and equal values, and otherwise only what is the same place in the store. A list and a map are
equal to themselves without a look inside.

Lists and maps can contain themselves, so the comparison may not end by itself: it descends at most
`depth` levels, and halts where that is not enough.
-/

namespace LoxLang

namespace Value

/-- Every pair passes the test, which is applied until one fails. -/
def allPairs (test : Value → Value → Except Halt Bool) : List (Value × Value) → Except Halt Bool
  | [] => return true
  | (a, b) :: pairs => do
    if ← test a b then allPairs test pairs else return false

/-- The two maps have the same keys. -/
def sameKeys (a b : Entries) : Bool := a.size = b.size && a.keys.all b.contains

/-- The value of an entry of a map, and what `other` has for its key. -/
def withOther (other : Entries) (entry : Key × Value × Value) : Except Halt (Value × Value) :=
  match other.get? entry.1 with
  | some (_, value) => .ok (entry.2.2, value)
  | none => .error (.defect .noEntry)

/-- Two values are equal. -/
def equal {σ : Scoping} (store : Store σ) : (depth : Nat) → Value → Value → Except Halt Bool
  | 0, _, _ => .error .exhausted
  | depth + 1, a, b =>
    match a, b with
    | .number x, .number y => .ok (x == y)
    | .list x, .list y =>
      if x = y then .ok true
      else
        let xs := store.lists.get x
        let ys := store.lists.get y
        if xs.size = ys.size then allPairs (equal store depth) (xs.toList.zip ys.toList)
        else .ok false
    | .map x, .map y =>
      if x = y then .ok true
      else
        let xs := store.maps.get x
        let ys := store.maps.get y
        if sameKeys xs ys then do
          allPairs (equal store depth) (← xs.entries.mapM (withOther ys))
        else .ok false
    | a, b => .ok (a = b)

end Value

end LoxLang

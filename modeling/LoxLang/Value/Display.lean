import LoxLang.Store.Basic

/-!
# The text of a value

What `print` shows: a text by itself is shown bare, and inside of a list or a map in double quotes,
without any escapes. Values are counted by level: what a list or a map holds stands one level above
it, and level 0 is the one of bare texts. `Value.text?` descends at most `depth` times into lists
and maps, which can contain themselves, and gives nothing where that is not enough.
-/

namespace LoxLang

variable {σ : Scoping}

namespace Store

/-- The name of a class. -/
def className (s : Store σ) (cls : Ref .cls) : String := (s.classes.get cls).name

/-- The name of the class of an object. -/
def objectClassName (s : Store σ) (object : Ref .object) : String :=
  s.className (s.objects.get object).cls

/-- The name of a function. -/
def functionName (s : Store σ) (f : Ref .function) : String := (s.functions.get f).decl.name.text

end Store

/-- Texts in square brackets. -/
def bracketed (items : List String) : String := "[" ++ ", ".intercalate items ++ "]"

/-- Texts in braces. -/
def braced (items : List String) : String := "\x7b" ++ ", ".intercalate items ++ "\x7d"

namespace Value

/-- The text of a value that stands at `level`. -/
def text? (store : Store σ) : (depth : Nat) → (level : Int) → Value → Option String
  | 0, _, _ => none
  | depth + 1, level, v =>
    match v with
    | .nil => some "nil"
    | .bool b => some (if b then "true" else "false")
    | .number x => some x.text
    | .string s => some (if level = 0 then s else "\"" ++ s ++ "\"")
    | .list ref => do
      let items ← (store.lists.get ref).toList.mapM (text? store depth (level + 1))
      return bracketed items
    | .map ref => do
      let items ← (store.maps.get ref).entries.mapM fun (_, key, value) => do
        let shownKey ← text? store depth (level + 1) key
        let shownValue ← text? store depth (level + 1) value
        return shownKey ++ ": " ++ shownValue
      return braced items
    | .function ref => some ("<fn " ++ store.functionName ref ++ ">")
    | .native _ => some "<native fn>"
    | .cls ref => some (store.className ref)
    | .object ref => some (store.objectClassName ref ++ " instance")

end Value

end LoxLang

import LoxLang.Scoping.Frames
import LoxLang.Value.Display

/-!
# Listings of values

A listing tells more than the text of a value: whole numbers keep a point, texts are quoted with
escapes, and lists and maps are named. In the listing of a map the truth values count as the
numbers one and zero, so an entry for `true` and one for `1` are listed as one, with the first key
and the last value. `Frame.inspect?` and `Chain.inspect?` list variables in order of definition.
-/

namespace LoxLang

/-- A key in listings, where truth values count as numbers. -/
def Key.listed : Key → Key
  | .bool b => .number (if b then 1 else 0)
  | key => key

/-- The entries that a listing of a map shows. -/
def Entries.listed (entries : Entries) : List (Value × Value) :=
  let merge (t : Entries) (e : Key × Value × Value) : Entries :=
    let key := e.1.listed
    t.insert key (((t.get? key).map Prod.fst).getD e.2.1, e.2.2)
  (entries.entries.foldl merge .empty).entries.map Prod.snd

variable {σ : Scoping}

namespace Value

/-- The listing of a value. -/
def inspect? (store : Store σ) : (depth : Nat) → Value → Option String
  | 0, _ => none
  | depth + 1, v =>
    match v with
    | .nil => some "None"
    | .bool b => some (if b then "True" else "False")
    | .number x => some x.inspect
    | .string s => some (Text.quoted s)
    | .list ref => do
      let items ← (store.lists.get ref).toList.mapM (inspect? store depth)
      return "LoxList(" ++ bracketed items ++ ")"
    | .map ref => do
      let items ← (store.maps.get ref).listed.mapM fun (key, value) => do
        return (← inspect? store depth key) ++ ": " ++ (← inspect? store depth value)
      return "LoxMap(" ++ braced items ++ ")"
    | other => other.text? store 1 0

end Value

/-- The listing of a frame. -/
def Frame.inspect? (store : Store σ) (depth : Nat) (frame : Frame) : Option String := do
  let items ← frame.entries.mapM fun (name, value) => do
    return Text.quoted name ++ ": " ++ (← value.inspect? store depth)
  return braced items

/-- The listing of the frames of a chain. -/
def Chain.inspect? (store : Store .bound) (depth : Nat) (chain : Chain) : Option String := do
  let frames ← chain.mapM fun ref => (store.memory.get ref).inspect? store depth
  return " -> ".intercalate frames

end LoxLang

import LoxLang.Scoping.Basic
import LoxLang.Store.Arena
import LoxLang.Store.Containers

/-!
# The store

Everything that is shared by reference lives in the store: the memory of the variables, as the
scoping has it, and lists, maps, functions, classes and objects, each kind in an arena of its own.

The line of a class lists the class and the classes it inherits from, nearest first. It is a list of
references and not of links between classes, so to follow it is to walk down a list.
-/

namespace LoxLang

/-- A function with the scope it was declared in. -/
structure Closure (σ : Scoping) where
  decl : Function σ.Mark
  scope : σ.Scope
  /-- The function is the method that sets up new objects. -/
  isInitializer : Bool

/-- A class. -/
structure Class (σ : Scoping) where
  name : String
  /-- The classes it inherits from, nearest first. -/
  ancestors : List (Ref .cls)
  methods : Table String (Closure σ)

/-- An instance of a class. -/
structure Object where
  cls : Ref .cls
  fields : Table String Value
deriving Inhabited

variable {σ : Scoping}

instance : Inhabited (Closure σ) := ⟨⟨default, σ.top, false⟩⟩

instance : Inhabited (Class σ) := ⟨⟨"", [], .empty⟩⟩

/-- Everything that is shared by reference. -/
structure Store (σ : Scoping) where
  memory : σ.Memory
  lists : Arena .list Elements
  maps : Arena .map Entries
  functions : Arena .function (Closure σ)
  classes : Arena .cls (Class σ)
  objects : Arena .object Object

namespace Store

/-- The store with nothing in it but variables. -/
def ofMemory (memory : σ.Memory) : Store σ := ⟨memory, .empty, .empty, .empty, .empty, .empty⟩

/-- Open a scope in another one, with the given variables. -/
def enter (s : Store σ) (scope : σ.Scope) (locals : List (String × Value)) :
    σ.Scope × Store σ :=
  let (scope, memory) := σ.enter scope locals s.memory
  (scope, { s with memory := memory })

/-! ### Lists and maps -/

/-- Take in a new list. -/
def newList (s : Store σ) (elements : Elements) : Value × Store σ :=
  let (ref, lists) := s.lists.alloc elements
  (.list ref, { s with lists := lists })

/-- Take in a new map. -/
def newMap (s : Store σ) (entries : Entries) : Value × Store σ :=
  let (ref, maps) := s.maps.alloc entries
  (.map ref, { s with maps := maps })

/-- Change the elements of a list. -/
def modifyList (s : Store σ) (ref : Ref .list) (f : Elements → Elements) : Store σ :=
  { s with lists := s.lists.modify ref f }

/-- Change the entries of a map. -/
def modifyMap (s : Store σ) (ref : Ref .map) (f : Entries → Entries) : Store σ :=
  { s with maps := s.maps.modify ref f }

/-! ### Functions, classes and objects -/

/-- Take in a new function. -/
def newFunction (s : Store σ) (closure : Closure σ) : Value × Store σ :=
  let (ref, functions) := s.functions.alloc closure
  (.function ref, { s with functions := functions })

/-- Take in a new class. -/
def newClass (s : Store σ) (cls : Class σ) : Value × Store σ :=
  let (ref, classes) := s.classes.alloc cls
  (.cls ref, { s with classes := classes })

/-- Take in a new object without fields. -/
def newObject (s : Store σ) (cls : Ref .cls) : Ref .object × Store σ :=
  let (ref, objects) := s.objects.alloc ⟨cls, .empty⟩
  (ref, { s with objects := objects })

/-- Give a field of an object a value. -/
def setField (s : Store σ) (object : Ref .object) (name : String) (value : Value) : Store σ :=
  let set (o : Object) : Object := { o with fields := o.fields.insert name value }
  { s with objects := s.objects.modify object set }

/-- A class and the classes it inherits from, nearest first. -/
def line (s : Store σ) (cls : Ref .cls) : List (Ref .cls) := cls :: (s.classes.get cls).ancestors

/-- The method of the nearest class in the line that has one of the name. -/
def method? (s : Store σ) (cls : Ref .cls) (name : String) : Option (Closure σ) :=
  (s.line cls).findSome? fun c => (s.classes.get c).methods.get? name

/-- A method in whose scope `this` is the object. -/
def bindMethod (s : Store σ) (method : Closure σ) (object : Value) : Closure σ × Store σ :=
  let (scope, s) := s.enter method.scope [(Keyword.thisWord.text, object)]
  ({ method with scope := scope }, s)

end Store

end LoxLang

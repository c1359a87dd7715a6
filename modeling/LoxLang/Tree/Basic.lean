import LoxLang.Token.Basic

/-!
# Program trees

Expressions, statements and programs as trees. Each use of a variable, of `this` and of `super`
carries a mark of type `β`: a tree that has just been read has the mark `()` everywhere, and a
bound tree tells at each use where the variable is.

Symbols and keywords are not kept as tokens: an operator is a value of its own type, and of other
words only the line is kept where an error can point at it.
-/

namespace LoxLang

/-- An identifier with the line it stands on. -/
structure Name where
  text : String
  line : Int
deriving DecidableEq, Repr, Inhabited

/-- The token of a name. -/
def Name.token (n : Name) : Token := Token.ofName n.text n.line

/-- Operators before one operand. -/
inductive UnaryOp where
  | negate
  | complement
deriving DecidableEq, Repr

/-- Operators between two operands that are both evaluated. -/
inductive BinaryOp where
  | equal | notEqual | less | lessEqual | greater | greaterEqual
  | add | subtract | multiply | divide | remainder
deriving DecidableEq, Repr

/-- Operators that may leave the second operand alone. -/
inductive LogicalOp where
  | and
  | or
deriving DecidableEq, Repr

/-- The symbol of an operator. -/
def UnaryOp.symbol : UnaryOp → Symbol
  | negate => .minus
  | complement => .bang

/-- The symbol of an operator. -/
def BinaryOp.symbol : BinaryOp → Symbol
  | equal => .equalEqual
  | notEqual => .bangEqual
  | less => .less
  | lessEqual => .lessEqual
  | greater => .greater
  | greaterEqual => .greaterEqual
  | add => .plus
  | subtract => .minus
  | multiply => .star
  | divide => .slash
  | remainder => .percent

/-- The keyword of an operator. -/
def LogicalOp.keyword : LogicalOp → Keyword
  | and => .andWord
  | or => .orWord

/-- Values that are written out in a program. -/
inductive Constant where
  | nil
  | bool (b : Bool)
  | number (x : Number)
  | string (s : String)
deriving DecidableEq, Repr

/-- Expressions. -/
inductive Expr (β : Type) where
  | constant (value : Constant)
  | group (inner : Expr β)
  | unary (op : UnaryOp) (line : Int) (operand : Expr β)
  | binary (left : Expr β) (op : BinaryOp) (line : Int) (right : Expr β)
  | logical (left : Expr β) (op : LogicalOp) (line : Int) (right : Expr β)
  | var (name : Name) (mark : β)
  | assign (name : Name) (value : Expr β) (mark : β)
  /-- The line is that of the closing parenthesis. -/
  | call (callee : Expr β) (arguments : List (Expr β)) (line : Int)
  | list (elements : List (Expr β)) (line : Int)
  | map (entries : List (Expr β × Expr β)) (line : Int)
  /-- The line is that of the opening bracket. -/
  | index (container position : Expr β) (line : Int)
  | setIndex (container position value : Expr β) (line : Int)
  | get (object : Expr β) (name : Name)
  | set (object : Expr β) (name : Name) (value : Expr β)
  | thisRef (line : Int) (mark : β)
  | superRef (line : Int) (method : Name) (mark : β)
deriving Inhabited

/-- Statements that only name their operands: they are read and bound, and do nothing. -/
inductive Marker (β : Type) where
  | set (name : Name) (value : Expr β)
  /-- A variable, the properties that lead on from it, and arguments. -/
  | build (root : Name) (mark : β) (path : List Name) (arguments : List (Expr β))
  | walk (operand : Expr β)
  | check (operand : Expr β)
  | thru (operand : Expr β)
  | otherwise

/-- The keyword that a marker begins with. -/
def Marker.keyword {β : Type} : Marker β → Keyword
  | set .. => .setWord
  | build .. => .buildWord
  | walk _ => .walkWord
  | check _ => .checkWord
  | thru _ => .thruWord
  | otherwise => .otherwiseWord

mutual

/-- Statements. The line of a jump and of a marker is that of its keyword. -/
inductive Stmt (β : Type) where
  | expression (value : Expr β)
  | print (value : Expr β)
  | var (name : Name) (initializer : Option (Expr β))
  | block (body : List (Stmt β))
  | branch (condition : Expr β) (yes : Stmt β) (no : Option (Stmt β))
  | whileLoop (condition : Expr β) (body : Stmt β)
  | doWhile (body : Stmt β) (condition : Expr β)
  | breakLoop (line : Int)
  | continueLoop (line : Int)
  | returnValue (line : Int) (value : Option (Expr β))
  | function (decl : Function β)
  | classDecl (name : Name) (superclass : Option (Name × β)) (methods : List (Function β))
  | marker (line : Int) (marker : Marker β)

/-- Functions and methods. -/
structure Function (β : Type) where
  name : Name
  params : List Name
  body : List (Stmt β)

end

instance {β : Type} : Inhabited (Stmt β) := ⟨.block []⟩

instance {β : Type} : Inhabited (Function β) := ⟨⟨default, [], []⟩⟩

/-- A program is a sequence of statements. -/
abbrev Program (β : Type) := List (Stmt β)

/-- The expression that a `build` marker names. -/
def Expr.path {β : Type} (root : Name) (mark : β) (path : List Name) : Expr β :=
  path.foldl .get (.var root mark)

end LoxLang

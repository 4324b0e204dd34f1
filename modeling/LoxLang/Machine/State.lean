import LoxLang.Machine.Operator
import LoxLang.Scope.Table

/-! # The machine

What a running program reads and changes, and the single steps it takes. An action ends with a
result, with a runtime error or with a fault; whatever it changed before stays changed. -/

namespace LoxLang

/-- The state of a running program. -/
structure Machine where
  /-- The scopes; the first is that of the global variables. -/
  store : Store Value
  /-- The fields of the objects. -/
  objects : Array (Bindings Value)
  /-- The number of the next function or class. -/
  nextId : Nat
  /-- What was printed. -/
  output : String
  /-- How often the clock was read. -/
  readings : Nat

/-- Why an action has no result. -/
inductive Halt
  | error (e : RuntimeError)
  | fault (f : Fault)

/-- A part of the execution of a program. -/
abbrev Action := EStateM Halt Machine

/-- How a running program reaches what its references mean. -/
structure Access where
  /-- The value of a name or of `this`. -/
  read : Env → Ref Label → Action Value
  /-- Gives a name another value. -/
  assign : Env → Ref Label → Value → Action Unit
  /-- What `super` and `this` are where `super` is used. -/
  parent : Env → Ref Label → Action (Value × Value)

/-- What a run of a program can look at but not change. -/
structure Setting where
  access : Access
  /-- What the clock shows at each reading. -/
  clock : Nat → Float
  /-- How often a loop can go round. -/
  rounds : Nat

namespace Machine

/-- The environment of statements outside all blocks and functions. -/
def globalEnv : Env := [0]

/-- A machine before its first program. The clock is the one variable there is. -/
def start : Machine where
  store := Store.empty.push (Bindings.empty.insert "clock" .clock)
  objects := #[]
  nextId := 0
  output := ""
  readings := 0

/-- The global variables. -/
def globals (m : Machine) : Bindings Value := m.store.scope 0

/-- The fields of an object. -/
def fields (id : Nat) (m : Machine) : Bindings Value := (m.objects[id]?).getD Bindings.empty

end Machine

namespace Action

variable {α : Type}

/-- Ends with a runtime error at a token. -/
def fail (fault : RuntimeFault) (place : Token) : Action α := throw (.error ⟨fault, place⟩)

/-- The result of a computation that may fail. -/
def ofExcept : Except RuntimeError α → Action α
  | .ok a => pure a
  | .error e => throw (.error e)

/-- The result of an access that the bindings of a program keep from failing. -/
def ofAccess : Except Fault α → Action α
  | .ok a => pure a
  | .error f => throw (.fault f)

/-- Prints a value on a line of its own. -/
def print (value : Value) : Action Unit :=
  modify fun m => { m with output := m.output ++ value.display ++ "\n" }

/-- A number that no function or class has yet. -/
def freshId : Action Nat := modifyGet fun m => (m.nextId, { m with nextId := m.nextId + 1 })

/-- A new scope with the given variables, inside an environment. -/
def enter (vars : Bindings Value) (env : Env) : Action Env :=
  modifyGet fun m => (m.store.nextId :: env, { m with store := m.store.push vars })

/-- A new object without fields. -/
def newObject (c : ClassValue) : Action Value :=
  modifyGet fun m =>
    (.object m.objects.size c, { m with objects := m.objects.push Bindings.empty })

/-- Makes a variable of the innermost scope, or gives it another value. -/
def define (env : Env) (name : String) (value : Value) : Action Unit :=
  modify fun m => { m with store := m.store.define env name value }

/-- The value of the variable `hops` scopes out. -/
def getAt (env : Env) (hops : Int) (name : String) : Action Value := do
  ofAccess ((← get).store.getAt env hops name)

/-- The value of a variable: of the local one that the reference is bound to, else of the global
one with its name. -/
def read (table : BindingTable) (env : Env) (ref : Ref Label) : Action Value := do
  match table.hops? ref.label with
  | some hops => getAt env hops ref.name.lexeme
  | none =>
    match (← get).store.lookup? Machine.globalEnv ref.name.lexeme with
    | some value => return value
    | none => fail (.undefinedVariable ref.name.lexeme) ref.name

/-- Gives a variable a value: the local one that the reference is bound to, else the global one
with its name, which has to be there. -/
def assign (table : BindingTable) (env : Env) (ref : Ref Label) (value : Value) :
    Action Unit := do
  match table.hops? ref.label with
  | some hops => define (← ofAccess (env.leave hops)) ref.name.lexeme value
  | none =>
    match (← get).store.home? Machine.globalEnv ref.name.lexeme with
    | some id => define [id] ref.name.lexeme value
    | none => fail (.undefinedVariable ref.name.lexeme) ref.name

/-- What `super` and `this` are where `super` is used; `this` stands one scope further in. -/
def parent (table : BindingTable) (env : Env) (ref : Ref Label) : Action (Value × Value) := do
  match table.hops? ref.label with
  | none => throw (.fault .unboundSuper)
  | some hops =>
    let above ← getAt env hops "super"
    let object ← getAt env (hops - 1) "this"
    return (above, object)

/-- Gives a field of an object a value. -/
def setField (id : Nat) (name : String) (value : Value) : Action Unit :=
  modify fun m => { m with objects := m.objects.modify id (fun b => b.insert name value) }

/-- A method taken from an object: the same function, in a scope where `this` is the object. -/
def takeMethod (object : Value) (method : Closure) : Action Closure := do
  let env ← enter (Bindings.empty.insert "this" object) method.env
  return { method with id := ← freshId, env := env }

/-- A property of an object: its field, or else its method. -/
def property (id : Nat) (c : ClassValue) (name : Token) : Action Value := do
  match ((← get).fields id).get? name.lexeme with
  | some value => return value
  | none =>
    match c.method? name.lexeme with
    | some method => return .function (← takeMethod (.object id c) method)
    | none => fail (.undefinedProperty name.lexeme) name

/-- The method that `super` gives: that of the class bound to `super`, taken from the object
bound to `this`. -/
def superMethod (access : Access) (env : Env) (ref : Ref Label) (name : Token) :
    Action Value := do
  match ← access.parent env ref with
  | (.classOf c, .object id d) =>
    match c.method? name.lexeme with
    | some method => return .function (← takeMethod (.object id d) method)
    | none => fail (.undefinedProperty name.lexeme) name
  | _ => throw (.fault .misplacedSuper)

/-- What the clock shows now. -/
def readClock (setting : Setting) : Action Value :=
  modifyGet fun m => (.number (setting.clock m.readings), { m with readings := m.readings + 1 })

end Action

/-- References reach their variables by the bindings of a table. -/
def Access.byHops (table : BindingTable) : Access where
  read := Action.read table
  assign := Action.assign table
  parent := Action.parent table

end LoxLang

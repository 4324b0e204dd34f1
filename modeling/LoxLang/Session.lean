import LoxLang.Grammar.Program
import LoxLang.Log
import LoxLang.Machine.Evaluate
import LoxLang.Scope.Binder

/-! # Sessions

A session runs one source text after another. Variables, functions and classes stay from one to
the next; the reports of a run are cleared when the next one begins. A source that has errors
before execution is not executed. -/

namespace LoxLang

/-- What the embedding program decides about a session. -/
structure Config where
  /-- How deep programs, and the calls of a running program, can nest. -/
  nesting : Nat
  /-- How often a loop can go round. -/
  rounds : Nat
  /-- What the clock shows at each reading. -/
  clock : Nat → Float

namespace Config

/-- Limits that only programs out of hand reach. -/
def standard (clock : Nat → Float) : Config := ⟨1000, Nat.pow 2 60, clock⟩

end Config

/-- What one run leaves to the next. -/
structure Session where
  machine : Machine
  table : BindingTable
  /-- The label of the next reference. -/
  nextLabel : Label
  log : Log

namespace Session

/-- A session before its first source, whose log passes its reports on or does not. -/
def start (passesOn : Bool) : Session := ⟨Machine.start, BindingTable.empty, 0, Log.start passesOn⟩

/-- Puts a text behind what was printed. -/
def print (text : String) (s : Session) : Session :=
  { s with machine := { s.machine with output := s.machine.output ++ text } }

/-- What was printed and what the log passed on since the last call, and the session with neither
any more. -/
def drain (s : Session) : (String × String) × Session :=
  ((s.machine.output, s.log.written.getD ""),
    { s with
      machine := { s.machine with output := "" }
      log := { s.log with written := s.log.written.map (fun _ => "") } })

/-- Labels the references of a program, each with a label that is new to the session. -/
def adopt {ι : Type} (program : List (Stmt ι)) (s : Session) : List (Stmt Label) × Session :=
  let (program, next) := Stmt.relabelAll s.nextLabel program
  (program, { s with nextLabel := next })

/-- Binds the references of a program. -/
def bind (config : Config) (program : List (Stmt Label)) (s : Session) :
    List ScopeError × Option Fault × Session :=
  let found := bindProgram config.nesting program s.table
  (found.errors, found.fault, { s with table := found.table })

/-- Drops the bindings that no later run needs. -/
def dropTopLevel (s : Session) : Session := { s with table := s.table.dropTopLevel }

/-- Executes a program, whose references are reached in the given way, and reports the runtime
error that ends it, if one does. -/
def executeVia (access : BindingTable → Access) (config : Config) (program : List (Stmt Label))
    (s : Session) : Except Fault (Option RuntimeError) × Session :=
  match Machine.runProgram ⟨access s.table, config.clock, config.rounds⟩ config.nesting program
      s.machine with
  | .ok _ m => (.ok none, { s with machine := m })
  | .error (.error e) m =>
    (.ok (some e), { s with machine := m, log := s.log.report e.diagnostic })
  | .error (.fault f) m => (.error f, { s with machine := m })

/-- Executes a program, whose references are bound, and reports the runtime error that ends it, if
one does. -/
def execute (config : Config) (program : List (Stmt Label)) (s : Session) :
    Except Fault (Option RuntimeError) × Session :=
  s.executeVia Access.byHops config program

/-- Binds and executes a program, unless binding finds errors. -/
def bindAndExecute (access : BindingTable → Access) (config : Config)
    (program : List (Stmt Label)) (s : Session) : Option Fault × Session :=
  match s.bind config program with
  | (_, some f, s) => (some f, s)
  | (errors, none, s) =>
    let s := { s with log := s.log.reportAll (errors.map ScopeError.diagnostic) }
    if s.log.hasError then (none, s)
    else
      match s.executeVia access config program with
      | (.ok _, s) => (none, s)
      | (.error f, s) => (some f, s)

/-- Reads the program of a source text and reports what is wrong with the text; if anything is,
there is no program to go on with. -/
def read (config : Config) (source : String) (s : Session) :
    Except Fault (Option (List (Stmt Unit))) × Session :=
  let found := Source.tokenize source
  match parse config.nesting found.tokens with
  | .error f => (.error f, s)
  | .ok parsed =>
    let log := s.log.reportAll (found.errors.map LexicalError.diagnostic ++
      parsed.errors.map SyntaxError.diagnostic)
    (.ok (if log.hasError then none else some parsed.program), { s with log := log })

/-- Runs a source text, whose references are reached in the given way. The fault is what stopped
the run, if anything did that is not an error of the program. -/
def runVia (access : BindingTable → Access) (config : Config) (source : String) (s : Session) :
    Option Fault × Session :=
  match { s with log := s.log.clear }.read config source with
  | (.error f, s) => (some f, s)
  | (.ok none, s) => (none, s)
  | (.ok (some program), s) =>
    let (program, s) := s.adopt program
    let (fault, s) := s.bindAndExecute access config program
    (fault, s.dropTopLevel)

/-- Runs a source text: its references are reached by the bindings in the table. -/
def run (config : Config) (source : String) (s : Session) : Option Fault × Session :=
  s.runVia Access.byHops config source

end Session

end LoxLang

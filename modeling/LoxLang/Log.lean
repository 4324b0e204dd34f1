import LoxLang.Diagnostic

/-! # The log of diagnostics

A log keeps the reports of the current run, those of the running program apart from the others,
and passes each on at once as text if it has somebody to pass it on to. -/

namespace LoxLang

/-- The reports of a run. -/
structure Log where
  /-- What the stages before execution reported. -/
  errors : List Diagnostic
  /-- What the running program reported. -/
  runtimeErrors : List Diagnostic
  /-- The text passed on so far, if the log passes reports on. -/
  written : Option String

namespace Log

/-- A log without reports that passes them on or does not. -/
def start (passesOn : Bool) : Log := ⟨[], [], if passesOn then some "" else none⟩

/-- Some report was made before execution. -/
def hasError (log : Log) : Bool := !log.errors.isEmpty

/-- The running program reported something. -/
def hasRuntimeError (log : Log) : Bool := !log.runtimeErrors.isEmpty

/-- Passes a text on. -/
def write (text : String) (log : Log) : Log :=
  { log with written := log.written.map (· ++ text) }

/-- Takes down a report. -/
def report (d : Diagnostic) (log : Log) : Log :=
  let log :=
    if d.isRuntime then { log with runtimeErrors := log.runtimeErrors ++ [d] }
    else { log with errors := log.errors ++ [d] }
  log.write (d.render ++ "\n")

/-- Takes down reports in their order. -/
def reportAll (ds : List Diagnostic) (log : Log) : Log := ds.foldl (fun log d => log.report d) log

/-- Forgets the reports; what was passed on stays. -/
def clear (log : Log) : Log := { log with errors := [], runtimeErrors := [] }

end Log

end LoxLang

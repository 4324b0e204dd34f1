import LoxLang.Command.Console

/-! # The command line

Opens files, reads the lines typed at the prompt, and writes what the console says. -/

namespace LoxLang
namespace CommandLine

/-- The usual names of the failures to open a file. -/
def reason : Nat → String
  | 13 => "Permission denied"
  | 20 => "Not a directory"
  | 21 => "Is a directory"
  | 36 => "File name too long"
  | 40 => "Too many levels of symbolic links"
  | _ => "Input/output error"

/-- A failure by its number, which some systems give with a minus sign. -/
def failure (code : UInt32) : OpenError :=
  let number := min code.toNat (-code).toNat
  .failed number (reason number)

/-- Why a file did not open. -/
def openError : IO.Error → OpenError
  | .noFileOrDirectory _ _ _ => .notFound
  | .inappropriateType _ code _ | .permissionDenied _ code _ | .invalidArgument _ code _
  | .otherError code _ => failure code
  | _ => failure 5

/-- The content of a file. -/
def content (path : String) : IO (Except OpenError ByteArray) := do
  try
    return .ok (← IO.FS.readBinFile path)
  catch e =>
    return .error (openError e)

/-- Writes what a session has to say, and yields it with nothing left to say. -/
def say (s : Session) : IO Session := do
  let ((out, err), s) := s.drain
  (← IO.getStdout).putStr out
  (← IO.getStdout).flush
  (← IO.getStderr).putStr err
  return s

/-- Asks for lines and processes them until there are no more or one is broken off. -/
def converse (config : Config) (mode : Mode) : IO Exit := do
  let mut s ← say (Console.ask Console.start)
  repeat
    let line ← (← IO.getStdin).getLine
    if line.isEmpty then
      let _ ← say (s.print "\n")
      break
    let (exit, next) := Console.process config mode line s
    if let .brokenOff _ := exit then
      let _ ← say next
      return exit
    s ← say (Console.ask next)
  return .success

/-- Writes an outcome. -/
def finish (outcome : Outcome) : IO Exit := do
  (← IO.getStdout).putStr outcome.out
  (← IO.getStdout).flush
  (← IO.getStderr).putStr outcome.err
  return outcome.exit

/-- Does what the arguments ask for. -/
def run (arguments : List String) : IO Exit := do
  let now := (← IO.monoNanosNow).toFloat / 1e9
  let config := Config.standard fun _ => now
  match Request.ofArguments arguments with
  | .prompt mode => converse config mode
  | .script path mode => finish (Console.script config mode path (← content path))
  | _ => finish (Console.command config arguments (fun _ => .error .notFound) [])

end CommandLine
end LoxLang

/-- The command. -/
def main (arguments : List String) : IO UInt32 := do
  return UInt32.ofNat (← LoxLang.CommandLine.run arguments).code

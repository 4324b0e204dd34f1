/-! # Requests

What the arguments of the command ask for. They are read from the left, and the first that decides
the request ends the reading. -/

namespace LoxLang

/-- What is done with a source text. -/
inductive Mode
  /-- The program is run. -/
  | run
  /-- The program is shown. -/
  | program
  /-- The tokens are shown. -/
  | tokens
  deriving DecidableEq, Repr

/-- What the command is asked for. -/
inductive Request
  | help
  | unknownFlag (flag : String)
  | tooManyFiles
  | prompt (mode : Mode)
  | script (path : String) (mode : Mode)
  deriving DecidableEq, Repr

namespace Request

/-- Reads arguments, given the file and the mode so far. An empty argument names no file, and is
passed over while there is none. -/
def read (file : Option String) (mode : Mode) : List String → Request
  | [] =>
    match file with
    | none => prompt mode
    | some path => script path mode
  | argument :: rest =>
    if argument = "--help" ∨ argument = "-h" then help
    else if argument = "--ast" then read file .program rest
    else if argument = "--tokens" then read file .tokens rest
    else if argument.startsWith "-" then unknownFlag argument
    else
      match file with
      | some _ => tooManyFiles
      | none => read (if argument = "" then none else some argument) mode rest

/-- The request that arguments make. -/
def ofArguments (arguments : List String) : Request := read none .run arguments

end Request

/-- How the command is used. -/
def usage : String :=
  "lox [OPTIONS] [FILE]\n" ++
  "\n" ++
  "Run a Lox script, or start an interactive prompt when FILE is omitted.\n" ++
  "\n" ++
  "Options:\n" ++
  "  --ast      Print the parsed program instead of running it\n" ++
  "  --tokens   Print the scanned tokens instead of running it\n" ++
  "  --help     Show this help message\n"

end LoxLang

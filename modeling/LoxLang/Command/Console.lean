import LoxLang.Command.File
import LoxLang.Command.Request
import LoxLang.Session
import LoxLang.Syntax.Render

/-! # The command

What the command writes and how it exits. A script is one source text; at the prompt each line is
one, and the session goes on from line to line, whatever errors there are. -/

namespace LoxLang

/-- How the command ends. -/
inductive Exit
  | success
  | unknownFlag
  | wrongUsage
  /-- The source text has errors, or is no text. -/
  | badInput
  | noInput
  /-- The program failed while it ran. -/
  | failure
  /-- Processing broke off without an answer: a loop outlasted the limit, or a stage was handed what
  the one before it never makes. -/
  | brokenOff (f : Fault)
  deriving DecidableEq, Repr

/-- The number that the caller of the command sees. -/
def Exit.code : Exit → Nat
  | success => 0
  | unknownFlag => 2
  | wrongUsage => 64
  | badInput => 65
  | noInput => 66
  | failure => 70
  | brokenOff _ => 1

/-- What the command writes and how it ends. -/
structure Outcome where
  exit : Exit
  out : String
  err : String

namespace Console

/-- Shows the tokens of a source text. -/
def showTokens (source : String) (s : Session) : Session :=
  let found := Source.tokenize source
  let s := { s with log := s.log.reportAll (found.errors.map LexicalError.diagnostic) }
  found.tokens.foldl (fun s t => s.print (t.describe ++ "\n")) s

/-- Shows the program of a source text, unless the text has errors. -/
def showProgram (config : Config) (source : String) (s : Session) : Option Fault × Session :=
  match s.read config source with
  | (.error f, s) => (some f, s)
  | (.ok none, s) => (none, s)
  | (.ok (some program), s) =>
    match renderProgram config.nesting program with
    | .error f => (some f, s)
    | .ok text => (none, s.print (text ++ "\n"))

/-- Does with a source text what the mode asks for. -/
def perform (config : Config) (mode : Mode) (source : String) (s : Session) :
    Option Fault × Session :=
  let s := { s with log := s.log.clear }
  match mode with
  | .tokens => (none, showTokens source s)
  | .program => showProgram config source s
  | .run => s.run config source

/-- What is written when a program nests too deep. -/
def overflowNotice : String := "Stack overflow.\n"

/-- Processes a source text; the exit is the one that the text alone would lead to. Only for too
deep a nesting is there a notice; any other fault breaks the processing off. -/
def process (config : Config) (mode : Mode) (source : String) (s : Session) : Exit × Session :=
  match perform config mode source s with
  | (some .tooDeep, s) => (.failure, { s with log := s.log.write overflowNotice })
  | (some f, s) => (.brokenOff f, s)
  | (none, s) =>
    if s.log.hasError then (.badInput, s)
    else if s.log.hasRuntimeError then (.failure, s)
    else (.success, s)

/-- A session at the console. -/
def start : Session := Session.start true

/-- The outcome of a session that ends in the given way. -/
def outcome (exit : Exit) (s : Session) : Outcome :=
  ⟨exit, s.machine.output, s.log.written.getD ""⟩

/-- A message of the command itself. -/
def complaint (text : String) : String := "lox: " ++ text ++ "\n"

/-- Processes the file of the given name, of which either the content is given or the reason why
it does not open. -/
def script (config : Config) (mode : Mode) (path : String)
    (content : Except OpenError ByteArray) : Outcome :=
  match content with
  | .error e => ⟨.noInput, "", complaint (path ++ ": " ++ e.message path)⟩
  | .ok bytes =>
    match String.fromUTF8? bytes with
    | none => ⟨.badInput, "", complaint (path ++ ": invalid utf-8")⟩
    | some source =>
      let (exit, s) := process config mode source start
      outcome exit s

/-- What asks for a line. -/
def promptText : String := "> "

/-- Asks for a line. -/
def ask (s : Session) : Session := s.print promptText

/-- Processes lines, of which the first has been asked for, until there are no more or one is
broken off. -/
def converse (config : Config) (mode : Mode) : List String → Session → Exit × Session
  | [], s => (.success, s.print "\n")
  | line :: lines, s =>
    match process config mode line s with
    | (.brokenOff f, s) => (.brokenOff f, s)
    | (_, s) => converse config mode lines (ask s)

/-- Asks for lines and processes them. -/
def prompt (config : Config) (mode : Mode) (lines : List String) : Outcome :=
  let (exit, s) := converse config mode lines (ask start)
  outcome exit s

/-- The lines of a text, each with the line end that ends it. -/
def linesOf (text : String) : List String :=
  (text.toList.foldr putBefore []).map String.ofList
where
  /-- Puts a character before the first of some lines. -/
  putBefore (c : Char) : List (List Char) → List (List Char)
    | [] => [[c]]
    | line :: rest => if c = '\n' then [c] :: line :: rest else (c :: line) :: rest

/-- The whole command: its arguments, the files there are, and the lines typed at the prompt. -/
def command (config : Config) (arguments : List String)
    (file : String → Except OpenError ByteArray) (lines : List String) : Outcome :=
  match Request.ofArguments arguments with
  | .help => ⟨.success, usage, ""⟩
  | .unknownFlag flag => ⟨.unknownFlag, "", complaint ("unknown flag '" ++ flag ++ "'")⟩
  | .tooManyFiles => ⟨.wrongUsage, "", usage⟩
  | .prompt mode => prompt config mode lines
  | .script path mode => script config mode path (file path)

end Console

end LoxLang

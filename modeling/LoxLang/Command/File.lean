import LoxLang.Text.Quoted

/-! # Files

Why a file may not open, and a directory of files to open them in. A path starts in the directory,
or at the top if its first character is a slash; its parts are separated by slashes, a part `.`
stays where it is, and a part `..` goes up. -/

namespace LoxLang

/-- Why a file does not open. -/
inductive OpenError
  | notFound
  /-- A failure with its number and its name. -/
  | failed (code : Nat) (reason : String)
  deriving DecidableEq, Repr

namespace OpenError

/-- A directory is no file. -/
def isDirectory : OpenError := failed 21 "Is a directory"

/-- A file has no files in it. -/
def notDirectory : OpenError := failed 20 "Not a directory"

/-- No file has a name that long. -/
def nameTooLong : OpenError := failed 36 "File name too long"

/-- The report of a failure to open the file of the given name. -/
def message (path : String) : OpenError → String
  | notFound => "No such file or directory"
  | failed code reason =>
    "[Errno " ++ toString code ++ "] " ++ reason ++ ": " ++ Quoted.quote path

end OpenError

/-- What a name in a directory stands for. -/
inductive Entry
  | file (content : ByteArray)
  | directory

/-- A directory: what is in it and in the directories in it, each by the parts of its path. -/
abbrev Directory := List (List String × Entry)

namespace Directory

/-- The number of bytes that a name can have. -/
def maxNameBytes : Nat := 255

/-- The number of bytes that a path can have. -/
def maxPathBytes : Nat := 4095

/-- A place that a path leads through. -/
inductive Place
  /-- A place in the directory, by the names on the way to it. -/
  | inside (names : List String)
  /-- A directory that the directory is in, however far up. Nothing else is known to be in it. -/
  | above
  deriving DecidableEq, Repr

namespace Place

/-- The place that a path starts at. -/
def start (path : String) : Place := if path.startsWith "/" then above else inside []

/-- The place one up. There is no way up from the top, which is above everything. -/
def parent : Place → Place
  | inside names => if names.isEmpty then above else inside names.dropLast
  | above => above

/-- The place that a part of a path leads to. -/
def step (place : Place) (part : String) : Except OpenError Place :=
  if part = ".." then .ok place.parent
  else if maxNameBytes < part.utf8ByteSize then .error .nameTooLong
  else
    match place with
    | inside names => .ok (inside (names ++ [part]))
    | above => .error .notFound

end Place

/-- The parts of a path that lead somewhere. -/
def parts (path : String) : List String :=
  (path.splitOn "/").filter (fun part => part ≠ "" ∧ part ≠ ".")

/-- What is at a place. The way to an entry is a directory itself. -/
def entry (d : Directory) : Place → Except OpenError Entry
  | .above => .ok .directory
  | .inside names =>
    if names.isEmpty then .ok .directory
    else
      match d.lookup names with
      | some e => .ok e
      | none => if d.any (fun e => names.isPrefixOf e.1) then .ok .directory else .error .notFound

/-- Follows the parts of a path from a place on. Only a directory has a part that leads on. -/
def follow (d : Directory) (place : Place) : List String → Except OpenError Entry
  | [] => d.entry place
  | part :: rest =>
    match d.entry place with
    | .error e => .error e
    | .ok (.file _) => .error .notDirectory
    | .ok .directory =>
      match place.step part with
      | .error e => .error e
      | .ok next => follow d next rest

/-- The content of the file that a path names. A path that ends in a slash names a directory. -/
def read (d : Directory) (path : String) : Except OpenError ByteArray :=
  if maxPathBytes < path.utf8ByteSize then .error .nameTooLong
  else
    match d.follow (Place.start path) (parts path) with
    | .error e => .error e
    | .ok .directory => .error .isDirectory
    | .ok (.file content) =>
      if path.endsWith "/" ∨ path.endsWith "/." then .error .notDirectory else .ok content

end Directory

end LoxLang

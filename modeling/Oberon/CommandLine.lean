import Oberon.Build

/-!
# The command line

* `compile FILES…` compiles modules; `--max-symbols` and `--name-buffer` set the limits, and `-v` or
  `--verbose` is accepted.
* `lex FILE` lists the tokens of a file.

Options stand before, between or behind the files, each at most once; `--` ends them.
-/

namespace Oberon

/-- What a command line asks for. -/
inductive Command
  | compile (files : List String) (limits : Limits)
  | lex (file : String)
  deriving DecidableEq, Repr

/-- Why a command failed. -/
inductive CommandError
  | build (error : BuildError)
  | unreadable (path : String) (fault : FileFault)
  | malformed (path : String) (error : ScanError)
  deriving DecidableEq, Repr

/-- The wording of a failed command. -/
def CommandError.message : CommandError → String
  | build error => error.message
  | unreadable path fault => "failed to read file '" ++ path ++ "': " ++ fault.message
  | malformed path error => "failed to tokenize '" ++ path ++ "': " ++ error.message

/-- What a run of the program leaves behind besides files. -/
structure Report where
  exitCode : UInt32 := 0
  output : String := ""
  errors : String := ""
  deriving DecidableEq, Repr

namespace Command

/-- A number that fits 64 bits, in decimal digits with an optional plus in front. -/
def capacity? (text : String) : Option Nat :=
  let digits := match text.toList with
    | '+' :: rest => rest
    | all => all
  let value := Magnitude.ofDigits 10 digits
  if digits ≠ [] ∧ digits.all Char.isDigit ∧ value < Magnitude.wordLimit then some value else none

/-- The arguments of `compile` read so far; files stand last one first. -/
structure Draft where
  files : List String := []
  symbols : Option Nat := none
  nameBytes : Option Nat := none
  verbose : Bool := false

namespace Draft

/-- Adds a file; a file has a name. -/
def addFile (d : Draft) (file : String) : Option Draft :=
  if file = "" then none else some { d with files := file :: d.files }

/-- Sets the limit of symbols, once. -/
def setSymbols (d : Draft) (text : String) : Option Draft :=
  if d.symbols.isSome then none
  else (capacity? text).map fun n => { d with symbols := some n }

/-- Sets the limit of name bytes, once. -/
def setNameBytes (d : Draft) (text : String) : Option Draft :=
  if d.nameBytes.isSome then none
  else (capacity? text).map fun n => { d with nameBytes := some n }

/-- Asks for more messages, once. -/
def setVerbose (d : Draft) : Option Draft :=
  if d.verbose then none else some { d with verbose := true }

/-- The command, if there is a file. -/
def command? (d : Draft) : Option Command :=
  if d.files.isEmpty then none
  else some (.compile d.files.reverse
    ⟨d.symbols.getD ({} : Limits).symbols, d.nameBytes.getD ({} : Limits).nameBytes⟩)

end Draft

/-- What follows a name and an equals sign. -/
def valueOf? (name argument : String) : Option String :=
  let start := name.toList ++ ['=']
  if start.isPrefixOf argument.toList then
    some (String.ofList (argument.toList.drop start.length))
  else
    none

/-- Whether an argument is written like an option; a single dash is a file. -/
def isOption (argument : String) : Bool :=
  argument.toList.head? == some '-' && argument != "-"

/-- An argument that is an option with its value, or a file. -/
def single (d : Draft) (argument : String) : Option Draft :=
  match valueOf? "--max-symbols" argument, valueOf? "--name-buffer" argument with
  | some text, _ => d.setSymbols text
  | none, some text => d.setNameBytes text
  | none, none => if isOption argument then none else d.addFile argument

/-- The arguments of `compile`. -/
def readArguments : List String → Draft → Option Draft
  | [], d => some d
  | "--" :: files, d => files.foldlM Draft.addFile d
  | "--max-symbols" :: text :: rest, d => (d.setSymbols text).bind (readArguments rest)
  | "--name-buffer" :: text :: rest, d => (d.setNameBytes text).bind (readArguments rest)
  | "-v" :: rest, d => d.setVerbose.bind (readArguments rest)
  | "--verbose" :: rest, d => d.setVerbose.bind (readArguments rest)
  | argument :: rest, d => (single d argument).bind (readArguments rest)

/-- Arguments that are files only. -/
def filesOnly? : List String → Option (List String)
  | [] => some []
  | "--" :: files => some files
  | argument :: rest => if isOption argument then none else (filesOnly? rest).map (argument :: ·)

/-- The command of an argument list, if it is one. -/
def ofArguments? : List String → Option Command
  | "compile" :: arguments => (readArguments arguments {}).bind Draft.command?
  | "lex" :: arguments =>
    match filesOnly? arguments with
    | some [file] => if file = "" then none else some (.lex file)
    | _ => none
  | _ => none

/-- One line of a token listing. -/
def listingLine (path : String) (t : Token) : String :=
  path ++ ":" ++ t.position.shown ++ " " ++ t.kind.label ++ " " ++ t.lexeme ++ "\n"

/-- The listing of all tokens of a file. -/
def listing (path : String) (tokens : List Token) : String :=
  String.join (tokens.map (listingLine path)) ++
    "\nTotal tokens: " ++ toString tokens.length ++ "\n"

variable {m : Type → Type} [Monad m] [FileStore m]

/-- Runs a command; gives what it prints. -/
def run : Command → m (Except CommandError String)
  | .compile files limits => do
    match ← (Build.files limits files : ExceptT BuildError m Unit) with
    | .ok _ => return .ok ""
    | .error error => return .error (.build error)
  | .lex file => do
    match ← Build.readText file with
    | .error fault => return .error (.unreadable file fault)
    | .ok source =>
      match tokensOf source with
      | .error error => return .error (.malformed file error)
      | .ok tokens => return .ok (listing file tokens)

/-- How the program is called. -/
def usage : String :=
  "usage: compile [--max-symbols N] [--name-buffer N] [-v] FILES...\n       lex FILE\n"

/-- Runs the program on its arguments. -/
def execute (arguments : List String) : m Report := do
  match ofArguments? arguments with
  | none => return { exitCode := 2, errors := usage }
  | some command =>
    match ← command.run with
    | .ok output => return { output }
    | .error error => return { exitCode := 1, errors := error.message ++ "\n" }

end Command
end Oberon

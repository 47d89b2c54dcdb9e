/-!
# Reading switches

The general part of reading a command line.  An argument is one of these.

* `--name` or `--name=value`, a switch by its long name.
* `-abc`, a cluster of switches by their letters.  A switch that takes a value
  takes the rest of its cluster, less an equals sign at the start of it.
* `--`, after which every argument is a word.
* Anything else, a single hyphen included, is a word.

A switch whose value has not been given in the same argument takes the next one,
which may not look like a switch.  No switch may be given twice unless it
counts.  Names are not abbreviated.

Arguments are read from left to right, and the first that is wrong decides the
error.  A request for help or for the version is granted on sight.
-/

namespace Abacus.Command

/-- Why a command line cannot be read. -/
inductive UsageError where
  | unknownSwitch (text : String)
  | missingValue (name : String)
  | unexpectedValue (name : String)
  | repeated (name : String)
  | invalidValue (name value : String)
  | unexpectedWord (word : String)
  | missingWord
  | conflict
  | missingCommand
  | unknownCommand (word : String)
  deriving DecidableEq, Repr

/-- What is said of a command line that cannot be read. -/
def UsageError.message : UsageError → String
  | .unknownSwitch text => "unexpected argument '" ++ text ++ "' found"
  | .missingValue name => "a value is required for '--" ++ name ++ "'"
  | .unexpectedValue name => "'--" ++ name ++ "' takes no value"
  | .repeated name => "'--" ++ name ++ "' cannot be used multiple times"
  | .invalidValue name value => "invalid value '" ++ value ++ "' for '" ++ name ++ "'"
  | .unexpectedWord word => "unexpected argument '" ++ word ++ "' found"
  | .missingWord => "a required argument was not provided"
  | .conflict => "'--expr' cannot be used with an input"
  | .missingCommand => "a command is required"
  | .unknownCommand word => "unrecognized command '" ++ word ++ "'"

namespace Switch

/-- What a switch does. -/
inductive Kind where
  | flag
  | counter
  /-- Takes any text. -/
  | text
  /-- Takes a path, which may not be empty. -/
  | path
  /-- Takes one of the given words. -/
  | choice (words : List String)
  | help
  | version
  deriving DecidableEq

/-- Whether a value is one that a switch takes. -/
def Kind.accepts : Kind → String → Bool
  | .path, value => value ≠ ""
  | .choice words, value => words.contains value
  | _, _ => true

end Switch

/-- A switch of a command line. -/
structure Switch where
  long : String
  short : Option Char := none
  kind : Switch.Kind
  deriving DecidableEq

/-- What a command line may hold. -/
structure Grammar where
  switches : List Switch
  /-- How many words there may be. -/
  words : Nat := 0
  /-- Whether reading ends with the first word. -/
  stopsAtWord : Bool := false

/-- What has been read. -/
structure Found where
  /-- The switches by their long names, with their values. -/
  switches : List (String × String) := []
  words : List String := []
  deriving DecidableEq

namespace Found

/-- Whether a switch was given. -/
def has (f : Found) (name : String) : Bool := (f.switches.lookup name).isSome

/-- The value of a switch. -/
def value? (f : Found) (name : String) : Option String := f.switches.lookup name

/-- How often a switch was given. -/
def count (f : Found) (name : String) : Nat := f.switches.countP (·.1 = name)

/-- One more switch. -/
def addSwitch (f : Found) (s : Switch) (value : String) : Except UsageError Found :=
  if s.kind ≠ .counter ∧ f.has s.long then .error (.repeated s.long)
  else if s.kind.accepts value then .ok { f with switches := (s.long, value) :: f.switches }
  else .error (.invalidValue s.long value)

/-- One more word. -/
def addWord (g : Grammar) (f : Found) (word : String) : Except UsageError Found :=
  if f.words.length < g.words then
    if word = "" then .error (.invalidValue "input" word)
    else .ok { f with words := f.words ++ [word] }
  else .error (.unexpectedWord word)

end Found

/-- What an argument comes to. -/
inductive Progress where
  | done (f : Found)
  /-- The value of a switch is in the next argument. -/
  | awaits (s : Switch) (f : Found)
  | help
  | version

/-- Read a cluster of letters. -/
def readCluster (g : Grammar) : List Char → Found → Except UsageError Progress
  | [], f => .ok (.done f)
  | c :: rest, f =>
      match g.switches.find? fun s => s.short = some c with
      | none => .error (.unknownSwitch (String.ofList ['-', c]))
      | some s =>
          match s.kind with
          | .help => .ok .help
          | .version => .ok .version
          | .flag | .counter => do readCluster g rest (← f.addSwitch s "")
          | .text | .path | .choice _ =>
              match rest with
              | [] => .ok (.awaits s f)
              | '=' :: value => .done <$> f.addSwitch s (String.ofList value)
              | value => .done <$> f.addSwitch s (String.ofList value)

/-- Read a long name, with or without a value. -/
def readLong (g : Grammar) (text : List Char) (f : Found) : Except UsageError Progress :=
  let name := String.ofList (text.takeWhile (· ≠ '='))
  let value? := match text.dropWhile (· ≠ '=') with
    | [] => none
    | _ :: value => some (String.ofList value)
  match g.switches.find? fun s => s.long = name with
  | none => .error (.unknownSwitch ("--" ++ name))
  | some s =>
      match s.kind, value? with
      | .help, none => .ok .help
      | .version, none => .ok .version
      | .flag, none | .counter, none => .done <$> f.addSwitch s ""
      | .help, some _ | .version, some _ | .flag, some _ | .counter, some _ =>
          .error (.unexpectedValue s.long)
      | _, none => .ok (.awaits s f)
      | _, some value => .done <$> f.addSwitch s value

/-- Whether an argument looks like a switch. -/
def looksLikeSwitch (arg : String) : Bool := arg.toList.head? = some '-' && arg ≠ "-"

/-- What a command line comes to. -/
inductive Reading where
  /-- What was found, and the arguments that were not read. -/
  | found (f : Found) (rest : List String)
  | help
  | version

/-- Read arguments. -/
def readArguments (g : Grammar) : List String → Found → Except UsageError Reading
  | [], f => .ok (.found f [])
  | arg :: rest, f =>
      if arg = "--" then do return .found (← rest.foldlM (Found.addWord g) f) []
      else if !looksLikeSwitch arg then
        if g.stopsAtWord then .ok (.found { f with words := [arg] } rest)
        else do readArguments g rest (← f.addWord g arg)
      else do
        let progress ← match arg.toList with
          | '-' :: '-' :: name => readLong g name f
          | letters => readCluster g letters.tail f
        match progress with
        | .help => return .help
        | .version => return .version
        | .done f => readArguments g rest f
        | .awaits s f =>
            match rest with
            | [] => throw (.missingValue s.long)
            | value :: rest =>
                if looksLikeSwitch value then throw (.missingValue s.long)
                else readArguments g rest (← f.addSwitch s value)

end Abacus.Command

import Abacus.Command.Switches
import Abacus.Command.Task
import Abacus.Log.Filter

/-!
# The command line

A command line names one command.  The switches for the whole program, which
say how much is logged and in what colour, stand before the name of the command,
and those of the command behind it.
-/

namespace Abacus.Command

/-- When to use colour in the log. -/
inductive ColourChoice where
  | auto | always | never
  deriving DecidableEq

/-- The switches for the whole program. -/
structure Settings where
  verbosity : Nat := 0
  quiet : Bool := false
  colour : ColourChoice := .auto
  deriving DecidableEq

/-- What a command line asks for. -/
inductive Invocation where
  | help
  | version
  | command (s : Settings) (c : Command)
  deriving DecidableEq

/-! ## Grammars -/

/-- The switch that asks for help, known everywhere. -/
def helpSwitch : Switch := { long := "help", short := some 'h', kind := .help }

/-- The switch that gives an expression in place of a file. -/
def expressionSwitch : Switch := { long := "expr", short := some 'e', kind := .text }

/-- A flag without a letter. -/
def flag (name : String) : Switch := { long := name, kind := .flag }

/-- What may stand before the name of a command. -/
def programGrammar : Grammar where
  switches :=
    [{ long := "verbose", short := some 'v', kind := .counter },
     { long := "quiet", short := some 'q', kind := .flag },
     { long := "color", kind := .choice ["auto", "always", "never"] },
     helpSwitch,
     { long := "version", short := some 'V', kind := .version }]
  stopsAtWord := true

/-- What may follow `run`. -/
def runGrammar : Grammar where
  switches := [expressionSwitch, flag "trace", flag "print-code", flag "time", helpSwitch]
  words := 1

/-- What may follow `compile`. -/
def compileGrammar : Grammar where
  switches :=
    [expressionSwitch, { long := "output", short := some 'o', kind := .path }, flag "overwrite",
     flag "mkdir", flag "time", helpSwitch]
  words := 1

/-- What may follow `disasm`. -/
def listGrammar : Grammar where
  switches := [expressionSwitch, flag "json", helpSwitch]
  words := 1

/-- What may follow `asm`; the file is required. -/
def assembleGrammar : Grammar where
  switches := [flag "run", helpSwitch]
  words := 1

/-- What may follow `repl`. -/
def converseGrammar : Grammar where
  switches := [{ long := "prompt", kind := .text }, helpSwitch]

/-! ## From what was found to commands -/

/-- The input that was given: an expression, a file, or the standard input. -/
def inputOf (f : Found) : Except UsageError Input :=
  match f.value? "expr", f.words with
  | some _, _ :: _ => .error .conflict
  | some text, [] => .ok (.inline text)
  | none, [] => .ok .standard
  | none, word :: _ => .ok (if word = "-" then .standard else .file ⟨word⟩)

/-- The prompt of a conversation, unless another is given. -/
def defaultPrompt : String := "lumen> "

/-- The running that was asked for. -/
def runOf (f : Found) : Except UsageError Command := do
  return .run { input := ← inputOf f, trace := f.has "trace", showCode := f.has "print-code",
                time := f.has "time" }

/-- The compilation that was asked for. -/
def compileOf (f : Found) : Except UsageError Command := do
  return .compile { input := ← inputOf f, output := (f.value? "output").map Path.mk,
                    overwrite := f.has "overwrite", makeParents := f.has "mkdir",
                    time := f.has "time" }

/-- The listing that was asked for. -/
def listOf (f : Found) : Except UsageError Command := do
  return .list { input := ← inputOf f, json := f.has "json" }

/-- The assembly that was asked for. -/
def assembleOf (f : Found) : Except UsageError Command :=
  match f.words with
  | [] => .error .missingWord
  | word :: _ => .ok (.assemble { input := ⟨word⟩, run := f.has "run" })

/-- The conversation that was asked for. -/
def converseOf (f : Found) : Except UsageError Command :=
  .ok (.converse ((f.value? "prompt").getD defaultPrompt))

/-- A command by its name: what may follow it, and what it then asks for. -/
def commandTable : List (String × Grammar × (Found → Except UsageError Command)) :=
  [("run", runGrammar, runOf), ("compile", compileGrammar, compileOf),
   ("disasm", listGrammar, listOf), ("asm", assembleGrammar, assembleOf),
   ("repl", converseGrammar, converseOf)]

/-- The switches that were given for the whole program. -/
def settingsOf (f : Found) : Settings where
  verbosity := f.count "verbose"
  quiet := f.has "quiet"
  colour := match f.value? "color" with
    | some "always" => .always
    | some "never" => .never
    | _ => .auto

/-- A request for help on a command. -/
def readHelp : List String → Except UsageError Invocation
  | [] => .ok .help
  | [word] =>
      if word = "help" || (commandTable.lookup word).isSome then .ok .help
      else .error (.unknownCommand word)
  | _ :: word :: _ => .error (.unknownCommand word)

/-- What a command line asks for. -/
def readInvocation (args : List String) : Except UsageError Invocation := do
  match ← readArguments programGrammar args {} with
  | .help => return .help
  | .version => return .version
  | .found f rest =>
      match f.words with
      | [] => throw .missingCommand
      | word :: _ =>
          match commandTable.lookup word with
          | none => if word = "help" then readHelp rest else throw (.unknownCommand word)
          | some (g, make) =>
              match ← readArguments g rest {} with
              | .help => return .help
              | .version => return .version
              | .found inner _ => return .command (settingsOf f) (← make inner)

/-! ## The log -/

/-- How much a command has to log for its switches to show anything. -/
def leastVerbosity : Command → Nat
  | .run t => if t.trace then 3 else if t.showCode then 2 else 0
  | _ => 0

/-- The level that the switches ask for. -/
def logLevel (s : Settings) (c : Command) : Log.Level :=
  if s.quiet then .error
  else match max s.verbosity (leastVerbosity c) with
    | 0 => .warn
    | 1 => .info
    | 2 => .debug
    | _ => .trace

/-- The records to be shown: what the environment says, or else the switches. -/
def logFilter (environment : Option String) (s : Settings) (c : Command) : Log.Filter :=
  match environment with
  | some text => .read text
  | none => .upTo (logLevel s c)

end Abacus.Command

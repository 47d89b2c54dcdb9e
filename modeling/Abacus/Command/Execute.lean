import Abacus.Assembly
import Abacus.Chunk.File
import Abacus.Chunk.Structured
import Abacus.Command.Output
import Abacus.Command.Task

/-!
# Carrying out commands

Each command is an action on a host.  `execute` carries one out, tells of any
trouble on the error output, and gives the exit code: zero, the code of a failed
expression, or one.
-/

namespace Abacus

namespace Action

variable {m : Type → Type} [Monad m] [Host m]

/-! ## Reading -/

/-- The text in some bytes. -/
def decode (bytes : List UInt8) : Action m String :=
  match String.fromUTF8? bytes.toByteArray with
  | some text => pure text
  | none => stop ["stream did not contain valid UTF-8"]

/-- The source text of an input. -/
def readSource : Input → Action m String
  | .inline text => pure text
  | .standard => do decode (← perform Host.readInput)
  | .file p => do
      let explain : ReadError → List String
        | .opening e => ["ouverture: " ++ p.text, e.message]
        | .reading e => [e.message]
      decode (← require explain (← perform (Host.readFile p)))

/-- The chunk in a chunk file. -/
def readChunk (p : Path) : Action m Chunk := do
  let explain (e : ReadError) := ["lecture chunk: " ++ p.text, e.message]
  let bytes ← require explain (← perform (Host.readFile p))
  match Chunk.ofBytes bytes with
  | .ok chunk =>
      record #[⟨.debug, .command, s!"loaded {p.text} ({chunk.code.size} bytes of code)"⟩]
      return chunk
  | .error e =>
      record e.log
      stop ["chunk invalide: " ++ p.text, e.message]

/-- The chunk of an input, which is compiled unless it is a chunk file. -/
def load (input : Input) (options : Compiler.Options) (time : Bool) : Action m Chunk := do
  match input.chunkFile? with
  | some p => readChunk p
  | none =>
      let text ← within "lecture de la source" (readSource input)
      let start ← perform Host.clock
      let compilation := Compiler.compile options text
      record compilation.log
      if time then showTime "compile" start (← perform Host.clock)
      match compilation.result with
      | .ok chunk => return chunk
      | .error d => throw (.failure (.compile d))

/-- The result of running a chunk. -/
def runChunk (chunk : Chunk) (options : Machine.Options) : Action m (Option Value) := do
  let run := Machine.run chunk options
  record (run.log chunk options)
  match run.outcome with
  | .ok v => return v
  | .error f => throw (.failure (.fault f))

/-- Write a value on a line, if there is one. -/
def sayValue : Option Value → Action m Unit
  | some v => say (v.text ++ "\n")
  | none => pure ()

/-! ## Commands -/

/-- Run an expression or a chunk file and write its value. -/
def run (t : RunTask) : Action m Unit := do
  let chunk ← load t.input { showCode := t.showCode } t.time
  let start ← perform Host.clock
  let result ← runChunk chunk { trace := t.trace }
  let stop ← perform Host.clock
  sayValue result
  if t.time then showTime "run" start stop

/-- Compile an expression and write the chunk file. -/
def compile (t : CompileTask) : Action m Unit := do
  if t.input.chunkFile?.isSome then
    stop ["'compile' attend une source, pas un chunk : " ++ t.input.title]
  let chunk ← load t.input {} t.time
  if t.makeParents then makeParents t.target
  deliver t.target t.overwrite chunk.toBytes

/-- Write the listing or the structured text of a chunk. -/
def list (t : ListTask) : Action m Unit := do
  let chunk ← load t.input {} false
  say (if t.json then chunk.spreadJson ++ "\n" else chunk.listing t.input.title)

/-- Assemble a text, write its listing, and run it if asked to. -/
def assemble (t : AssembleTask) : Action m Unit := do
  let text ← readSource (.file t.input)
  let explain (e : Assembly.AssemblyError) := ["assemblage de " ++ t.input.text, e.message]
  let chunk ← require explain (Assembly.assemble text)
  say (chunk.listing t.input.text)
  if t.run then
    if let some d := chunk.defect? then
      stop ["chunk invalide", (Chunk.LoadError.defect d).message]
    sayValue (← runChunk chunk {})

/-- Answer one line.  A result ends the conversation: a blank line ends it well,
and a line that is no text is trouble. -/
def answer (options : Compiler.Options) (prompt : String) (line : List UInt8) :
    m (Option (Except Trouble Unit)) := do
  match String.fromUTF8? line.toByteArray with
  | none =>
      return some (.error (.causes ["lecture de la ligne", "stream did not contain valid UTF-8"]))
  | some text =>
      if text.toList.all Text.isBlank then return some (.ok ())
      let e := evaluate options {} text
      e.log.forM Host.writeLog
      match e.outcome with
      | .ok (some v) => Host.writeOut (v.text ++ "\n")
      | .ok none => pure ()
      | .error f => Host.writeErr (f.message ++ "\n")
      Host.writeOut prompt
      return none

/-- Answer the lines of the input, with a prompt before each. -/
def converse (options : Compiler.Options) (prompt : String) : Action m Unit := do
  say prompt
  match ← perform (Host.eachLine (answer options prompt)) with
  | some result => ExceptT.mk (pure result)
  | none => say "\n"

/-- Do what a command says. -/
def ofCommand : Command → Action m Unit
  | .run t => run t
  | .compile t => compile t
  | .list t => list t
  | .assemble t => assemble t
  | .converse prompt => converse {} prompt

end Action

/-- Carry out a command; the result is the exit code. -/
def execute {m : Type → Type} [Monad m] [Host m] (c : Command) : m UInt32 := do
  match ← ExceptT.run (Action.ofCommand c) with
  | .ok () => return 0
  | .error (.failure f) =>
      Host.writeErr <| match f with
        | .compile d => d.text ++ "\n"
        | .fault f => Action.statusLine .red "RUNTIME" f.message
      return f.exitCode
  | .error (.causes chain) =>
      let chain := "échec d'exécution de la commande" :: chain
      Host.writeErr ("error: " ++ Trouble.chainText chain ++ "\n")
      return 1

end Abacus

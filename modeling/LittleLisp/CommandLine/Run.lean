import LittleLisp.CommandLine.Files
import LittleLisp.CommandLine.Options
import LittleLisp.Configuration
import LittleLisp.Prompt

/-!
A run of the command: a file is evaluated, or lines are read at a prompt, or programs are served at
an address. What is said about the run itself goes to the second output.
-/

namespace LittleLisp.CommandLine

def usage : String := "usage: sprig [-h] [--repl | --server] [--addr ADDR] [--trace] [file]\n"

def help : String := usage ++
  "\nSprig Lisp interpreter\n" ++
  "\npositional arguments:\n" ++
  "  file         evaluate every expression in FILE and print the last result\n" ++
  "\noptions:\n" ++
  "  -h, --help   show this help message and exit\n" ++
  "  --repl       interactive prompt (default)\n" ++
  "  --server     serve POST /submit-code over HTTP\n" ++
  "  --addr ADDR  HOST:PORT to bind in server mode\n" ++
  "  --trace      log evaluator steps at DEBUG level\n"

inductive Plan where
  | showHelp
  | misused (message : String)
  | badAddress (message : String)
  | serve (address : Address)
  | evaluate (path : String)
  | converse

structure Task where
  plan : Plan
  traced : Bool
  /-- Messages below this level are not logged. -/
  level : Nat

def Options.plan (o : Options) (c : Configuration) : Plan :=
  if o.server then
    let address :=
      match o.addr with
      | none | some "" => c.address
      | some text => Address.parse text
    match address with
    | .ok a => .serve a
    | .error f => .badAddress f.message
  else
    match o.file with
    | some path => .evaluate (normalizePath path)
    | none => .converse

def task (args : List String) (c : Configuration) : Task :=
  match parseOptions args with
  | .error .help => ⟨.showHelp, false, c.level⟩
  | .error refusal => ⟨.misused refusal.message, false, c.level⟩
  | .ok o =>
    let traced := o.trace || c.traced
    ⟨o.plan c, traced, if traced then Configuration.debugLevel else c.level⟩

structure LogEntry where
  source : String
  message : Text

def LogEntry.line (time : String) (e : LogEntry) : Text :=
  time ++ " DEBUG " ++ e.source ++ ": " ++ e.message ++ "\n"

def traceEntry (e : Event) : LogEntry := ⟨"sprig.trace", e.message⟩

def abortEntry (f : Fault) : LogEntry :=
  ⟨"sprig.repl", "evaluation aborted: " ++ f.category.name ++ "(" ++
    Text.quotedString f.message ++ ")"⟩

def Task.settings (t : Task) : Settings := { traced := t.traced }

def Task.replyLog (t : Task) (r : Prompt.Reply) : List LogEntry :=
  let aborted :=
    match r.shown with
    | some (.error f) => if t.level ≤ Configuration.debugLevel then [abortEntry f] else []
    | _ => []
  r.trace.map traceEntry ++ aborted

/-- Lines of a file end in a newline, whichever of the three conventions it follows. -/
def unifyNewlines : Text → Text
  | .scalar '\r' :: .scalar '\n' :: cs => '\n' :: unifyNewlines cs
  | .scalar '\r' :: cs => '\n' :: unifyNewlines cs
  | c :: cs => c :: unifyNewlines cs
  | [] => []

inductive Ending where
  | exit (code : Nat)
  | unreadable (fault : FileFault)

structure Report where
  output : Text := []
  /-- The log comes before any other text on the second output. -/
  log : List LogEntry := []
  errors : Text := []
  ending : Ending := .exit 0
  served : Option Address := none

/-- All text on the second output; `time` is the time of every log entry. -/
def Report.errorText (r : Report) (time : String) : Text :=
  (r.log.map (·.line time)).flatten ++ r.errors

def Task.evaluateText (t : Task) (content : Text) : Report :=
  let (o, s) := Session.start.load t.settings (unifyNewlines content)
  let log := o.trace.map traceEntry
  match s.report o with
  | .ok printed => { output := printed ++ "\n", log }
  | .error f => { log, errors := "error: " ++ f.message ++ "\n", ending := .exit 1 }

def Task.evaluateFile (t : Task) : Except FileFault String → Report
  | .ok content => t.evaluateText content
  | .error fault => { ending := .unreadable fault }

def Task.converse (t : Task) (input : Text) : Report :=
  let rs := Prompt.converse t.settings input
  { output := Prompt.transcript rs, log := rs.flatMap t.replyLog }

def run (args : List String) (c : Configuration) (readFile : String → Except FileFault String)
    (input : Text) : Task × Report :=
  let t := task args c
  let report : Report :=
    match t.plan with
    | .showHelp => { output := help }
    | .misused message =>
      { errors := usage ++ "sprig: error: " ++ message ++ "\n", ending := .exit 2 }
    | .badAddress message => { errors := "sprig: " ++ message ++ "\n", ending := .exit 2 }
    | .serve address => { served := some address }
    | .evaluate path => t.evaluateFile (readFile path)
    | .converse => t.converse input
  (t, report)

end LittleLisp.CommandLine

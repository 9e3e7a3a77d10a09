import LittleLisp.CommandLine.Run
import LittleLisp.Text.Utf8

/-!
The command. It reads files, variables and lines, and writes what a run says. Listening at an
address is left to the host: one request is answered by `Service.answer`.
-/

namespace LittleLisp.Command

open CommandLine

def configuration : IO Configuration := do
  return ⟨← IO.getEnv Configuration.traceVariable, ← IO.getEnv Configuration.logLevelVariable,
    ← IO.getEnv Configuration.serverAddressVariable⟩

def writeErrors (text : Text) : IO Unit := do (← IO.getStderr).putStr text.shown

def writeOutput (text : Text) : IO Unit := do
  let out ← IO.getStdout
  out.putStr text.shown
  out.flush

def timeText : IO String := return toString (← IO.monoMsNow)

/-- The number of an error of the system, which may be given with a minus sign. -/
def errorNumber (code : UInt32) : Nat := min code.toNat (2 ^ (32 : Nat) - code.toNat)

def problemOf : IO.Error → Option FileProblem
  | .noFileOrDirectory .. => some .missing
  | .inappropriateType _ code _ | .invalidArgument _ code _ =>
    [FileProblem.notDirectory, .directory, .nameTooLong].find? (·.code = errorNumber code)
  | _ => none

def readContent (path : String) : IO (Except String (Except FileFault String)) := do
  if '\x00' ∈ path.toList then return .ok (.error .nullCharacter)
  try
    match Text.Utf8.decode (← IO.FS.readBinFile path).toList with
    | .ok cs => return .ok (.ok (.ofList cs))
    | .error f => return .error f.message
  catch e =>
    match problemOf e with
    | some problem => return .ok (.error (.refused problem path))
    | none => return .error e.toString

def give (r : Report) : IO UInt32 := do
  writeErrors (r.errorText (← timeText))
  writeOutput r.output
  match r.ending with
  | .exit code => return code.toUInt32
  | .unreadable fault =>
    writeErrors (fault.message ++ "\n")
    return 1

partial def converse (t : Task) (s : Session) : IO Unit := do
  writeOutput Prompt.prompt
  let text ← (← IO.getStdin).getLine
  if text.isEmpty then writeOutput "\n"
  else
    let (reply, s) := Prompt.line t.settings s text
    let time ← timeText
    writeErrors ((t.replyLog reply).map (·.line time)).flatten
    writeOutput reply.text
    converse t s

def execute (args : List String) : IO UInt32 := do
  let c ← configuration
  let t := task args c
  match t.plan with
  | .converse =>
    writeOutput Prompt.banner
    converse t .start
    return 0
  | .evaluate path =>
    match ← readContent path with
    | .ok content => give (t.evaluateFile content)
    | .error message =>
      writeErrors (message ++ "\n")
      return 1
  | .serve address =>
    writeErrors ("sprig: no listener for " ++ address.host ++ ":" ++ toString address.port ++ "\n")
    return 1
  | _ => give (run args c (readIn []) []).2

end LittleLisp.Command

def main (args : List String) : IO UInt32 := LittleLisp.Command.execute args

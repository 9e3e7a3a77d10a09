import LittleLisp.Text.Case
import LittleLisp.Text.Integer

namespace LittleLisp

structure Address where
  host : String
  port : Nat
deriving DecidableEq

namespace Address

inductive Fault where
  | malformed (text : String)
  | port (fault : Text.IntegerFault)

def Fault.message : Fault → String
  | .malformed text => "Expected HOST:PORT, got " ++ Text.quotedString text
  | .port fault => fault.message

def splitLast (cs : List Char) : Option (List Char × List Char) :=
  match cs.reverse.dropWhile (· ≠ ':') with
  | [] => none
  | _ :: host => some (host.reverse, (cs.reverse.takeWhile (· ≠ ':')).reverse)

/-- A host and a port with a colon between them; the port has digits only. -/
def parse (text : String) : Except Fault Address :=
  match splitLast text.toList with
  | none => .error (.malformed text)
  | some (host, port) =>
    if host = [] ∨ port = [] ∨ ¬ port.all Text.isDigit then .error (.malformed text)
    else
      match Text.parseInteger (.ofList port) with
      | .ok n => .ok ⟨.ofList host, n.toNat⟩
      | .error f => .error (.port f)

end Address

namespace Configuration

/-- A flag is set by a few words and cleared by any other; a blank text counts as unset. -/
def flag (default : Bool) (raw : Option String) : Bool :=
  match raw.map fun text ↦ Text.lower (Text.trimWith Text.isBlank text.toList) with
  | none | some [] => default
  | some word => ["1", "true", "yes", "on"].contains (.ofList word)

def logLevels : List (String × Nat) :=
  [("NOTSET", 0), ("DEBUG", 10), ("INFO", 20), ("WARN", 30), ("WARNING", 30), ("ERROR", 40),
    ("CRITICAL", 50), ("FATAL", 50)]

def debugLevel : Nat := 10

def warningLevel : Nat := 30

/-- An unknown level counts as a warning. -/
def levelOf (raw : Option String) : Nat :=
  match raw with
  | none => warningLevel
  | some text =>
    let name := Text.upper (Text.trimWith Text.isBlank text.toList)
    (logLevels.lookup (.ofList name)).getD warningLevel

def defaultAddress : String := "127.0.0.1:8081"

end Configuration

structure Configuration where
  trace : Option String := none
  logLevel : Option String := none
  serverAddress : Option String := none

namespace Configuration

def traceVariable : String := "SPRIG_TRACE"

def logLevelVariable : String := "SPRIG_LOG_LEVEL"

def serverAddressVariable : String := "SPRIG_SERVER_ADDR"

def ofLookup (lookup : String → Option String) : Configuration :=
  ⟨lookup traceVariable, lookup logLevelVariable, lookup serverAddressVariable⟩

def traced (c : Configuration) : Bool := flag false c.trace

def level (c : Configuration) : Nat := levelOf c.logLevel

def address (c : Configuration) : Except Address.Fault Address :=
  Address.parse (c.serverAddress.getD defaultAddress)

end Configuration

end LittleLisp

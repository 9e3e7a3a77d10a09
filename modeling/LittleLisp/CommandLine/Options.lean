import LittleLisp.Text.Digit
import LittleLisp.Text.Quoted

/-!
Options of the command line. A long option may be shortened as long as it stays unique, a value may
be attached by an equals sign, and two dashes end the options. At most one word that is not an
option names a file.
-/

namespace LittleLisp.CommandLine

inductive Flag where
  | help
  | repl
  | server
  | addr
  | trace
deriving DecidableEq

def spellings : List (String × Flag) :=
  [("-h", .help), ("--help", .help), ("--repl", .repl), ("--server", .server), ("--addr", .addr),
    ("--trace", .trace)]

def Flag.name (f : Flag) : String :=
  "/".intercalate ((spellings.filter (·.2 = f)).map (·.1))

inductive Piece where
  | word (text : String)
  | separator
  /-- A value may be attached, by an equals sign or, to a short option, directly. -/
  | option (spelling : String) (flag : Flag) (attached : Option (List Char))
  | unknown (text : String)

inductive Refusal where
  | help
  | ambiguous (text : String) (candidates : List String)
  | ignoredValue (flag : Flag) (value : List Char)
  | valueExpected (flag : Flag)
  | conflict (flag other : Flag)
  | unrecognized (words : List String)

def Refusal.message : Refusal → String
  | .help => ""
  | .ambiguous text candidates =>
    "ambiguous option: " ++ text ++ " could match " ++ ", ".intercalate candidates
  | .ignoredValue flag value =>
    "argument " ++ flag.name ++ ": ignored explicit argument " ++
      Text.quotedString (.ofChars value)
  | .valueExpected flag => "argument " ++ flag.name ++ ": expected one argument"
  | .conflict flag other =>
    "argument " ++ flag.name ++ ": not allowed with argument " ++ other.name
  | .unrecognized words => "unrecognized arguments: " ++ " ".intercalate words

def splitEquals (cs : List Char) : List Char × Option (List Char) :=
  match cs.dropWhile (· ≠ '=') with
  | [] => (cs, none)
  | _ :: value => (cs.takeWhile (· ≠ '='), some value)

/-- Digits, or digits around a point with at least one after it, up to a final newline. -/
def isUnsignedNumber (cs : List Char) : Bool :=
  let cs := if cs.getLast? = some '\n' then cs.dropLast else cs
  match cs.dropWhile Text.isDecimal with
  | [] => cs ≠ []
  | '.' :: rest => rest ≠ [] && rest.all Text.isDecimal
  | _ => false

def candidates (word : List Char) : List (String × Flag × Option (List Char)) :=
  match word with
  | '-' :: '-' :: _ =>
    let (name, value) := splitEquals word
    (spellings.filter fun p ↦ name.isPrefixOf p.1.toList).map fun p ↦ (p.1, p.2, value)
  | _ =>
    (spellings.filter fun p ↦ p.1.toList = word.take 2).map fun p ↦
      (p.1, p.2, some (word.drop 2))

def classify (text : String) : Except Refusal Piece :=
  let word := text.toList
  if word.head? ≠ some '-' ∨ word.length = 1 then .ok (.word text)
  else
    let (name, value) := splitEquals word
    match spellings.lookup text, value, spellings.lookup (.ofList name) with
    | some flag, _, _ => .ok (.option text flag none)
    | none, some v, some flag => .ok (.option (.ofList name) flag (some v))
    | none, _, _ =>
      match candidates word with
      | [(spelling, flag, attached)] => .ok (.option spelling flag attached)
      | [] =>
        if isUnsignedNumber (word.drop 1) ∨ ' ' ∈ word then .ok (.word text)
        else .ok (.unknown text)
      | many => .error (.ambiguous text (many.map (·.1)))

/-- After the separator every word is a plain one. -/
def classifyAll : List String → Except Refusal (List Piece)
  | [] => .ok []
  | text :: rest =>
    if text = "--" then .ok (.separator :: rest.map .word)
    else do
      let p ← classify text
      return p :: (← classifyAll rest)

structure Options where
  repl : Bool := false
  server : Bool := false
  trace : Bool := false
  addr : Option String := none
  file : Option String := none

/-- What comes of letters attached to the short option for help: each is one more such option, and
what starts with another letter is a value that the option does not take. -/
def attachedToHelp : List Char → Refusal
  | ['h'] => .help
  | 'h' :: rest => attachedToHelp rest
  | value => .ignoredValue .help value

def Options.set (o : Options) (flag : Flag) : Except Refusal Options :=
  match flag with
  | .help => .error .help
  | .repl => if o.server then .error (.conflict .repl .server) else .ok { o with repl := true }
  | .server => if o.repl then .error (.conflict .server .repl) else .ok { o with server := true }
  | .trace => .ok { o with trace := true }
  | .addr => .error (.valueExpected .addr)

/-- Sets an option to a value attached to it; a separator in place of a value is no value. -/
def Options.setAttached (o : Options) (spelling : String) (flag : Flag) (value : List Char) :
    Except Refusal Options :=
  if flag = .addr then
    .ok { o with addr := if value = ['-', '-'] then none else some (.ofList value) }
  else if spelling = "-h" then .error (attachedToHelp value)
  else .error (.ignoredValue flag value)

/-- Goes through the pieces from left to right. The file is the first word, and a separator next to
it belongs to it; all that is left over is collected in reverse order. -/
def collect (o : Options) (extra : List String) :
    List Piece → Except Refusal (Options × List String)
  | [] => .ok (o, extra)
  | .word text :: .separator :: rest =>
    if o.file.isNone then collect { o with file := some text } extra rest
    else collect o ("--" :: text :: extra) rest
  | .word text :: rest =>
    if o.file.isNone then collect { o with file := some text } extra rest
    else collect o (text :: extra) rest
  | .separator :: rest => collect o (if o.file.isNone then extra else "--" :: extra) rest
  | .unknown text :: rest => collect o (text :: extra) rest
  | .option _ .addr none :: .word text :: rest => collect { o with addr := some text } extra rest
  | .option _ flag none :: rest => do collect (← o.set flag) extra rest
  | .option spelling flag (some value) :: rest => do
    collect (← o.setAttached spelling flag value) extra rest

def parseOptions (args : List String) : Except Refusal Options := do
  let (o, extra) ← collect {} [] (← classifyAll args)
  if extra = [] then return o else throw (.unrecognized extra.reverse)

end LittleLisp.CommandLine

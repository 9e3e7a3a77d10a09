import LittleLisp.Json.Reader
import LittleLisp.Json.Writer
import LittleLisp.Session
import LittleLisp.Text.Utf8

/-!
The service: a program is posted as JSON, evaluated in a session of its own, and answered with what
it prints or with a diagnostic. A request that cannot be read is refused in a response, unless the
host itself fails at it: then there is none.
-/

namespace LittleLisp.Service

structure Submission where
  output : Text
  success : Bool

def runCode (cfg : Settings) (code : Text) : Submission × List Event :=
  let (o, s) := Session.start.eval cfg code
  match s.report o with
  | .ok printed => (⟨printed, true⟩, o.trace)
  | .error f => (⟨f.diagnostic, false⟩, o.trace)

inductive Method where
  | post
  | options

structure Request where
  method : Method
  path : String
  headers : List (String × String)
  body : List UInt8

structure Response where
  status : Nat
  headers : List (String × String)
  body : String

def submitPath : String := "/submit-code"

/-- Several slashes at the start of a path count as one. -/
def Request.target (r : Request) : String :=
  match r.path.toList with
  | '/' :: '/' :: cs => .ofList ('/' :: cs.dropWhile (· = '/'))
  | _ => r.path

/-- The value of the first header of a name, in whatever case, without the blanks before it. -/
def Request.header? (r : Request) (name : String) : Option String :=
  (r.headers.find? fun h ↦ h.1.toLower = name.toLower).map fun h ↦
    .ofList (h.2.toList.dropWhile fun c ↦ c = ' ' || c = '\t')

inductive Refusal where
  | length (fault : Text.IntegerFault)
  | negativeLength (length : Int)
  | overlong (length : Nat)
  | encoding (fault : Text.Utf8.Fault)
  | json (text : List Char) (fault : Json.Fault)
  | notAnObject (value : Json)
  | codeMissing
  | codeNotString

def memberless : Json → String
  | .array _ => "list indices must be integers or slices, not str"
  | .string _ => "string indices must be integers, not \x27str\x27"
  | .null => notSubscriptable "NoneType"
  | .bool _ => notSubscriptable "bool"
  | .integer _ => notSubscriptable "int"
  | _ => notSubscriptable "float"
where
  notSubscriptable (kind : String) : String := "\x27" ++ kind ++ "\x27 object is not subscriptable"

def Refusal.message : Refusal → String
  | .length fault => fault.message
  | .negativeLength n => "negative Content-Length " ++ toString n
  | .overlong _ => "cannot fit \x27int\x27 into an index-sized integer"
  | .encoding fault => fault.message
  | .json text fault => fault.message text
  | .notAnObject value => memberless value
  | .codeMissing => "\x27code\x27"
  | .codeNotString => "code must be a string"

inductive Refusal.Category where
  | malformed
  | missing
  | wrongType
  | outOfRange
  | tooDeep
deriving DecidableEq

def Refusal.category : Refusal → Category
  | .length _ | .negativeLength _ | .encoding _ => .malformed
  | .overlong _ => .outOfRange
  | .json _ .tooDeep => .tooDeep
  | .json _ _ => .malformed
  | .notAnObject _ | .codeNotString => .wrongType
  | .codeMissing => .missing

/-- The categories of refusals that are told to the client. -/
def Refusal.Category.told : List Category := [.malformed, .missing, .wrongType]

/-- The indices of the host are below this. -/
def lengthLimit : Nat := 2 ^ (63 : Nat)

/-- What the host can do for a request. A read that asks for `read` bytes or more fails: on a reader
over bytes in memory that is a length which is no index any more, on a connection it is one for
which there is no room. Shorter reads give what there is. In JSON, `nesting` arrays and objects can
be open at once. -/
structure Limits where
  read : Nat := lengthLimit
  nesting : Nat := 4000

def Request.bodyLength (r : Request) : Except Refusal Nat :=
  match r.header? "Content-Length" with
  | none | some "" => .ok 0
  | some text =>
    match Text.parseInteger text with
    | .error f => .error (.length f)
    | .ok n => if n < 0 then .error (.negativeLength n) else .ok n.toNat

def Request.text (r : Request) (limits : Limits) : Except Refusal (List Char) := do
  let length ← r.bodyLength
  if limits.read ≤ length then throw (.overlong length)
  (Text.Utf8.decode (r.body.take length)).mapError .encoding

def submittedCode : Json → Except Refusal Text
  | .object members =>
    match Json.lastMember? "code" members with
    | some (.string code) => .ok code
    | some _ => .error .codeNotString
    | none => .error .codeMissing
  | value => .error (.notAnObject value)

def Request.code (r : Request) (limits : Limits) : Except Refusal Text := do
  let text ← r.text limits
  let value ← (Json.parseWithin limits.nesting text).mapError (.json text)
  submittedCode value

def originHeaders : List (String × String) :=
  [("Access-Control-Allow-Origin", "*"), ("Access-Control-Allow-Methods", "POST, OPTIONS"),
    ("Access-Control-Allow-Headers", "Content-Type")]

/-- A response in JSON; its text is ASCII, so it has as many bytes as characters. -/
def jsonResponse (status : Nat) (value : Json) : Response :=
  let body := value.write ++ ['\n']
  ⟨status, originHeaders ++
    [("Content-Type", "application/json"), ("Content-Length", toString body.length)], .ofList body⟩

def errorResponse (status : Nat) (message : String) : Response :=
  jsonResponse status (.object [("error", .string message)])

def Submission.response (s : Submission) : Response :=
  jsonResponse 200 (.object [("output", .string s.output), ("success", .bool s.success)])

structure Answer where
  response : Response
  trace : List Event

def Refusal.answer (refusal : Refusal) : Answer :=
  ⟨errorResponse 400 ("Invalid request: " ++ refusal.message), []⟩

/-- A refusal that is not told leaves the request without a response. -/
def answerPost (cfg : Settings) (r : Request) (limits : Limits := {}) : Except Refusal Answer :=
  if r.target ≠ submitPath then .ok ⟨errorResponse 404 ("Unknown path: " ++ r.target), []⟩
  else
    match r.code limits with
    | .error refusal =>
      if refusal.category ∈ Refusal.Category.told then .ok refusal.answer else .error refusal
    | .ok code =>
      let (s, trace) := runCode cfg code
      .ok ⟨s.response, trace⟩

def answer (cfg : Settings) (r : Request) (limits : Limits := {}) : Except Refusal Answer :=
  match r.method with
  | .post => answerPost cfg r limits
  | .options => .ok ⟨⟨204, originHeaders ++ [("Content-Length", "0")], ""⟩, []⟩

end LittleLisp.Service

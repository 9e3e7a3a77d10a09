namespace LittleLisp

inductive Kind where
  /-- All arguments are evaluated, from left to right. -/
  | normal
  | specialForm
  /-- Kept for expanders; arguments are passed as they stand. -/
  | reserved
deriving DecidableEq

inductive Builtin where
  | add | sub | mul | div | list | push | car | cdr | eq
deriving DecidableEq

inductive SpecialForm where
  | define | defineFunction | sequence | branch | lambda
deriving DecidableEq

/-- Operations that a host program may bind beside those of the language. -/
inductive HostOperation where
  /-- A new list of the arguments. -/
  | collect
  | first
  /-- The value of the last argument in the caller's scope. -/
  | evaluateLast
  /-- The number of arguments. -/
  | count
deriving DecidableEq

inductive Operator where
  | builtin (op : Builtin)
  | form (op : SpecialForm)
  | host (op : HostOperation)
deriving DecidableEq

def Kind.name : Kind → String
  | .normal => "normal"
  | .specialForm => "special-form"
  | .reserved => "macro"

namespace Builtin

def all : List Builtin := [.add, .sub, .mul, .div, .list, .push, .car, .cdr, .eq]

def name : Builtin → String
  | .add => "+"
  | .sub => "-"
  | .mul => "*"
  | .div => "/"
  | .list => "list"
  | .push => "push"
  | .car => "car"
  | .cdr => "cdr"
  | .eq => "eq"

def label : Builtin → String
  | .add => "add"
  | .sub => "op_-"
  | .mul => "mul"
  | .div => "op_/"
  | .list => "list_builtin"
  | .push => "push"
  | .car => "car"
  | .cdr => "cdr"
  | .eq => "eq"

end Builtin

namespace SpecialForm

def all : List SpecialForm := [.define, .defineFunction, .sequence, .branch, .lambda]

def name : SpecialForm → String
  | .define => "def"
  | .defineFunction => "defn"
  | .sequence => "do"
  | .branch => "if"
  | .lambda => "lambda"

def label (op : SpecialForm) : String := op.name ++ "_form"

def shape : SpecialForm → String
  | .define => "exactly 2 arguments"
  | .defineFunction => "a name, a parameter list and a body"
  | .sequence => "at least 1 expression"
  | .branch => "a condition, a then-expression and an else-expression"
  | .lambda => "a parameter list and a body"

end SpecialForm

namespace Operator

def label : Operator → String
  | .builtin op => op.label
  | .form op => op.label
  | .host _ => "<lambda>"

def describe (op : Operator) : String := "<native " ++ op.label ++ ">"

end Operator

end LittleLisp

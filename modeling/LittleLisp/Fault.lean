import LittleLisp.Datum.Description
import LittleLisp.Operator

namespace LittleLisp

inductive Fault where
  /-- A string literal opened at this position is never closed. -/
  | unterminatedString (position : Nat)
  | nothingToQuote
  | unmatchedOpen
  | unmatchedClose
  | unknownToken (kind : String) (text : Text)
  | extraExpression
  | unbound (name : Text)
  | notNumeric (op : Builtin) (value : Datum)
  | operandsMissing (op : Builtin)
  | operandCount (op : Builtin) (expected given : Nat)
  | comparandCount (given : Nat)
  | operandNotList (op : Builtin) (value : Datum)
  | formShape (form : SpecialForm)
  | nameNotSymbol (form : SpecialForm) (value : Datum)
  | parametersNotList (form : SpecialForm) (value : Datum)
  | parameterNotSymbol (form : SpecialForm) (value : Datum)
  | conditionNotBool (value : Datum)
  | argumentCount (params : List Text) (given : Nat)
  | emptyCall
  | notEvaluable (value : Datum)
  | notCallable (value : Datum)
  /-- A list operation of the host got something else. -/
  | listExpected (operation : String) (value : Datum)
  | tooDeep
  | splitOfEmpty
  | notPrintable
  /-- A cell that may change, or that holds one that may, has no fixed identity. -/
  | unhashable (variant : String)
  | missingArgument

inductive Fault.Category where
  | malformed
  | unmatchedParen
  | unbound
  | notNumeric
  | notAList
  | arity
  | wrongType
  | notCallable
  | tooDeep
  | unsuitable
  | outOfRange
deriving DecidableEq

namespace Fault

def Category.name : Category → String
  | .malformed => "SprigSyntaxError"
  | .unmatchedParen => "SprigUnmatchedParen"
  | .unbound => "SprigUnboundSymbol"
  | .notNumeric => "SprigNonNumericOperand"
  | .notAList => "SprigNotAList"
  | .arity => "SprigArityError"
  | .wrongType => "SprigTypeError"
  | .notCallable => "SprigNotCallable"
  | .tooDeep => "RecursionError"
  | .unsuitable => "TypeError"
  | .outOfRange => "IndexError"

/-- The categories that the language documents; a program can cause no other. -/
def Category.documented : Category → Bool
  | .unsuitable | .outOfRange => false
  | _ => true

def category : Fault → Category
  | unterminatedString _ | nothingToQuote | unknownToken _ _ | extraExpression => .malformed
  | unmatchedOpen | unmatchedClose => .unmatchedParen
  | .unbound _ => .unbound
  | .notNumeric _ _ => .notNumeric
  | operandNotList _ _ | parametersNotList _ _ | listExpected _ _ => .notAList
  | operandsMissing _ | operandCount _ _ _ | comparandCount _ | formShape _ | argumentCount _ _ =>
    .arity
  | nameNotSymbol _ _ | parameterNotSymbol _ _ | conditionNotBool _ | emptyCall | notEvaluable _ =>
    .wrongType
  | .notCallable _ => .notCallable
  | .tooDeep => .tooDeep
  | notPrintable | unhashable _ => .unsuitable
  | splitOfEmpty | missingArgument => .outOfRange

def message : Fault → Text
  | unterminatedString position => "Unterminated string at " ++ toString position
  | nothingToQuote => "Nothing to quote after \x27"
  | unmatchedOpen => "Unmatched \x27(\x27"
  | unmatchedClose => "Unmatched \x27)\x27"
  | unknownToken kind text => "Unknown token: " ++ kind ++ " " ++ text
  | extraExpression => "Expected a single top-level expression"
  | .unbound name => "Cannot lookup unbound symbol " ++ name
  | .notNumeric op value =>
    "All arguments to " ++ op.name ++ " must be numbers, got " ++ value.described
  | operandsMissing op => op.name ++ " requires at least 1 argument"
  | operandCount op expected given =>
    op.name ++ " requires exactly " ++ toString expected ++ " argument(s), got " ++ toString given
  | comparandCount given => "eq requires exactly 2 arguments, got " ++ toString given
  | operandNotList op value =>
    "Argument passed to " ++ op.name ++ " was not a list: " ++ value.described
  | formShape form => form.name ++ " requires " ++ form.shape
  | nameNotSymbol form value =>
    form.name ++ " expects a symbol to bind, got " ++ value.described
  | parametersNotList form value =>
    form.name ++ " expects a parameter list, got " ++ value.described
  | parameterNotSymbol form value =>
    form.name ++ " parameters must be symbols, got " ++ value.described
  | conditionNotBool value =>
    "if condition must evaluate to a boolean, got " ++ value.described
  | argumentCount params given =>
    "Expected " ++ toString params.length ++ " argument(s) " ++ Text.quotedNames params ++
      ", got " ++ toString given
  | emptyCall => "Cannot evaluate an empty list"
  | notEvaluable value => "Cannot evaluate " ++ value.described
  | .notCallable value => "Cannot apply non-function " ++ value.described
  | listExpected operation value => operation ++ " expects a list, got " ++ value.described
  | .tooDeep => "maximum recursion depth exceeded"
  | splitOfEmpty => "split of an empty list"
  | notPrintable => "Cannot print None"
  | unhashable variant => "unhashable type: " ++ Text.quotedString variant
  | missingArgument => "list index out of range"

def diagnostic (f : Fault) : Text := f.category.name ++ ": " ++ f.message

end Fault

end LittleLisp

import LittleLisp.Datum.Basic
import LittleLisp.Number.Printer
import LittleLisp.Text.Quoted

namespace LittleLisp.Datum

def flagName (flag : Bool) : String := if flag then "True" else "False"

mutual

def describe : Datum → List Char
  | .atom name => "Atom(".toList ++ Text.quoted name ++ [')']
  | .number value => "Number(".toList ++ value.describe ++ [')']
  | .str text => "Str(".toList ++ Text.quoted text ++ [')']
  | .bool flag => "Bool(".toList ++ (flagName flag).toList ++ [')']
  | .quoted inner => "Quoted(".toList ++ describe inner ++ [')']
  | .list items => "ListCell([".toList ++ describeItems items ++ [']', ')']
  | .mark (.function name) => "Function(".toList ++ Text.quoted name ++ [')']
  | .mark .elided => "ListCell(...)".toList
  | .mark .absent => "None".toList

def describeItems : List Datum → List Char
  | [] => []
  | [d] => describe d
  | d :: ds => describe d ++ ',' :: ' ' :: describeItems ds

end

def described (d : Datum) : String := .ofList d.describe

end LittleLisp.Datum

import LittleLisp.Text.CodePoint

namespace LittleLisp

inductive TokenKind where
  | quote
  | open
  | close
  | string
  | symbol
  /-- A kind that the lexer never produces and no expression has. -/
  | other (name : String)
deriving DecidableEq

structure Token where
  kind : TokenKind
  text : Text
deriving DecidableEq

namespace TokenKind

def name : TokenKind → String
  | .quote => "quote"
  | .open => "lparen"
  | .close => "rparen"
  | .string => "string"
  | .symbol => "symbol"
  | .other name => name

def ofName : String → TokenKind
  | "quote" => .quote
  | "lparen" => .open
  | "rparen" => .close
  | "string" => .string
  | "symbol" => .symbol
  | name => .other name

end TokenKind

end LittleLisp

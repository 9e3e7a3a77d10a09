import LittleLisp.Token.Lexer

/-!
A stream of tokens with one token of look-ahead. The stream may end in a fault of the lexer, which
is reported once, when the end is reached; after that the stream is at its end.
-/

namespace LittleLisp

structure TokenStream where
  /-- A token that has been drawn and not been consumed. -/
  buffer : Option Token
  rest : List Token
  fault : Option Fault

namespace TokenStream

def ofLexed (l : Lexed) : TokenStream := ⟨none, l.tokens, l.fault⟩

def ofTokens (ts : List Token) : TokenStream := ⟨none, ts, none⟩

def ended : TokenStream := ⟨none, [], none⟩

def pending (s : TokenStream) : List Token := s.buffer.toList ++ s.rest

/-- The next token, which stays in the stream; `none` at the end. -/
def peek (s : TokenStream) : Except Fault (Option Token) × TokenStream :=
  match s.buffer, s.rest, s.fault with
  | some t, _, _ => (.ok (some t), s)
  | none, t :: ts, fault => (.ok (some t), ⟨some t, ts, fault⟩)
  | none, [], some f => (.error f, ended)
  | none, [], none => (.ok none, ended)

def advance (s : TokenStream) : Except Fault (Option Token) × TokenStream :=
  match s.buffer, s.rest, s.fault with
  | some t, rest, fault => (.ok (some t), ⟨none, rest, fault⟩)
  | none, t :: ts, fault => (.ok (some t), ⟨none, ts, fault⟩)
  | none, [], some f => (.error f, ended)
  | none, [], none => (.ok none, ended)

end TokenStream

end LittleLisp

namespace LittleLisp.Text

/-- The upper case of a character; characters whose upper case is not ASCII stay as they are. -/
def upperChar (c : Char) : List Char :=
  match c with
  | 'ß' => ['S', 'S']
  | 'ı' => ['I']
  | 'ſ' => ['S']
  | 'ﬀ' => ['F', 'F']
  | 'ﬁ' => ['F', 'I']
  | 'ﬂ' => ['F', 'L']
  | 'ﬃ' => ['F', 'F', 'I']
  | 'ﬄ' => ['F', 'F', 'L']
  | 'ﬅ' | 'ﬆ' => ['S', 'T']
  | c => [c.toUpper]

def upper (cs : List Char) : List Char := cs.flatMap upperChar

/-- The lower case of a character; characters whose lower case is not ASCII stay as they are. -/
def lowerChar (c : Char) : Char := if c = 'K' then 'k' else c.toLower

def lower (cs : List Char) : List Char := cs.map lowerChar

end LittleLisp.Text

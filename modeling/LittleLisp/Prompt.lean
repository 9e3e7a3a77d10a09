import LittleLisp.Session

/-!
The prompt: every line is one expression. A line that fails ends its session, and the next line
starts in a new one.
-/

namespace LittleLisp.Prompt

def banner : Text := "Welcome to sprig!\n"

def prompt : Text := "> "

structure Reply where
  /-- Nothing for a blank line. -/
  shown : Option (Except Fault Text)
  trace : List Event

def Reply.text (r : Reply) : Text :=
  match r.shown with
  | none => []
  | some (.ok printed) => printed ++ "\n"
  | some (.error f) => "error: " ++ f.message ++ "\n"

def line (cfg : Settings) (s : Session) (text : Text) : Reply × Session :=
  if Text.isBlankText text then (⟨none, []⟩, s)
  else
    let (o, s) := s.eval cfg text
    match s.report o with
    | .ok printed => (⟨some (.ok printed), o.trace⟩, s)
    | .error f => (⟨some (.error f), o.trace⟩, s.restart)

def replies (cfg : Settings) : Session → List Text → List Reply
  | _, [] => []
  | s, text :: rest =>
    let (reply, s) := line cfg s text
    reply :: replies cfg s rest

/-- Lines end at a newline only; the end of the input ends the last one. -/
def lines : Text → List Text
  | [] => []
  | c :: cs =>
    if c = '\n' then [] :: lines cs
    else
      match lines cs with
      | [] => [[c]]
      | l :: ls => (c :: l) :: ls

def transcript (rs : List Reply) : Text :=
  banner ++ rs.flatMap (prompt ++ ·.text) ++ prompt ++ "\n"

def converse (cfg : Settings) (input : Text) : List Reply :=
  replies cfg .start (lines input)

end LittleLisp.Prompt

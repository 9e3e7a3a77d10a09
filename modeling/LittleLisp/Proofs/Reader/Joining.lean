import LittleLisp.Proofs.Reader.Leftmost

/-!
Texts put together. A newline ends whatever the lexer is in the middle of, save a string, so the
tokens before it and the tokens after it do not depend on each other; only the position at which an
unterminated string is reported does.
-/

namespace LittleLisp

/-- The fault that is reported when the text stands further on. -/
def Fault.shift (k : Nat) : Fault → Fault
  | .unterminatedString position => .unterminatedString (position + k)
  | f => f

def Lexed.shift (k : Nat) (l : Lexed) : Lexed := { l with fault := l.fault.map (.shift k) }

theorem Lexed.shift_prepend (k : Nat) (l : Lexed) (ts : List Token) :
    (l.prepend ts).shift k = (l.shift k).prepend ts := rfl

namespace Lexer

variable {position : Nat} {mode : Mode} {first second : Text}

def Mode.shift (k : Nat) : Mode → Mode
  | .string opened read => .string (opened + k) read
  | .escape opened read => .escape (opened + k) read
  | mode => mode

theorem start_shift (position k : Nat) (c : CodePoint) :
    start (position + k) c = ((start position c).1, (start position c).2.shift k) := by
  unfold start
  repeat' split
  all_goals rfl

theorem step_shift (position k : Nat) (c : CodePoint) (mode : Mode) :
    step (position + k) c (mode.shift k) =
      ((step position c mode).1, (step position c mode).2.shift k) := by
  cases mode with
  | gap => simp only [Mode.shift, step, start_shift]
  | comment =>
    simp only [Mode.shift, step]
    split <;> rfl
  | symbol read =>
    simp only [Mode.shift, step, start_shift]
    split <;> rfl
  | string opened read =>
    have hmode : (Mode.string opened read).shift k = .string (opened + k) read := rfl
    simp only [hmode, step]
    split
    · rfl
    · split <;> rfl
  | escape opened read => rfl

theorem run_shift (position k : Nat) (mode : Mode) (source : Text) :
    run (position + k) (mode.shift k) source = (run position mode source).shift k := by
  induction source generalizing position mode with
  | nil => cases mode <;> rfl
  | cons c source ih =>
    rw [run_cons, run_cons, step_shift, Nat.add_right_comm, ih, Lexed.shift_prepend]

theorem run_newline (h : (run position mode first).fault = none) (second : Text) :
    run position mode (first ++ .scalar '\n' :: second) =
      (run (position + first.length + 1) .gap second).prepend (run position mode first).tokens := by
  induction first generalizing position mode with
  | nil =>
    rw [List.nil_append, run_cons]
    cases mode with
    | gap | comment | symbol => rfl
    | string | escape => cases h
  | cons c first ih =>
    rw [run_cons] at h
    rw [List.cons_append, run_cons, run_cons, ih h, Lexed.prepend_prepend, Lexed.tokens_prepend,
      List.length_cons]
    congr 2
    omega

/-- A text that is lexed from its start, and where it stands further on. -/
theorem run_gap (position : Nat) (source : Text) :
    run position .gap source = (lex source).shift position := by
  have hshift := run_shift 0 position .gap source
  rw [Nat.zero_add] at hshift
  exact hshift

end Lexer

theorem lex_newline {first : Text} (h : (lex first).fault = none) (second : Text) :
    lex (first ++ .scalar '\n' :: second) =
      ((lex second).shift (first.length + 1)).prepend (lex first).tokens := by
  rw [lex, Lexer.run_newline h second, Nat.zero_add, Lexer.run_gap (first.length + 1)]
  rfl

namespace Reader

variable {stack : List Frame} {t : Token} {f : Fault}

theorem shift_of_step (k : Nat) (h : step stack t = .fault f) : f.shift k = f := by
  unfold step at h
  split at h
  case h_1 | h_2 | h_7 => exact absurd h (place_ne_fault _ _ _)
  case h_3 | h_4 => cases h
  case h_5 | h_6 | h_8 =>
    cases h
    rfl

theorem shift_of_atEnd (k : Nat) (stack : List Frame) :
    (atEnd stack).map (.shift k) = atEnd stack := by
  rcases stack with _ | ⟨_ | _, _⟩ <;> rfl

theorem all_shift (k : Nat) (fault : Option Fault) (stack : List Frame) (ts : List Token) :
    (all (fault.map (.shift k)) stack ts).1 = (all fault stack ts).1 ∧
      (all (fault.map (.shift k)) stack ts).2.1 = (all fault stack ts).2.1.map (.shift k) := by
  induction ts generalizing stack with
  | nil =>
    refine ⟨rfl, ?_⟩
    cases fault with
    | none => exact (shift_of_atEnd k stack).symm
    | some f => rfl
  | cons t ts ih =>
    simp only [all]
    cases hstep : step stack t with
    | «continue» stack' => exact ih stack'
    | finished d => exact ⟨congrArg (d :: ·) (ih []).1, (ih []).2⟩
    | fault f => exact ⟨rfl, congrArg some (shift_of_step k hstep).symm⟩

end Reader

def expressions (source : Text) : List Datum × Option Fault :=
  let (ds, fault, _) := (TokenStream.ofLexed (lex source)).all
  (ds, fault)

variable {first : Text}

theorem expressions_eq (source : Text) :
    expressions source = ((Reader.all (lex source).fault [] (lex source).tokens).1,
      (Reader.all (lex source).fault [] (lex source).tokens).2.1) := rfl

theorem phrases_of_expressions (h : (expressions first).2 = none) : (lex first).fault = none ∧
    ∃ es, Phrase.allTokens es = (lex first).tokens ∧ Phrase.data es = (expressions first).1 :=
  Reader.all_eq_ok_iff.1 ⟨rfl, h⟩

theorem expressions_newline (h : (expressions first).2 = none) (second : Text) :
    expressions (first ++ .scalar '\n' :: second) =
      ((expressions first).1 ++ (expressions second).1,
        (expressions second).2.map (.shift (first.length + 1))) := by
  obtain ⟨hfault, es, htokens, hdata⟩ := phrases_of_expressions h
  have hshift := Reader.all_shift (first.length + 1) (lex second).fault [] (lex second).tokens
  have hlex := lex_newline hfault second
  rw [expressions_eq, hlex, Lexed.tokens_prepend, ← htokens]
  simp only [Lexed.prepend, Lexed.shift, Reader.all_allTokens, hshift, hdata]
  rfl

def sequenced (source : Text) : Text := ("(do " : Text) ++ source ++ ("\n)" : Text)

theorem sequenced_eq (source : Text) : sequenced source =
    .scalar '(' :: .scalar 'd' :: .scalar 'o' :: .scalar ' ' ::
      (source ++ .scalar '\n' :: [.scalar ')']) := by
  have hdo : ("(do " : Text) = [.scalar '(', .scalar 'd', .scalar 'o', .scalar ' '] := rfl
  have hend : ("\n)" : Text) = [.scalar '\n', .scalar ')'] := rfl
  rw [sequenced, hdo, hend]
  simp

theorem solid_sequenced (source : Text) : (sequenced source).Solid := by
  have hlast : (sequenced source).getLast? = some (.scalar ')') := by
    have hend : ("\n)" : Text) = [.scalar '\n'] ++ [.scalar ')'] := rfl
    rw [sequenced, hend, ← List.append_assoc, List.getLast?_concat]
  exact ⟨⟨.scalar '(', rfl, rfl⟩, .scalar ')', hlast, rfl⟩

open Lexer in
theorem lex_sequenced (h : (lex first).fault = none) : lex (sequenced first) =
    ⟨⟨.open, ("(" : Text)⟩ :: ⟨.symbol, ("do" : Text)⟩ ::
      ((lex first).tokens ++ [⟨.close, (")" : Text)⟩]), none⟩ := by
  have hspace (rest : Text) : run 0 .gap
      (.scalar '(' :: .scalar 'd' :: .scalar 'o' :: .scalar ' ' :: rest) =
        (run 4 .gap rest).prepend [⟨.open, ("(" : Text)⟩, ⟨.symbol, ("do" : Text)⟩] := by
    simp only [run_cons]
    rfl
  have hfault : (run 4 .gap first).fault = none := by
    rw [run_gap, Lexed.shift, h]
    rfl
  rw [sequenced_eq, lex, hspace, run_newline hfault, run_gap 4 first]
  rfl

def Phrase.sequence (es : List Phrase) : Phrase :=
  .list ("(" : Text) (.symbol ("do" : Text) :: es) (")" : Text)

theorem parse_sequenced (h : (expressions first).2 = none) :
    Program.parse (sequenced first) =
      .ok ⟨sequenced first, some (.list (.atom "do" :: (expressions first).1))⟩ := by
  obtain ⟨hfault, es, htokens, hdata⟩ := phrases_of_expressions h
  have hdatum : (Phrase.sequence es).datum = .list (.atom "do" :: (expressions first).1) := by
    rw [← hdata]
    rfl
  have htokens' : (Phrase.sequence es).tokens = (lex (sequenced first)).tokens := by
    rw [lex_sequenced hfault, ← htokens]
    rfl
  have htrim := (solid_sequenced first).trim_eq
  have hphrase : (lex (sequenced first).trim).fault = none ∧
      ∃ e : Phrase, e.tokens = (lex (sequenced first).trim).tokens ∧
        e.datum = .list (.atom "do" :: (expressions first).1) := by
    rw [htrim]
    exact ⟨by rw [lex_sequenced hfault], .sequence es, htokens', hdatum⟩
  have hparse := Program.parse_eq_some_iff.2 hphrase
  rwa [htrim] at hparse

end LittleLisp

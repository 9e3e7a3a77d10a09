import LittleLisp.Datum.Printer
import LittleLisp.Token.Lexer

/-!
Lexing of texts that are put together. A text spells its tokens wherever a symbol cannot run on
beyond it, and a symbol token is always a non-empty run of symbol points.
-/

namespace LittleLisp

def IsSymbol (t : Text) : Prop := t ≠ [] ∧ ∀ c ∈ t, Lexer.isSymbolPoint c = true

instance (t : Text) : Decidable (IsSymbol t) := inferInstanceAs (Decidable (_ ∧ _))

namespace Lexed

@[simp] theorem prepend_nil (l : Lexed) : l.prepend [] = l := rfl

@[simp] theorem prepend_prepend (l : Lexed) (ts us : List Token) :
    (l.prepend us).prepend ts = l.prepend (ts ++ us) := by
  simp [prepend]

@[simp] theorem tokens_prepend (l : Lexed) (ts : List Token) :
    (l.prepend ts).tokens = ts ++ l.tokens := rfl

end Lexed

namespace Lexer

theorem run_cons (position : Nat) (mode : Mode) (c : CodePoint) (cs : Text) :
    run position mode (c :: cs) =
      (run (position + 1) (step position c mode).2 cs).prepend (step position c mode).1 := by
  rw [run]
  split
  case h_1 h => rw [h, Lexed.prepend_nil]
  case h_2 h => rw [h]

theorem isDelimiter_of_isSymbolPoint {c : CodePoint} (h : isSymbolPoint c = true) :
    c.isBlank = false ∧ isDelimiter c = false := by
  simpa [isSymbolPoint] using h

theorem start_of_isSymbolPoint (position : Nat) {c : CodePoint} (h : isSymbolPoint c = true) :
    start position c = (none, .symbol [c]) := by
  obtain ⟨hblank, hdelim⟩ := isDelimiter_of_isSymbolPoint h
  simp only [isDelimiter, Bool.or_eq_false_iff, decide_eq_false_iff_not] at hdelim
  obtain ⟨⟨⟨⟨hopen, hclose⟩, hquote⟩, hstring⟩, hcomment⟩ := hdelim
  simp only [start, hblank, hcomment, hquote, hopen, hclose, hstring, Bool.false_eq_true, if_false]

/-- Nothing that a symbol could run on to. -/
def EndsSymbol (rest : Text) : Prop := ∀ c ∈ rest.head?, isSymbolPoint c = false

theorem endsSymbol_nil : EndsSymbol [] := nofun

theorem endsSymbol_cons {c : CodePoint} {rest : Text} (h : isSymbolPoint c = false) :
    EndsSymbol (c :: rest) := by
  rintro c' ⟨⟩
  exact h

/-- In front of anything that ends a symbol, the text is lexed as the tokens. -/
def Spells (t : Text) (ts : List Token) : Prop :=
  ∀ position rest, EndsSymbol rest →
    run position .gap (t ++ rest) = (run (position + t.length) .gap rest).prepend ts

theorem run_symbol {t rest : Text} (ht : ∀ c ∈ t, isSymbolPoint c = true) (hr : EndsSymbol rest)
    (position : Nat) (read : Text) :
    run position (.symbol read) (t ++ rest) =
      (run (position + t.length) .gap rest).prepend [token .symbol (t.reverse ++ read)] := by
  induction t generalizing position read with
  | nil =>
    cases rest with
    | nil => rfl
    | cons c rest =>
      have hc : isSymbolPoint c = false := hr c rfl
      simp [run_cons, step, hc]
  | cons c t ih =>
    have hc : isSymbolPoint c = true := ht c List.mem_cons_self
    rw [List.cons_append, run_cons]
    simp only [step, hc, if_true, Lexed.prepend_nil]
    rw [ih fun c' h ↦ ht c' (List.mem_cons_of_mem c h)]
    simp [Nat.add_assoc, Nat.add_comm 1]

theorem spells_symbol {t : Text} (h : IsSymbol t) : Spells t [⟨.symbol, t⟩] := by
  intro position rest hr
  obtain ⟨hne, ht⟩ := h
  obtain ⟨c, cs, rfl⟩ := List.exists_cons_of_ne_nil hne
  have hstart := start_of_isSymbolPoint position (ht c List.mem_cons_self)
  rw [List.cons_append, run_cons]
  simp only [step, hstart, Option.toList_none, Lexed.prepend_nil]
  rw [run_symbol (fun c' h ↦ ht c' (List.mem_cons_of_mem c h)) hr]
  simp [token, Nat.add_assoc, Nat.add_comm 1]

theorem run_stringBody (t : Text) (position opened : Nat) (read rest : Text) :
    run position (.string opened read) (t.flatMap Datum.escaped ++ .scalar '"' :: rest) =
      (run (position + (t.flatMap Datum.escaped).length + 1) .gap rest).prepend
        [token .string (.scalar '"' :: ((t.flatMap Datum.escaped).reverse ++ read))] := by
  induction t generalizing position read with
  | nil => simp [run_cons, step]
  | cons c t ih =>
    by_cases hc : c = '\\' ∨ c = '"'
    · -- The backslash takes the point after it into the string, whatever it is.
      have he : Datum.escaped c = [.scalar '\\', c] := if_pos hc
      simp only [List.flatMap_cons, he, List.cons_append, List.nil_append, run_cons]
      simp only [step, CodePoint.scalar.injEq, Char.reduceEq, if_false, if_true,
        Lexed.prepend_nil, ih, List.length_cons, List.reverse_cons, List.append_assoc,
        List.cons_append, List.nil_append]
      congr 2
      omega
    · have he : Datum.escaped c = [c] := if_neg hc
      obtain ⟨hslash, hquote⟩ := not_or.1 hc
      simp only [List.flatMap_cons, he, List.cons_append, List.nil_append, run_cons]
      simp only [step, hslash, hquote, if_false, Lexed.prepend_nil, ih, List.length_cons,
        List.reverse_cons, List.append_assoc, List.cons_append, List.nil_append]
      congr 2
      omega

theorem spells_stringLiteral (t : Text) :
    Spells (Datum.stringLiteral t) [⟨.string, Datum.stringLiteral t⟩] := by
  intro position rest _
  have htext : Datum.stringLiteral t =
      .scalar '"' :: (t.flatMap Datum.escaped ++ [.scalar '"']) := rfl
  have hstart : step position (.scalar '"') .gap = ([], .string position [.scalar '"']) := rfl
  rw [htext, List.cons_append, run_cons, hstart, Lexed.prepend_nil, List.append_assoc,
    List.singleton_append, run_stringBody]
  simp [token, Nat.add_assoc, Nat.add_comm, Nat.add_left_comm]

theorem spells_nil : Spells [] [] := fun _ _ _ ↦ rfl

theorem Spells.quote {t : Text} {ts : List Token} (h : Spells t ts) :
    Spells (.scalar '\x27' :: t) (⟨.quote, [.scalar '\x27']⟩ :: ts) := by
  intro position rest hr
  have hstep : step position (.scalar '\x27') .gap =
    ([⟨.quote, [.scalar '\x27']⟩], .gap) := rfl
  rw [List.cons_append, run_cons, hstep, h _ _ hr]
  simp [Nat.add_assoc, Nat.add_comm 1]

theorem Spells.parens {t : Text} {ts : List Token} (h : Spells t ts) :
    Spells (.scalar '(' :: (t ++ [.scalar ')']))
      (⟨.open, [.scalar '(']⟩ :: (ts ++ [⟨.close, [.scalar ')']⟩])) := by
  intro position rest _
  have hopen (n : Nat) : step n (.scalar '(') .gap = ([⟨.open, [.scalar '(']⟩], .gap) := rfl
  have hclose (n : Nat) : step n (.scalar ')') .gap = ([⟨.close, [.scalar ')']⟩], .gap) := rfl
  rw [List.cons_append, List.append_assoc, List.singleton_append, run_cons, hopen,
    h _ _ (endsSymbol_cons rfl), run_cons, hclose]
  simp [Nat.add_comm, Nat.add_left_comm]

theorem Spells.space {t u : Text} {ts us : List Token} (h : Spells t ts) (h' : Spells u us) :
    Spells (t ++ .scalar ' ' :: u) (ts ++ us) := by
  intro position rest hr
  have hspace (n : Nat) : step n (.scalar ' ') .gap = ([], .gap) := rfl
  rw [List.append_assoc, List.cons_append, h _ _ (endsSymbol_cons rfl), run_cons, hspace,
    h' _ _ hr]
  simp [Nat.add_assoc, Nat.add_comm, Nat.add_left_comm]

theorem Spells.lex_eq {t : Text} {ts : List Token} (h : Spells t ts) : lex t = ⟨ts, none⟩ := by
  have hrun := h 0 [] endsSymbol_nil
  rw [List.append_nil] at hrun
  rw [lex, hrun]
  simp [run, finish, Lexed.prepend]

def Mode.Sound : Mode → Prop
  | .symbol read => IsSymbol read
  | _ => True

theorem isSymbol_reverse {t : Text} (h : IsSymbol t) : IsSymbol t.reverse :=
  ⟨by simpa using h.1, fun c hc ↦ h.2 c (List.mem_reverse.1 hc)⟩

theorem start_sound (position : Nat) (c : CodePoint) :
    (∀ t ∈ (start position c).1, t.kind ≠ .symbol) ∧ (start position c).2.Sound := by
  by_cases hc : isSymbolPoint c = true
  · rw [start_of_isSymbolPoint position hc]
    exact ⟨nofun, List.cons_ne_nil c [], by simpa using hc⟩
  · unfold start
    split
    case isTrue => exact ⟨nofun, trivial⟩
    case isFalse hblank =>
    split
    case isTrue => exact ⟨nofun, trivial⟩
    case isFalse hcomment =>
    split
    case isTrue => exact ⟨by rintro t ⟨⟩; nofun, trivial⟩
    case isFalse hquote =>
    split
    case isTrue => exact ⟨by rintro t ⟨⟩; nofun, trivial⟩
    case isFalse hopen =>
    split
    case isTrue => exact ⟨by rintro t ⟨⟩; nofun, trivial⟩
    case isFalse hclose =>
    split
    case isTrue => exact ⟨nofun, trivial⟩
    case isFalse hstring =>
      exact absurd (by simp [isSymbolPoint, isDelimiter, hblank, hcomment, hquote, hopen, hclose,
        hstring]) hc

theorem step_sound (position : Nat) (c : CodePoint) {mode : Mode} (h : mode.Sound) :
    (∀ t ∈ (step position c mode).1, t.kind = .symbol → IsSymbol t.text) ∧
      (step position c mode).2.Sound := by
  obtain ⟨hstart, hnext⟩ := start_sound position c
  cases mode with
  | gap => exact ⟨fun t ht hk ↦ absurd hk (hstart t (Option.mem_toList.1 ht)), hnext⟩
  | comment =>
    refine ⟨nofun, ?_⟩
    simp only [step]
    split <;> trivial
  | symbol read =>
    simp only [step]
    split
    case isTrue hc =>
      refine ⟨nofun, List.cons_ne_nil c read, fun c' hc' ↦ ?_⟩
      rcases List.mem_cons.1 hc' with rfl | hc'
      · exact hc
      · exact h.2 c' hc'
    case isFalse =>
      refine ⟨fun t ht hk ↦ ?_, hnext⟩
      rcases List.mem_cons.1 ht with rfl | ht
      · exact isSymbol_reverse h
      · exact absurd hk (hstart t (Option.mem_toList.1 ht))
  | string opened read =>
    simp only [step]
    split
    case isTrue => exact ⟨by simp [token], trivial⟩
    case isFalse => split <;> exact ⟨nofun, trivial⟩
  | escape opened read => exact ⟨nofun, trivial⟩

theorem isSymbol_of_mem_run {source : Text} {position : Nat} {mode : Mode} (hmode : mode.Sound)
    {t : Token} (ht : t ∈ (run position mode source).tokens) (hk : t.kind = .symbol) :
    IsSymbol t.text := by
  induction source generalizing position mode with
  | nil =>
    cases mode with
    | symbol read =>
      obtain rfl := List.mem_singleton.1 ht
      exact isSymbol_reverse hmode
    | gap | comment | string | escape => cases ht
  | cons c source ih =>
    obtain ⟨htokens, hnext⟩ := step_sound position c hmode
    rw [run_cons, Lexed.tokens_prepend, List.mem_append] at ht
    rcases ht with ht | ht
    · exact htokens t ht hk
    · exact ih hnext ht

theorem isSymbol_of_mem_lex {source : Text} {t : Token} (ht : t ∈ (lex source).tokens)
    (hk : t.kind = .symbol) : IsSymbol t.text := by
  have hgap : Mode.gap.Sound := trivial
  exact isSymbol_of_mem_run hgap ht hk

end Lexer

end LittleLisp

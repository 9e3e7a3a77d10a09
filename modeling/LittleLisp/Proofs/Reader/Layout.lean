import LittleLisp.Proofs.Reader.Faults

namespace LittleLisp

open Lexer

/-- Blanks and comments; a comment runs to the end of its line. -/
inductive Gap : Text → Prop
  | nil : Gap []
  | blank {c : CodePoint} {gap : Text} (isBlank : c.isBlank = true) (rest : Gap gap) :
      Gap (c :: gap)
  | comment {line gap : Text} (inLine : .scalar '\n' ∉ line) (rest : Gap gap) :
      Gap (.scalar ';' :: (line ++ .scalar '\n' :: gap))

/-- A gap at the end of a text, where a comment may run to the end of the text. -/
inductive LastGap : Text → Prop
  | closed {gap : Text} (closed : Gap gap) : LastGap gap
  | comment {gap line : Text} (before : Gap gap) (inLine : .scalar '\n' ∉ line) :
      LastGap (gap ++ .scalar ';' :: line)

/-- The inside of a string literal: a backslash takes the next code point with it, whatever it is,
and no other double quote stands there. -/
inductive LiteralBody : Text → Prop
  | nil : LiteralBody []
  | escaped {body : Text} (c : CodePoint) (rest : LiteralBody body) :
      LiteralBody (.scalar '\\' :: c :: body)
  | plain {c : CodePoint} {body : Text} (noSlash : c ≠ .scalar '\\') (noQuote : c ≠ .scalar '"')
      (rest : LiteralBody body) : LiteralBody (c :: body)

/-- After a double quote: no double quote closes what it opened. -/
def Unclosed (text : Text) : Prop :=
  ∀ body rest, LiteralBody body → text ≠ body ++ .scalar '"' :: rest

def Token.Spelled (t : Token) : Prop :=
  match t.kind with
  | .quote => t.text = [.scalar '\x27']
  | .open => t.text = [.scalar '(']
  | .close => t.text = [.scalar ')']
  | .string => ∃ body, LiteralBody body ∧ t.text = .scalar '"' :: (body ++ [.scalar '"'])
  | .symbol => IsSymbol t.text
  | .other _ => False

/-- A gap and then pieces, each a token and the gap after it. Two symbols with no gap between them
would be one. -/
inductive Laid (ending : Text → Prop) : Text → List (Token × Text) → Prop
  | last {gap : Text} (ends : ending gap) : Laid ending gap []
  | token {gap next : Text} {t : Token} {pieces : List (Token × Text)} (before : Gap gap)
      (spelled : t.Spelled)
      (apart : t.kind = .symbol → ∀ p ∈ pieces.head?, p.1.kind = .symbol → next ≠ [])
      (rest : Laid ending next pieces) : Laid ending gap ((t, next) :: pieces)

@[ext]
structure Layout where
  lead : Text
  pieces : List (Token × Text)
  laid : Laid LastGap lead pieces

namespace Layout

def tokens (l : Layout) : List Token := l.pieces.map Prod.fst

def join (lead : Text) (pieces : List (Token × Text)) : Text :=
  lead ++ pieces.flatMap fun p ↦ p.1.text ++ p.2

def text (l : Layout) : Text := join l.lead l.pieces

theorem join_cons (gap next : Text) (t : Token) (pieces : List (Token × Text)) :
    join gap ((t, next) :: pieces) = gap ++ (t.text ++ join next pieces) := by
  simp [join]

theorem join_append (gap gap' : Text) (pieces : List (Token × Text)) :
    join (gap ++ gap') pieces = gap ++ join gap' pieces :=
  List.append_assoc _ _ _

end Layout

open Layout

namespace Gap

theorem append {gap gap' : Text} (h : Gap gap) (h' : Gap gap') : Gap (gap ++ gap') := by
  induction h with
  | nil => exact h'
  | blank isBlank _ ih => exact .blank isBlank ih
  | comment inLine _ ih =>
    rw [List.cons_append, List.append_assoc, List.cons_append]
    exact .comment inLine ih

/-- Nothing that a gap could begin with. -/
def Ends (rest : Text) : Prop := ∀ c ∈ rest.head?, c.isBlank = false ∧ c ≠ .scalar ';'

theorem ends_cons {c : CodePoint} {rest : Text} (hblank : c.isBlank = false)
    (hcomment : c ≠ .scalar ';') : Ends (c :: rest) := by
  rintro c' ⟨⟩
  exact ⟨hblank, hcomment⟩

theorem line_unique {line line' rest rest' : Text} (h : .scalar '\n' ∉ line)
    (h' : .scalar '\n' ∉ line')
    (heq : line ++ .scalar '\n' :: rest = line' ++ .scalar '\n' :: rest') :
    line = line' ∧ rest = rest' := by
  induction line generalizing line' with
  | nil =>
    cases line' with
    | nil => exact ⟨rfl, (List.cons.inj heq).2⟩
    | cons c line' => exact absurd ((List.cons.inj heq).1 ▸ List.mem_cons_self) h'
  | cons c line ih =>
    cases line' with
    | nil => exact absurd ((List.cons.inj heq).1 ▸ List.mem_cons_self) h
    | cons c' line' =>
      obtain ⟨rfl, htail⟩ := List.cons.inj heq
      obtain ⟨rfl, rfl⟩ := ih (fun hc ↦ h (List.mem_cons_of_mem c hc))
        (fun hc ↦ h' (List.mem_cons_of_mem c hc)) htail
      exact ⟨rfl, rfl⟩

/-- A gap goes as far as it can, so a text begins with one gap only. -/
theorem unique {gap gap' rest rest' : Text} (h : Gap gap) (h' : Gap gap') (hr : Ends rest)
    (hr' : Ends rest') (heq : gap ++ rest = gap' ++ rest') : gap = gap' ∧ rest = rest' := by
  induction h generalizing gap' with
  | nil =>
    rw [List.nil_append] at heq
    subst heq
    cases h' with
    | nil => exact ⟨rfl, rfl⟩
    | blank isBlank => exact absurd (hr _ rfl).1 (by simp [isBlank])
    | comment => exact absurd rfl (hr _ rfl).2
  | blank isBlank _ ih =>
    cases h' with
    | nil =>
      rw [List.nil_append] at heq
      subst heq
      exact absurd (hr' _ rfl).1 (by simp [isBlank])
    | blank _ rest' =>
      obtain ⟨rfl, htail⟩ := List.cons.inj heq
      obtain ⟨rfl, rfl⟩ := ih rest' htail
      exact ⟨rfl, rfl⟩
    | comment =>
      obtain ⟨rfl, -⟩ := List.cons.inj heq
      cases isBlank
  | comment inLine _ ih =>
    cases h' with
    | nil =>
      rw [List.nil_append] at heq
      subst heq
      exact absurd rfl (hr' _ rfl).2
    | blank isBlank =>
      obtain ⟨rfl, -⟩ := List.cons.inj heq
      cases isBlank
    | comment inLine' rest' =>
      simp only [List.cons_append, List.append_assoc] at heq
      obtain ⟨rfl, htail⟩ := line_unique inLine inLine' (List.cons.inj heq).2
      obtain ⟨rfl, rfl⟩ := ih rest' htail
      exact ⟨rfl, rfl⟩

end Gap

theorem LastGap.append {gap gap' : Text} (h : Gap gap) (h' : LastGap gap') :
    LastGap (gap ++ gap') := by
  cases h' with
  | closed closed => exact .closed (h.append closed)
  | comment before inLine =>
    rw [← List.append_assoc]
    exact .comment (h.append before) inLine

namespace Unclosed

variable {text : Text}

theorem of_escaped {c : CodePoint} (h : Unclosed (.scalar '\\' :: c :: text)) : Unclosed text := by
  rintro body rest hbody rfl
  exact h _ rest (.escaped c hbody) rfl

theorem of_plain {c : CodePoint} (hslash : c ≠ .scalar '\\') (hquote : c ≠ .scalar '"')
    (h : Unclosed (c :: text)) : Unclosed text := by
  rintro body rest hbody rfl
  exact h _ rest (.plain hslash hquote hbody) rfl

theorem of_append {rest : Text} (h : Unclosed (text ++ rest)) : Unclosed text := by
  rintro body rest' hbody rfl
  exact h body (rest' ++ rest) hbody (by simp)

end Unclosed

theorem endsSymbol_blank {c : CodePoint} {rest : Text} (h : c.isBlank = true) :
    EndsSymbol (c :: rest) :=
  endsSymbol_cons (by simp [isSymbolPoint, h])

theorem LastGap.endsSymbol {gap : Text} (h : LastGap gap) (hne : gap ≠ []) (rest : Text) :
    EndsSymbol (gap ++ rest) := by
  cases h with
  | closed closed =>
    cases closed with
    | nil => exact absurd rfl hne
    | blank isBlank => exact endsSymbol_blank isBlank
    | comment => exact endsSymbol_cons rfl
  | comment before =>
    cases before with
    | nil => exact endsSymbol_cons rfl
    | blank isBlank => exact endsSymbol_blank isBlank
    | comment => exact endsSymbol_cons rfl

namespace Token.Spelled

variable {t : Token}

theorem head (h : t.Spelled) : ∃ c text, t.text = c :: text ∧ c.isBlank = false ∧
    c ≠ .scalar ';' ∧ (isSymbolPoint c = true ↔ t.kind = .symbol) := by
  obtain ⟨kind, text⟩ := t
  cases kind with
  | quote | «open» | close => exact ⟨_, [], h, rfl, nofun, iff_of_false nofun nofun⟩
  | string =>
    obtain ⟨body, -, htext⟩ := h
    exact ⟨_, _, htext, rfl, nofun, iff_of_false nofun nofun⟩
  | symbol =>
    obtain ⟨hne, hpoints⟩ := h
    obtain ⟨c, cs, rfl⟩ := List.exists_cons_of_ne_nil hne
    have hc := hpoints c List.mem_cons_self
    refine ⟨c, cs, rfl, (isDelimiter_of_isSymbolPoint hc).1, ?_, iff_of_true hc rfl⟩
    rintro rfl
    cases hc
  | other name => cases h

theorem ends (h : t.Spelled) (rest : Text) : Gap.Ends (t.text ++ rest) := by
  obtain ⟨c, text, htext, hblank, hcomment, -⟩ := h.head
  rw [htext]
  exact Gap.ends_cons hblank hcomment

theorem endsSymbol_iff (h : t.Spelled) (rest : Text) :
    EndsSymbol (t.text ++ rest) ↔ t.kind ≠ .symbol := by
  obtain ⟨c, text, htext, -, -, hpoint⟩ := h.head
  rw [htext, Ne, ← hpoint, Bool.not_eq_true]
  exact ⟨fun h ↦ h c rfl, endsSymbol_cons⟩

end Token.Spelled

section Runs

variable {rest : Text}

theorem run_blank {c : CodePoint} (h : c.isBlank = true) (position : Nat) :
    run position .gap (c :: rest) = run (position + 1) .gap rest := by
  rw [run_cons]
  simp [step, start, h]

theorem run_comment {line : Text} (h : .scalar '\n' ∉ line) (position : Nat) :
    run position .comment (line ++ rest) = run (position + line.length) .comment rest := by
  induction line generalizing position with
  | nil => rfl
  | cons c line ih =>
    obtain ⟨hc, hline⟩ := not_or.1 (List.mem_cons.not.1 h)
    have hstep : step position c .comment = ([], .comment) := by simp [step, Ne.symm hc]
    rw [List.cons_append, run_cons, hstep, Lexed.prepend_nil, ih hline, List.length_cons,
      Nat.add_right_comm, Nat.add_assoc]

theorem Gap.run {gap : Text} (h : Gap gap) (position : Nat) :
    run position .gap (gap ++ rest) = run (position + gap.length) .gap rest := by
  induction h generalizing position with
  | nil => rfl
  | blank isBlank _ ih =>
    rw [List.cons_append, run_blank isBlank, ih, List.length_cons, Nat.add_right_comm,
      Nat.add_assoc]
  | @comment line gap inLine _ ih =>
    have hopens : step position (.scalar ';') .gap = ([], .comment) := rfl
    have hcloses (n : Nat) : step n (.scalar '\n') .comment = ([], .gap) := rfl
    rw [List.cons_append, List.append_assoc, List.cons_append, run_cons, hopens, Lexed.prepend_nil,
      run_comment inLine, run_cons, hcloses, Lexed.prepend_nil, ih]
    congr 1
    simp only [List.length_cons, List.length_append]
    omega

theorem LastGap.run {gap : Text} (h : LastGap gap) (position : Nat) :
    run position .gap gap = ⟨[], none⟩ := by
  cases h with
  | closed closed =>
    rw [← List.append_nil gap]
    exact closed.run position
  | @comment gap line before inLine =>
    have hopens (n : Nat) : step n (.scalar ';') .gap = ([], .comment) := rfl
    rw [before.run, run_cons, hopens, Lexed.prepend_nil, ← List.append_nil line]
    exact run_comment inLine _

theorem LiteralBody.run {body : Text} (h : LiteralBody body) (position opened : Nat) (read : Text) :
    run position (.string opened read) (body ++ .scalar '"' :: rest) =
      (run (position + body.length + 1) .gap rest).prepend
        [token .string (.scalar '"' :: (body.reverse ++ read))] := by
  induction h generalizing position read with
  | nil => simp [run_cons, step]
  | escaped c _ ih =>
    simp only [List.cons_append, run_cons]
    simp only [step, CodePoint.scalar.injEq, Char.reduceEq, if_false, if_true, Lexed.prepend_nil,
      ih, List.length_cons, List.reverse_cons, List.append_assoc, List.cons_append,
      List.nil_append]
    congr 2
    omega
  | plain noSlash noQuote _ ih =>
    simp only [List.cons_append, run_cons]
    simp only [step, noSlash, noQuote, if_false, Lexed.prepend_nil, ih, List.length_cons,
      List.reverse_cons, List.append_assoc, List.cons_append, List.nil_append]
    congr 2
    omega

theorem Unclosed.run {text : Text} (h : Unclosed text) (position opened : Nat) (read : Text) :
    run position (.string opened read) text = ⟨[], some (.unterminatedString opened)⟩ := by
  induction hn : text.length using Nat.strong_induction_on generalizing text position read with
  | _ n ih =>
    cases text with
    | nil => rfl
    | cons c text =>
      subst hn
      by_cases hquote : c = .scalar '"'
      · exact absurd (by rw [hquote]; rfl) (h [] text .nil)
      · by_cases hslash : c = .scalar '\\'
        · subst hslash
          -- The backslash takes a code point with it, if there is one.
          cases text with
          | nil => rfl
          | cons c text =>
            simp only [run_cons, step, CodePoint.scalar.injEq, Char.reduceEq, if_false, if_true,
              Lexed.prepend_nil]
            exact ih text.length (by simp only [List.length_cons]; omega) h.of_escaped _ _ rfl
        · simp only [run_cons, step, hquote, hslash, if_false, Lexed.prepend_nil]
          exact ih text.length (by simp) (h.of_plain hslash hquote) _ _ rfl

theorem Token.Spelled.run {t : Token} (h : t.Spelled) (hr : t.kind = .symbol → EndsSymbol rest)
    (position : Nat) : run position .gap (t.text ++ rest) =
      (run (position + t.text.length) .gap rest).prepend [t] := by
  obtain ⟨kind, text⟩ := t
  cases kind with
  | quote | «open» | close =>
    cases h
    exact run_cons _ _ _ _
  | string =>
    obtain ⟨body, hbody, htext⟩ := h
    cases htext
    have hstep : step position (.scalar '"') .gap = ([], .string position [.scalar '"']) := rfl
    simp only [List.cons_append, List.append_assoc, List.nil_append]
    rw [run_cons, hstep, Lexed.prepend_nil, hbody.run]
    simp [Lexer.token, Nat.add_assoc, Nat.add_comm 1]
  | symbol => exact spells_symbol h position rest (hr rfl)
  | other name => cases h

end Runs

namespace Laid

variable {ending ending' : Text → Prop} {gap gap' rest : Text}
  {pieces pieces' : List (Token × Text)}

theorem mono (h : Laid ending gap pieces) (hend : ∀ gap, ending gap → ending' gap) :
    Laid ending' gap pieces := by
  induction h with
  | last ends => exact .last (hend _ ends)
  | token before spelled apart _ ih => exact .token before spelled apart ih

theorem prepend (h : Laid ending gap' pieces) (hgap : Gap gap)
    (hend : ∀ gap', ending gap' → ending (gap ++ gap')) : Laid ending (gap ++ gap') pieces := by
  cases h with
  | last ends => exact .last (hend _ ends)
  | token before spelled apart rest => exact .token (hgap.append before) spelled apart rest

theorem endsSymbol (h : Laid LastGap gap pieces) (hr : EndsSymbol rest)
    (hapart : ∀ p ∈ pieces.head?, p.1.kind = .symbol → gap ≠ []) :
    EndsSymbol (join gap pieces ++ rest) := by
  rw [join, List.append_assoc]
  by_cases hgap : gap = []
  · subst hgap
    cases h with
    | last => exact hr
    | token _ spelled =>
      rw [List.nil_append, List.flatMap_cons, List.append_assoc, List.append_assoc,
        spelled.endsSymbol_iff]
      exact fun hk ↦ hapart _ rfl hk rfl
  · have hlast : LastGap gap := by
      cases h with
      | last ends => exact ends
      | token before => exact .closed before
    exact hlast.endsSymbol hgap _

/-- The lexer finds the tokens of a layout. -/
theorem run (h : Laid ending gap pieces) (hend : ∀ gap, ending gap → LastGap gap)
    (hlast : ∀ gap, ending gap → ∀ position,
      run position .gap (gap ++ rest) = Lexer.run (position + gap.length) .gap rest)
    (hr : EndsSymbol rest) (position : Nat) :
    run position .gap (join gap pieces ++ rest) =
      (Lexer.run (position + (join gap pieces).length) .gap rest).prepend
        (pieces.map Prod.fst) := by
  induction h generalizing position with
  | last ends => simpa [join] using hlast _ ends position
  | token before spelled apart rest' ih =>
    have hnext := fun hk ↦ (rest'.mono hend).endsSymbol hr (apart hk)
    rw [join_cons, List.append_assoc, List.append_assoc, before.run, spelled.run hnext, ih,
      Lexed.prepend_prepend]
    congr 2
    simp only [List.length_append]
    omega

theorem lex_eq (h : Laid LastGap gap pieces) :
    lex (join gap pieces) = ⟨pieces.map Prod.fst, none⟩ := by
  have hlast : ∀ gap, LastGap gap → ∀ position, Lexer.run position .gap (gap ++ []) =
      Lexer.run (position + gap.length) .gap [] := by
    intro gap hgap position
    rw [List.append_nil, hgap.run]
    rfl
  have hrun := h.run (fun _ ↦ id) hlast endsSymbol_nil 0
  rw [List.append_nil] at hrun
  rw [lex, hrun]
  simp [Lexer.run, finish, Lexed.prepend]

theorem lex_unclosed (h : Laid Gap gap pieces) (hrest : Unclosed rest) :
    lex (join gap pieces ++ .scalar '"' :: rest) =
      ⟨pieces.map Prod.fst, some (.unterminatedString (join gap pieces).length)⟩ := by
  have hquote : EndsSymbol (.scalar '"' :: rest) := endsSymbol_cons rfl
  have hstep (n : Nat) : step n (.scalar '"') .gap = ([], .string n [.scalar '"']) := rfl
  rw [lex, h.run (fun _ ↦ .closed) (fun _ hgap ↦ hgap.run) hquote 0, Nat.zero_add, run_cons, hstep,
    Lexed.prepend_nil, hrest.run]
  simp [Lexed.prepend]

theorem unique (h : Laid ending gap pieces) (h' : Laid ending gap' pieces')
    (htokens : pieces.map Prod.fst = pieces'.map Prod.fst)
    (htext : join gap pieces = join gap' pieces') : gap = gap' ∧ pieces = pieces' := by
  induction h generalizing gap' pieces' with
  | last =>
    obtain rfl := List.map_eq_nil_iff.1 htokens.symm
    simpa [join] using htext
  | token before spelled _ _ ih =>
    cases h' with
    | last => cases htokens
    | token before' spelled' _ rest' =>
      obtain ⟨hfirst, htail⟩ := List.cons.inj htokens
      cases hfirst
      rw [join_cons, join_cons] at htext
      obtain ⟨rfl, hafter⟩ := before.unique before' (spelled.ends _) (spelled.ends _) htext
      obtain ⟨rfl, rfl⟩ := ih rest' htail (List.append_cancel_left hafter)
      exact ⟨rfl, rfl⟩

end Laid

/-- A text is laid out to its end, or up to a double quote that nothing closes. -/
def Scanned (source : Text) : Prop :=
  (∃ gap pieces, Laid LastGap gap pieces ∧ join gap pieces = source) ∨
    ∃ gap pieces rest, Laid Gap gap pieces ∧ Unclosed rest ∧
      join gap pieces ++ .scalar '"' :: rest = source

namespace Scanned

variable {source : Text}

theorem gap {lead : Text} (h : Scanned source) (hgap : Gap lead) : Scanned (lead ++ source) := by
  rcases h with ⟨gap, pieces, hlaid, rfl⟩ | ⟨gap, pieces, rest, hlaid, hrest, rfl⟩
  · exact .inl ⟨lead ++ gap, pieces, hlaid.prepend hgap fun _ ↦ .append hgap, join_append _ _ _⟩
  · refine .inr ⟨lead ++ gap, pieces, rest, hlaid.prepend hgap fun _ ↦ hgap.append, hrest, ?_⟩
    rw [join_append, List.append_assoc]

/-- After a symbol that goes as far as it can, no symbol follows without a gap. -/
theorem apart_of_endsSymbol {ending : Text → Prop} {gap rest : Text}
    {pieces : List (Token × Text)} (h : Laid ending gap pieces)
    (hends : EndsSymbol (join gap pieces ++ rest)) :
    ∀ p ∈ pieces.head?, p.1.kind = .symbol → gap ≠ [] := by
  rintro ⟨t, next⟩ hp hk rfl
  cases h with
  | last => cases hp
  | token _ spelled =>
    cases hp
    rw [join_cons, List.nil_append, List.append_assoc, spelled.endsSymbol_iff] at hends
    exact hends hk

theorem token {t : Token} (h : Scanned source) (ht : t.Spelled)
    (hends : t.kind = .symbol → EndsSymbol source) : Scanned (t.text ++ source) := by
  rcases h with ⟨gap, pieces, hlaid, rfl⟩ | ⟨gap, pieces, rest, hlaid, hrest, rfl⟩
  · rw [← List.append_nil (join gap pieces)] at hends
    have hapart := fun hk ↦ apart_of_endsSymbol hlaid (hends hk)
    exact .inl ⟨[], (t, gap) :: pieces, .token .nil ht hapart hlaid, join_cons _ _ _ _⟩
  · have hapart := fun hk ↦ apart_of_endsSymbol hlaid (hends hk)
    refine .inr ⟨[], (t, gap) :: pieces, rest, .token .nil ht hapart hlaid, hrest, ?_⟩
    rw [join_cons, List.nil_append, List.append_assoc]

theorem nil : Scanned [] := .inl ⟨[], [], .last (.closed .nil), rfl⟩

end Scanned

theorem blank_or_delimiter {c : CodePoint} (h : isSymbolPoint c = false) :
    c.isBlank = true ∨ c = .scalar '(' ∨ c = .scalar ')' ∨ c = .scalar '\x27' ∨
      c = .scalar '"' ∨ c = .scalar ';' := by
  cases hblank : c.isBlank with
  | true => exact .inl rfl
  | false => simpa [isSymbolPoint, hblank, isDelimiter, Decidable.or_iff_not_imp_left] using h

theorem scanned (source : Text) : Scanned source := by
  induction hn : source.length using Nat.strong_induction_on generalizing source with
  | _ n ih =>
    cases source with
    | nil => exact .nil
    | cons c source =>
      subst hn
      have hshorter : ∀ text : Text, text.length ≤ source.length → Scanned text := by
        intro text hle
        exact ih text.length (Nat.lt_succ_of_le hle) text rfl
      cases hc : isSymbolPoint c with
      | true =>
        -- The symbol takes all symbol points that follow.
        have hspan := List.takeWhile_append_dropWhile (p := isSymbolPoint) (l := source)
        have hpoints : IsSymbol (c :: source.takeWhile isSymbolPoint) := by
          refine ⟨List.cons_ne_nil _ _, List.forall_mem_cons.2 ⟨hc, ?_⟩⟩
          exact fun c' hc' ↦ List.mem_takeWhile_imp hc'
        have hends : EndsSymbol (source.dropWhile isSymbolPoint) := by
          intro c' hc'
          have hnot := List.head?_dropWhile_not isSymbolPoint source
          rw [Option.mem_def.1 hc'] at hnot
          exact hnot
        have htoken := (hshorter _ (List.dropWhile_suffix _).length_le).token
          (t := ⟨.symbol, c :: source.takeWhile isSymbolPoint⟩) hpoints fun _ ↦ hends
        rwa [List.cons_append, hspan] at htoken
      | false =>
        have hself := hshorter source (Nat.le_refl _)
        rcases blank_or_delimiter hc with hblank | rfl | rfl | rfl | rfl | rfl
        · exact hself.gap (.blank hblank .nil)
        · exact hself.token (t := ⟨.open, [.scalar '(']⟩) rfl nofun
        · exact hself.token (t := ⟨.close, [.scalar ')']⟩) rfl nofun
        · exact hself.token (t := ⟨.quote, [.scalar '\x27']⟩) rfl nofun
        · by_cases hclosed : ∃ body rest, LiteralBody body ∧ source = body ++ .scalar '"' :: rest
          · obtain ⟨body, rest, hbody, rfl⟩ := hclosed
            have hrest := hshorter rest (by simp only [List.length_append, List.length_cons]; omega)
            have htoken := hrest.token
              (t := ⟨.string, .scalar '"' :: (body ++ [.scalar '"'])⟩) ⟨body, hbody, rfl⟩ nofun
            simpa using htoken
          · refine .inr ⟨[], [], source, .last .nil, ?_, rfl⟩
            exact fun body rest hbody heq ↦ hclosed ⟨body, rest, hbody, heq⟩
        · by_cases hline : .scalar '\n' ∈ source
          · obtain ⟨line, rest, rfl, hnot⟩ := List.eq_append_cons_of_mem hline
            have hrest := hshorter rest (by simp only [List.length_append, List.length_cons]; omega)
            have hgap := hrest.gap (.comment hnot .nil)
            simpa using hgap
          · exact .inl ⟨_, [], .last (.comment .nil hline), by simp [join]⟩

theorem Layout.lex_text (l : Layout) : lex l.text = ⟨l.tokens, none⟩ := l.laid.lex_eq

theorem Layout.eq_of_text {l l' : Layout} (h : l.text = l'.text) : l = l' := by
  have hlex := l.lex_text
  rw [h, l'.lex_text] at hlex
  obtain ⟨hlead, hpieces⟩ := l.laid.unique l'.laid (congrArg Lexed.tokens hlex).symm h
  exact Layout.ext hlead hpieces

theorem Layout.length_le_of_unclosed {l : Layout} {gap rest : Text} {pieces : List (Token × Text)}
    (hlaid : Laid Gap gap pieces) (hrest : Unclosed rest)
    (h : l.text <+: join gap pieces ++ .scalar '"' :: rest) :
    l.text.length ≤ (join gap pieces).length := by
  refine Nat.le_of_not_lt fun hlt ↦ ?_
  obtain ⟨text, heq⟩ := List.prefix_of_prefix_length_le (List.prefix_append _ _) h hlt.le
  cases text with
  | nil => simp [← heq] at hlt
  | cons c text =>
    obtain ⟨after, hafter⟩ := h
    rw [← heq, List.append_assoc, List.append_cancel_left_eq, List.cons_append] at hafter
    obtain ⟨rfl, rfl⟩ := List.cons.inj hafter
    have hlex := l.lex_text
    rw [← heq, hlaid.lex_unclosed hrest.of_append] at hlex
    cases congrArg Lexed.fault hlex

/-- The lexer's language is tokens and gaps. A text is lexed to its end, with some tokens, if it has
a layout with these tokens; it has one layout at most. If it has none, the longest layout among its
prefixes ends before a double quote that nothing closes: its tokens are what the lexer yields, and
the position of the quote is what it reports. There is no other fault. -/
theorem lexes_tokens_and_gaps (source : Text) :
    (∀ ts, lex source = ⟨ts, none⟩ ↔ ∃ l : Layout, l.text = source ∧ l.tokens = ts) ∧
    (∀ l l' : Layout, l.text = source → l'.text = source → l = l') ∧
    ((¬ ∃ l : Layout, l.text = source) → ∃ (l : Layout) (rest : Text),
      source = l.text ++ .scalar '"' :: rest ∧ Unclosed rest ∧
      (∀ l' : Layout, l'.text <+: source → l'.text.length ≤ l.text.length) ∧
      lex source = ⟨l.tokens, some (.unterminatedString l.text.length)⟩) ∧
    ∀ f, (lex source).fault = some f → ∃ p : Nat, source[p]? = some (.scalar '"') ∧
      f = .unterminatedString p ∧ f.category = .malformed ∧
      f.message = ("Unterminated string at " ++ toString p : Text) := by
  refine ⟨fun ts ↦ ⟨fun hlex ↦ ?_, ?_⟩, fun l l' h h' ↦ Layout.eq_of_text (h.trans h'.symm),
    fun hnone ↦ ?_, fun f hf ↦ ?_⟩
  · rcases scanned source with ⟨gap, pieces, hlaid, rfl⟩ | ⟨gap, pieces, rest, hlaid, hrest, rfl⟩
    · refine ⟨⟨gap, pieces, hlaid⟩, rfl, ?_⟩
      exact congrArg Lexed.tokens (hlaid.lex_eq.symm.trans hlex)
    · rw [hlaid.lex_unclosed hrest] at hlex
      cases congrArg Lexed.fault hlex
  · rintro ⟨l, rfl, rfl⟩
    exact l.lex_text
  · rcases scanned source with ⟨gap, pieces, hlaid, rfl⟩ | ⟨gap, pieces, rest, hlaid, hrest, rfl⟩
    · exact absurd ⟨⟨gap, pieces, hlaid⟩, rfl⟩ hnone
    · exact ⟨⟨gap, pieces, hlaid.mono fun _ ↦ .closed⟩, rest, rfl, hrest,
        fun l' ↦ Layout.length_le_of_unclosed hlaid hrest, hlaid.lex_unclosed hrest⟩
  · obtain ⟨p, rfl, hp⟩ := fault_lex hf
    exact ⟨p, hp, rfl, rfl, rfl⟩

-- The backslash takes the second quote into the string, and the semicolon stays in it.
example : lex "a\"\\\";\"b;\"" =
    ⟨[⟨.symbol, "a"⟩, ⟨.string, "\"\\\";\""⟩, ⟨.symbol, "b"⟩], none⟩ := rfl

end LittleLisp

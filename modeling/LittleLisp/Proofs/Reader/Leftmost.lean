import LittleLisp.Proofs.Reader.Faults
import LittleLisp.Proofs.Reader.Grammar

namespace LittleLisp

namespace Token

def opened (ts : List Token) : Nat := ts.countP (·.kind = .open)

def closed (ts : List Token) : Nat := ts.countP (·.kind = .close)

def EndsInQuote (ts : List Token) : Prop := ∃ t ∈ ts.getLast?, t.kind = .quote

/-- No parenthesis is closed before it is opened, all are closed in the end, and after every quote
comes something to quote. -/
structure Balanced (ts : List Token) : Prop where
  closes : ∀ before, before <+: ts → closed before ≤ opened before
  total : opened ts = closed ts
  quotes : ∀ before after, ts = before ++ after → EndsInQuote before →
    ∃ t ∈ after.head?, t.kind ≠ .close

/-- What is wrong at a place between tokens: `before` has been read, `after` is to come, and a fault
of the lexer waits at the end. -/
inductive FaultAt (lexical : Option Fault) (before : List Token) : List Token → Fault → Prop
  | unmatchedClose {t : Token} {after : List Token} (close : t.kind = .close)
      (unquoted : ¬ EndsInQuote before) (level : opened before = closed before) :
      FaultAt lexical before (t :: after) .unmatchedClose
  | quoteBeforeClose {t : Token} {after : List Token} (close : t.kind = .close)
      (quoted : EndsInQuote before) : FaultAt lexical before (t :: after) .nothingToQuote
  /-- A second expression begins. -/
  | extraExpression {t : Token} {after : List Token} (begins : t.kind ≠ .close)
      (unquoted : ¬ EndsInQuote before) (level : opened before = closed before)
      (read : before ≠ []) : FaultAt lexical before (t :: after) .extraExpression
  | lexical {f : Fault} (waits : lexical = some f) : FaultAt lexical before [] f
  | quoteBeforeEnd (waits : lexical = none) (quoted : EndsInQuote before) :
      FaultAt lexical before [] .nothingToQuote
  | unmatchedOpen (waits : lexical = none) (unquoted : ¬ EndsInQuote before)
      (level : closed before < opened before) : FaultAt lexical before [] .unmatchedOpen

/-- The fault of the first place where something is wrong. -/
def Leftmost (lexical : Option Fault) (ts : List Token) (f : Fault) : Prop :=
  ∃ before after, ts = before ++ after ∧ FaultAt lexical before after f ∧
    ∀ before' after' f', ts = before' ++ after' → before'.length < before.length →
      ¬ FaultAt lexical before' after' f'

section Counting

variable (before : List Token) (t : Token)

theorem opened_concat :
    opened (before ++ [t]) = opened before + if t.kind = .open then 1 else 0 := by
  simp [opened, List.countP_append, List.countP_singleton]

theorem closed_concat :
    closed (before ++ [t]) = closed before + if t.kind = .close then 1 else 0 := by
  simp [closed, List.countP_append, List.countP_singleton]

theorem endsInQuote_concat : EndsInQuote (before ++ [t]) ↔ t.kind = .quote := by
  simp [EndsInQuote]

theorem not_endsInQuote_nil : ¬ EndsInQuote [] := by
  simp [EndsInQuote]

end Counting

variable {lexical : Option Fault} {before after ts : List Token} {f f' : Fault} {t : Token}

theorem FaultAt.unique (h : FaultAt lexical before after f) (h' : FaultAt lexical before after f') :
    f = f' := by
  cases h <;> cases h' <;> simp_all

theorem Leftmost.unique (h : Leftmost lexical ts f) (h' : Leftmost lexical ts f') : f = f' := by
  obtain ⟨before, after, hts, hf, hfirst⟩ := h
  obtain ⟨before', after', hts', hf', hfirst'⟩ := h'
  have hlength : before.length = before'.length := by
    refine Nat.le_antisymm (Nat.le_of_not_lt ?_) (Nat.le_of_not_lt ?_)
    · exact fun hlt ↦ hfirst before' after' f' hts' hlt hf'
    · exact fun hlt ↦ hfirst' before after f hts hlt hf
  obtain ⟨rfl, rfl⟩ := List.append_inj (hts.symm.trans hts') hlength
  exact hf.unique hf'

theorem Leftmost.some_eq_some_iff (h : Leftmost lexical ts f) :
    some f = some f' ↔ Leftmost lexical ts f' :=
  ⟨fun heq ↦ Option.some.inj heq ▸ h, fun h' ↦ congrArg some (h.unique h')⟩

def Clean (lexical : Option Fault) (before after : List Token) : Prop :=
  ∀ before' after' f, before ++ after = before' ++ after' → before'.length < before.length →
    ¬ FaultAt lexical before' after' f

theorem clean_nil (lexical : Option Fault) (ts : List Token) : Clean lexical [] ts :=
  fun _ _ _ _ hlt ↦ absurd hlt (Nat.not_lt_zero _)

theorem Clean.leftmost (h : Clean lexical before after) (hf : FaultAt lexical before after f) :
    Leftmost lexical (before ++ after) f :=
  ⟨before, after, rfl, hf, h⟩

theorem Clean.next (h : Clean lexical before (t :: after))
    (hnone : ∀ f, ¬ FaultAt lexical before (t :: after) f) :
    Clean lexical (before ++ [t]) after := by
  intro before' after' f hsplit hlt hf
  rw [List.append_assoc, List.singleton_append] at hsplit
  rw [List.length_append, List.length_singleton] at hlt
  by_cases heq : before.length = before'.length
  · obtain ⟨rfl, rfl⟩ := List.append_inj hsplit heq
    exact hnone f hf
  · exact h before' after' f hsplit (by omega) hf

theorem Clean.none (h : Clean lexical before []) (hnone : ∀ f, ¬ FaultAt lexical before [] f) :
    ∀ f, ¬ Leftmost lexical before f := by
  rintro f ⟨before', after', hsplit, hf, -⟩
  have hwhole : before ++ [] = before' ++ after' := by rw [List.append_nil, hsplit]
  by_cases heq : before.length = before'.length
  · obtain ⟨rfl, rfl⟩ := List.append_inj hwhole heq
    exact hnone f hf
  · refine h before' after' f hwhole ?_ hf
    have hlength := congrArg List.length hsplit
    rw [List.length_append] at hlength
    omega

end Token

namespace Reader

open Token

variable {fault : Option Fault} {before ts : List Token} {stack stack' : List Frame} {t : Token}
  {d : Datum} {f : Fault}

def Frame.isList : Frame → Bool
  | .quote => false
  | .list _ => true

def lists (stack : List Frame) : Nat := stack.countP Frame.isList

@[simp] theorem lists_quote (stack : List Frame) : lists (.quote :: stack) = lists stack := by
  simp [lists, Frame.isList]

@[simp] theorem lists_list (items : List Datum) (stack : List Frame) :
    lists (.list items :: stack) = lists stack + 1 :=
  List.countP_cons_of_pos rfl

/-- What is open agrees with the tokens read so far. -/
structure Tallies (before : List Token) (stack : List Frame) : Prop where
  count : opened before = closed before + lists stack
  quote : EndsInQuote before ↔ ∃ outer, stack = .quote :: outer

theorem tallies_nil : Tallies [] [] where
  count := rfl
  quote := iff_of_false not_endsInQuote_nil (by simp)

def Step.Tallied (before : List Token) : Step → Prop
  | .continue stack => Tallies before stack
  | .finished _ => Tallies before []
  | .fault _ => True

theorem tallied_place (hcount : opened before = closed before + lists stack)
    (hquote : ¬ EndsInQuote before) (d : Datum) : (place d stack).Tallied before := by
  induction stack generalizing d with
  | nil => exact ⟨hcount, iff_of_false hquote (by simp)⟩
  | cons frame stack ih =>
    cases frame with
    | quote => exact ih (by rwa [lists_quote] at hcount) (.quoted d)
    | list items => exact ⟨hcount, iff_of_false hquote (by simp)⟩

theorem eq_nil_of_lists (h : lists stack = 0) (hquote : ∀ outer, stack ≠ .quote :: outer) :
    stack = [] := by
  cases stack with
  | nil => rfl
  | cons frame outer =>
    cases frame with
    | quote => exact absurd rfl (hquote outer)
    | list items => simp at h

theorem known_of_step (h : ∀ f, step stack t ≠ .fault f) : t.Known := by
  intro n hk
  refine h (.unknownToken n t.text) ?_
  unfold step
  split <;> simp_all

namespace Tallies

variable (h : Tallies before stack)
include h

theorem step (t : Token) : (step stack t).Tallied (before ++ [t]) := by
  have hcount := h.count
  have hopened := opened_concat before t
  have hclosed := closed_concat before t
  have hquote := endsInQuote_concat before t
  obtain ⟨kind, text⟩ := t
  cases kind with
  | symbol | string =>
    refine tallied_place ?_ ?_ _
    · simpa [hopened, hclosed] using hcount
    · simp [hquote]
  | quote =>
    refine ⟨?_, by simp [hquote]⟩
    simpa [hopened, hclosed] using hcount
  | «open» =>
    refine ⟨?_, by simp [hquote]⟩
    simp [hopened, hclosed, hcount, Nat.add_assoc]
  | close =>
    cases stack with
    | nil => exact trivial
    | cons frame outer =>
      cases frame with
      | quote => exact trivial
      | list items =>
        refine tallied_place ?_ ?_ _
        · simp only [hopened, hclosed, hcount, lists_list, reduceCtorEq, if_true, if_false]
          omega
        · simp [hquote]
  | other name => exact trivial

theorem level_iff (hquote : ¬ EndsInQuote before) : opened before = closed before ↔ stack = [] := by
  have hcount := h.count
  constructor
  · intro hlevel
    refine eq_nil_of_lists (by omega) fun outer houter ↦ ?_
    exact hquote (h.quote.2 ⟨outer, houter⟩)
  · rintro rfl
    exact hcount

/-- The reader rejects a closing parenthesis only: after a quote, or where no list is open. -/
theorem rejects (ht : t.Known) (hf : Reader.step stack t = .fault f) : t.kind = .close ∧
    (EndsInQuote before ∧ f = .nothingToQuote ∨
      ¬ EndsInQuote before ∧ opened before = closed before ∧ f = .unmatchedClose) := by
  unfold Reader.step at hf
  split at hf
  case h_1 | h_2 | h_7 => exact absurd hf (place_ne_fault _ _ f)
  case h_3 | h_4 => cases hf
  case h_5 hk =>
    cases hf
    have hunquoted : ¬ EndsInQuote before := by simp [h.quote]
    exact ⟨hk, .inr ⟨hunquoted, (h.level_iff hunquoted).2 rfl, rfl⟩⟩
  case h_6 outer hk =>
    cases hf
    exact ⟨hk, .inl ⟨h.quote.2 ⟨outer, rfl⟩, rfl⟩⟩
  case h_8 n hk => exact absurd hk (ht n)

theorem step_of_faultAt (hf : FaultAt fault before (t :: ts) f) :
    (∃ f, Reader.step stack t = .fault f) ∨ stack = [] ∧ before ≠ [] := by
  obtain ⟨kind, text⟩ := t
  cases hf with
  | unmatchedClose hk hunquoted hlevel =>
    obtain rfl := (h.level_iff hunquoted).1 hlevel
    cases hk
    exact .inl ⟨_, rfl⟩
  | quoteBeforeClose hk hquoted =>
    obtain ⟨outer, rfl⟩ := h.quote.1 hquoted
    cases hk
    exact .inl ⟨_, rfl⟩
  | extraExpression _ hunquoted hlevel hread =>
    exact .inr ⟨(h.level_iff hunquoted).1 hlevel, hread⟩

theorem faultAt_end_iff : FaultAt fault before [] f ↔ fault.or (atEnd stack) = some f := by
  cases fault with
  | some g =>
    rw [Option.some_or]
    constructor
    · intro hf
      cases hf with
      | lexical waits => exact waits
      | quoteBeforeEnd waits | unmatchedOpen waits => cases waits
    · exact .lexical
  | none =>
    rw [Option.none_or]
    constructor
    · intro hf
      cases hf with
      | lexical waits => cases waits
      | quoteBeforeEnd _ hquoted =>
        obtain ⟨outer, rfl⟩ := h.quote.1 hquoted
        rfl
      | unmatchedOpen _ hunquoted hlevel =>
        cases stack with
        | nil => exact absurd ((h.level_iff hunquoted).2 rfl) (Nat.ne_of_gt hlevel)
        | cons frame outer =>
          cases frame with
          | quote => exact absurd (h.quote.2 ⟨outer, rfl⟩) hunquoted
          | list items => rfl
    · intro hend
      cases stack with
      | nil => cases hend
      | cons frame outer =>
        cases frame with
        | quote =>
          cases hend
          exact .quoteBeforeEnd rfl (h.quote.2 ⟨outer, rfl⟩)
        | list items =>
          cases hend
          refine .unmatchedOpen rfl (by simp [h.quote]) ?_
          simp [h.count]

end Tallies

/-- Where reading succeeds, there is at every place something open that agrees with the tokens
before it and goes on with the next token, and at the end nothing is open. -/
theorem tallies_of_all {used rest : List Token} (h : Tallies before stack)
    (hall : (all none stack (used ++ rest)).2.1 = none) :
    ∃ stack', Tallies (before ++ used) stack' ∧ (rest = [] → stack' = []) ∧
      ∀ t ∈ rest.head?, ∀ f, step stack' t ≠ .fault f := by
  induction used generalizing before stack with
  | nil =>
    rw [List.append_nil]
    refine ⟨stack, h, ?_, ?_⟩
    · rintro rfl
      cases stack with
      | nil => rfl
      | cons frame outer => cases frame <;> cases hall
    · intro t ht f hf
      obtain ⟨rest, rfl⟩ := List.head?_eq_some_iff.1 ht
      simp [all, hf] at hall
  | cons t used ih =>
    have hstep := h.step t
    rw [List.cons_append, all] at hall
    rw [List.append_cons]
    split at hall
    case h_1 stack' hk =>
      rw [hk] at hstep
      exact ih hstep hall
    case h_2 d hk =>
      rw [hk] at hstep
      exact ih hstep hall
    case h_3 => cases hall

theorem balanced_of_all (hall : (all none [] ts).2.1 = none) :
    (∀ t ∈ ts, t.Known) ∧ Balanced ts := by
  have hplace : ∀ used rest, ts = used ++ rest → ∃ stack, Tallies used stack ∧
      (rest = [] → stack = []) ∧ ∀ t ∈ rest.head?, ∀ f, step stack t ≠ .fault f := by
    rintro used rest rfl
    exact tallies_of_all tallies_nil hall
  refine ⟨?_, ?_, ?_, ?_⟩
  · intro t ht
    obtain ⟨used, rest, hsplit⟩ := List.append_of_mem ht
    obtain ⟨stack, -, -, hnext⟩ := hplace used (t :: rest) hsplit
    exact known_of_step (hnext t rfl)
  · rintro used ⟨rest, hsplit⟩
    obtain ⟨stack, htally, -, -⟩ := hplace used rest hsplit.symm
    exact htally.count ▸ Nat.le_add_right _ _
  · obtain ⟨stack, htally, hend, -⟩ := hplace ts [] (List.append_nil ts).symm
    rw [hend rfl] at htally
    exact htally.count
  · intro used rest hsplit hquoted
    obtain ⟨stack, htally, hend, hnext⟩ := hplace used rest hsplit
    obtain ⟨outer, rfl⟩ := htally.quote.1 hquoted
    cases rest with
    | nil => cases hend rfl
    | cons t rest =>
      obtain ⟨kind, text⟩ := t
      refine ⟨_, rfl, ?_⟩
      rintro rfl
      exact hnext _ rfl _ rfl

theorem all_of_balanced (h : Tallies before stack) (hknown : ∀ t ∈ ts, t.Known)
    (hbalanced : Balanced (before ++ ts)) : (all none stack ts).2.1 = none := by
  induction ts generalizing before stack with
  | nil =>
    rw [List.append_nil] at hbalanced
    have hunquoted : ¬ EndsInQuote before := by
      intro hquoted
      obtain ⟨t, ht, -⟩ := hbalanced.quotes before [] (List.append_nil _).symm hquoted
      cases ht
    rw [(h.level_iff hunquoted).1 hbalanced.total]
    rfl
  | cons t ts ih =>
    have hstep := h.step t
    have hknown' := fun t' ht ↦ hknown t' (List.mem_cons_of_mem t ht)
    have hsplit : before ++ t :: ts = before ++ [t] ++ ts := by rw [List.append_cons]
    rw [all]
    split
    case h_1 stack' hk =>
      rw [hk] at hstep
      exact ih hstep hknown' (hsplit ▸ hbalanced)
    case h_2 d hk =>
      rw [hk] at hstep
      exact ih hstep hknown' (hsplit ▸ hbalanced)
    case h_3 f hk =>
      exfalso
      obtain ⟨hclose, ⟨hquoted, -⟩ | ⟨-, hlevel, -⟩⟩ := h.rejects (hknown t List.mem_cons_self) hk
      · obtain ⟨t', ht, hne⟩ := hbalanced.quotes before (t :: ts) rfl hquoted
        cases ht
        exact hne hclose
      · have hle := hbalanced.closes (before ++ [t]) ⟨ts, hsplit.symm⟩
        rw [opened_concat, closed_concat, hclose, hlevel] at hle
        simp at hle

/-- The fault of a text that may hold one expression only: that of the expression, or of what
comes after it. -/
def verdict : Except Fault (Option Datum) × TokenStream → Option Fault
  | (.error f, _) => some f
  | (.ok _, s) =>
    match s.peek.1 with
    | .error f => some f
    | .ok none => none
    | .ok (some t) => some (if t.kind = .close then .unmatchedClose else .extraExpression)

theorem verdict_rest (h : Tallies before []) (hread : before ≠ []) (d : Datum)
    (hclean : Clean fault before ts) :
    verdict (.ok (some d), ⟨none, ts, fault⟩) = some f ↔ Leftmost fault (before ++ ts) f := by
  have hunquoted : ¬ EndsInQuote before := by simp [h.quote]
  have hlevel := (h.level_iff hunquoted).2 rfl
  cases ts with
  | nil =>
    cases fault with
    | some g => exact (hclean.leftmost (.lexical rfl)).some_eq_some_iff
    | none =>
      rw [List.append_nil]
      refine iff_of_false nofun (hclean.none (fun f hf ↦ ?_) f)
      cases h.faultAt_end_iff.1 hf
  | cons t ts =>
    have hverdict : verdict (.ok (some d), ⟨none, t :: ts, fault⟩) =
        some (if t.kind = .close then .unmatchedClose else .extraExpression) := rfl
    by_cases hk : t.kind = .close
    · rw [hverdict, if_pos hk]
      exact (hclean.leftmost (.unmatchedClose hk hunquoted hlevel)).some_eq_some_iff
    · rw [hverdict, if_neg hk]
      exact (hclean.leftmost (.extraExpression hk hunquoted hlevel hread)).some_eq_some_iff

theorem verdict_one (h : Tallies before stack) (hknown : ∀ t ∈ ts, t.Known)
    (hstart : stack = [] → before = []) (hclean : Clean fault before ts) :
    verdict (one fault stack ts) = some f ↔ Leftmost fault (before ++ ts) f := by
  induction ts generalizing before stack with
  | nil =>
    rw [one]
    rcases hend : fault.or (atEnd stack) with - | g
    · rw [List.append_nil]
      refine iff_of_false (fun hg ↦ ?_) (hclean.none (fun f hf ↦ ?_) f)
      · cases hg
      · rw [h.faultAt_end_iff, hend] at hf
        cases hf
    · exact (hclean.leftmost (h.faultAt_end_iff.2 hend)).some_eq_some_iff
  | cons t ts ih =>
    have hstep := h.step t
    have hknown' := fun t' ht ↦ hknown t' (List.mem_cons_of_mem t ht)
    -- If the reader goes on, nothing is wrong here.
    have hnext (hgoes : ∀ f, step stack t ≠ .fault f) : Clean fault (before ++ [t]) ts := by
      refine hclean.next fun f hf ↦ ?_
      rcases h.step_of_faultAt hf with ⟨g, hg⟩ | ⟨hnil, hread⟩
      · exact hgoes g hg
      · exact hread (hstart hnil)
    rw [one]
    cases hk : step stack t with
    | «continue» stack' =>
      rw [hk] at hstep
      rw [List.append_cons]
      exact ih hstep hknown' (fun hnil ↦ absurd hnil (step_ne_nil hk)) (hnext (by simp [hk]))
    | finished d =>
      rw [hk] at hstep
      rw [List.append_cons]
      exact verdict_rest hstep (by simp) d (hnext (by simp [hk]))
    | fault g =>
      refine (hclean.leftmost ?_).some_eq_some_iff
      obtain ⟨hclose, ⟨hquoted, rfl⟩ | ⟨hunquoted, hlevel, rfl⟩⟩ :=
        h.rejects (hknown t List.mem_cons_self) hk
      · exact .quoteBeforeClose hclose hquoted
      · exact .unmatchedClose hclose hunquoted hlevel

end Reader

namespace Program

open Token

variable {source : Text} {f : Fault}

theorem parse_eq_error_iff : parse source = .error f ↔
    Reader.verdict (Reader.one (lex source.trim).fault [] (lex source.trim).tokens) = some f := by
  have hexpr : (TokenStream.ofLexed (lex source.trim)).expr =
    Reader.one (lex source.trim).fault [] (lex source.trim).tokens := rfl
  simp only [parse, hexpr]
  generalize Reader.one (lex source.trim).fault [] (lex source.trim).tokens = r
  obtain ⟨entry, stream⟩ := r
  cases entry with
  | error g => simp [Bind.bind, Except.bind, Reader.verdict]
  | ok entry =>
    cases hp : stream.peek.1 with
    | error g => simp [Bind.bind, Except.bind, Reader.verdict, hp]
    | ok next =>
      cases next with
      | none => simp [Bind.bind, Except.bind, pure, Except.pure, Reader.verdict, hp]
      | some t =>
        simp [Bind.bind, Except.bind, throw, throwThe, MonadExceptOf.throw, Reader.verdict, hp]

theorem parse_eq_error_iff_leftmost : parse source = .error f ↔
    Leftmost (lex source.trim).fault (lex source.trim).tokens f := by
  rw [parse_eq_error_iff]
  exact Reader.verdict_one Reader.tallies_nil (fun _ ↦ known_of_mem_lex) (fun _ ↦ rfl)
    (clean_nil _ _)

theorem parse_eq_some_iff {d : Datum} : parse source = .ok ⟨source.trim, some d⟩ ↔
    (lex source.trim).fault = none ∧
      ∃ e : Phrase, e.tokens = (lex source.trim).tokens ∧ e.datum = d := by
  rw [parse_eq_ok_iff]
  generalize (lex source.trim).fault = lexical, (lex source.trim).tokens = ts
  constructor
  · rintro ⟨-, hone, hpeek⟩
    obtain ⟨e, rest, rfl, hd, -⟩ := Reader.one_eq_some_iff.1 (Prod.ext hone rfl)
    rw [Reader.one_tokens] at hpeek
    cases rest with
    | nil =>
      cases lexical with
      | none => exact ⟨rfl, e, (List.append_nil _).symm, hd⟩
      | some f => cases hpeek
    | cons t rest => cases hpeek
  · rintro ⟨rfl, e, rfl, rfl⟩
    have hone := Reader.one_tokens none e []
    rw [List.append_nil] at hone
    rw [hone]
    exact ⟨rfl, rfl, rfl⟩

theorem parse_eq_none_iff : parse source = .ok ⟨source.trim, none⟩ ↔
    (lex source.trim).fault = none ∧ (lex source.trim).tokens = [] := by
  rw [parse_eq_ok_iff]
  constructor
  · rintro ⟨-, hone, -⟩
    exact (Reader.one_eq_none_iff.1 hone).symm
  · rintro ⟨hfault, hts⟩
    rw [hfault, hts]
    exact ⟨rfl, rfl, rfl⟩

/-- Reading accepts the grammar and reports the leftmost fault. A text has an expression if its
tokens are a phrase, which is then the only one, and has none if there are no tokens. Any tokens can
be read to the end if they are a sequence of phrases, which is to say that they are balanced. What
is reported otherwise is a parenthesis that does not match, or else that the text is malformed: the
fault of the first place where something is wrong. -/
theorem reads_grammar_or_leftmost_fault (source : Text) :
    let ts := (lex source.trim).tokens
    let lexical := (lex source.trim).fault
    (∀ p, parse source = .ok p → p.text = source.trim) ∧
    (∀ d, parse source = .ok ⟨source.trim, some d⟩ ↔ lexical = none ∧
      ∃ e : Phrase, e.tokens = ts ∧ e.datum = d ∧ ∀ e' : Phrase, e'.tokens = ts → e' = e) ∧
    (parse source = .ok ⟨source.trim, none⟩ ↔ lexical = none ∧ ts = []) ∧
    (∀ us ds, ((TokenStream.ofTokens us).all.1 = ds ∧ (TokenStream.ofTokens us).all.2.1 = none) ↔
      ∃ es, Phrase.allTokens es = us ∧ Phrase.data es = ds) ∧
    (∀ us, (TokenStream.ofTokens us).all.2.1 = none ↔ (∀ t ∈ us, t.Known) ∧ Balanced us) ∧
    (∀ f, parse source = .error f ↔ Leftmost lexical ts f) ∧
    ∀ f, parse source = .error f →
      f.category = .unmatchedParen ∧ (f = .unmatchedClose ∨ f = .unmatchedOpen) ∨
      f.category = .malformed ∧ (f = .nothingToQuote ∨ f = .extraExpression ∨
        ∃ opened, f = .unterminatedString opened ∧ lexical = some f) := by
  intro ts lexical
  refine ⟨fun p hp ↦ (parse_eq_ok_iff.1 hp).1, fun d ↦ ?_, parse_eq_none_iff, fun us ds ↦ ?_,
    fun us ↦ ⟨Reader.balanced_of_all, ?_⟩, fun f ↦ parse_eq_error_iff_leftmost, fun f hf ↦ ?_⟩
  · rw [parse_eq_some_iff]
    refine and_congr_right fun _ ↦ exists_congr fun e ↦ and_congr_right fun he ↦ ?_
    refine (and_iff_left fun e' he' ↦ ?_).symm
    exact Phrase.tokens_injective (he'.trans he.symm)
  · exact Reader.all_eq_ok_iff.trans (and_iff_right rfl)
  · rintro ⟨hknown, hbalanced⟩
    exact Reader.all_of_balanced Reader.tallies_nil hknown hbalanced
  · obtain ⟨before, after, -, hat, -⟩ := parse_eq_error_iff_leftmost.1 hf
    cases hat with
    | unmatchedClose => exact .inl ⟨rfl, .inl rfl⟩
    | unmatchedOpen => exact .inl ⟨rfl, .inr rfl⟩
    | quoteBeforeClose | quoteBeforeEnd => exact .inr ⟨rfl, .inl rfl⟩
    | extraExpression => exact .inr ⟨rfl, .inr (.inl rfl)⟩
    | lexical waits =>
      obtain ⟨opened, rfl, -⟩ := fault_lex waits
      exact .inr ⟨rfl, .inr (.inr ⟨opened, rfl, waits⟩)⟩

-- A second expression is reported before the quote that it lacks something for.
example : parse "a \x27" = .error .extraExpression := rfl

example : parse "(a \x27)" = .error .nothingToQuote := rfl

end Program

end LittleLisp

import LittleLisp.Proofs.Reader.Descent

namespace LittleLisp

open TokenStream Token

/-- Expressions are read up to the end of the stream or the first fault: a peek before each of them,
and then descent. -/
inductive Repeats : TokenStream → List Token → List Datum → Option Fault → TokenStream → Prop
  | failed {s s' : TokenStream} {f : Fault} (next : s.peek = (.error f, s')) :
      Repeats s [] [] (some f) s'
  | done {s s' : TokenStream} (next : s.peek = (.ok none, s')) : Repeats s [] [] none s'
  | stopped {s s₁ s' : TokenStream} {t : Token} {used : List Token} {f : Fault}
      (next : s.peek = (.ok (some t), s₁)) (first : Parses .expression s₁ used (.error f) s') :
      Repeats s used [] (some f) s'
  | more {s s₁ s₂ s' : TokenStream} {t : Token} {used used' : List Token} {ds ds' : List Datum}
      {f : Option Fault} (next : s.peek = (.ok (some t), s₁))
      (first : Parses .expression s₁ used (.ok ds) s₂) (rest : Repeats s₂ used' ds' f s') :
      Repeats s (used ++ used') (ds ++ ds') f s'

theorem TokenStream.expr_peeked {s s' : TokenStream} {t : Token}
    (h : s.peek = (.ok (some t), s')) : s.expr = s'.expr := by
  obtain ⟨hp, hf, -⟩ := peeked h
  rw [expr, expr, hp, hf]

namespace Repeats

variable {s s' : TokenStream} {used : List Token} {ds : List Datum} {f : Option Fault}

theorem pending (h : Repeats s used ds f s') : s.pending = used ++ s'.pending := by
  induction h with
  | failed next => exact (@Parses.failed .expression _ _ _ next).pending
  | done next => exact (Parses.ended next).pending
  | stopped next first => rw [← (peeked next).1, first.pending]
  | more next first _ ih => rw [← (peeked next).1, first.pending, ih, List.append_assoc]

theorem all_eq (h : Repeats s used ds f s') : s.all = (ds, f, s') := by
  have hall (s : TokenStream) : s.all = Reader.continueAll s.expr := Reader.all_eq_one s.fault [] _
  induction h with
  | failed next =>
    rw [hall, (@Parses.failed .expression _ _ _ next).expr_eq]
    rfl
  | done next =>
    rw [hall, (Parses.ended next).expr_eq]
    rfl
  | stopped next first =>
    rw [hall, expr_peeked next, first.expr_eq]
    rfl
  | more next first _ ih =>
    obtain ⟨hp, -, ts, hts⟩ := peeked next
    obtain ⟨d, rfl⟩ := first.singleton (hp.trans hts)
    rw [hall, expr_peeked next, first.expr_eq]
    simp only [Except.map, List.head?_cons, Reader.continueAll, ih, List.singleton_append]

/-- Every expression takes a token, so the repetition ends. -/
theorem exists_repeats (s : TokenStream) : ∃ used ds f s', Repeats s used ds f s' := by
  induction hn : s.pending.length using Nat.strong_induction_on generalizing s with
  | _ n ih =>
    rcases hnext : s.peek with ⟨f | _ | t, s₁⟩
    · exact ⟨_, _, _, _, .failed hnext⟩
    · exact ⟨_, _, _, _, .done hnext⟩
    · obtain ⟨hp, -, ts, hts⟩ := peeked hnext
      obtain ⟨used, r, s₂, hfirst⟩ := Parses.exists_parses .expression s₁
      rcases r with f | ds
      · exact ⟨_, _, _, _, .stopped hnext hfirst⟩
      · obtain ⟨d, rfl⟩ := hfirst.singleton (hp.trans hts)
        have hlt : s₂.pending.length < n := by
          rw [← hn, ← hp]
          exact hfirst.length_lt
        obtain ⟨used', ds', f, s', hrest⟩ := ih _ hlt s₂ rfl
        exact ⟨_, _, _, _, .more hnext hfirst hrest⟩

end Repeats

/-- Why no expression can be read: `read` has been consumed, and the tokens that follow it, or the
end with the fault that waits there, do not continue it. -/
inductive RefusedAt (fault : Option Fault) (read : List Token) : List Token → Fault → Prop
  | unmatchedClose {t : Token} {after : List Token} (close : t.kind = .close) (first : read = []) :
      RefusedAt fault read (t :: after) .unmatchedClose
  | quoteBeforeClose {t : Token} {after : List Token} (close : t.kind = .close)
      (quoted : EndsInQuote read) : RefusedAt fault read (t :: after) .nothingToQuote
  | unknown {t : Token} {after : List Token} {name : String} (kind : t.kind = .other name) :
      RefusedAt fault read (t :: after) (.unknownToken name t.text)
  | lexical {f : Fault} (waits : fault = some f) : RefusedAt fault read [] f
  | quoteBeforeEnd (waits : fault = none) (quoted : EndsInQuote read) :
      RefusedAt fault read [] .nothingToQuote
  | unclosed (waits : fault = none) (unquoted : ¬ EndsInQuote read) (opened : read ≠ []) :
      RefusedAt fault read [] .unmatchedOpen

/-- An attempt to read an expression has ended in a fault and left the stream `s'`. What it has read
is the beginning of an expression, and the next token is the first that is wrong. -/
structure Refused (fault : Option Fault) (read : List Token) (f : Fault) (s' : TokenStream) :
    Prop where
  begun : ∃ (e : Phrase) (missing : List Token), e.tokens = read ++ missing ∧ missing ≠ []
  wrong : ∀ t ∈ s'.pending.head?, ∀ (e : Phrase) (rest : List Token), e.tokens ≠ read ++ t :: rest
  atEnd : s'.pending = [] → s' = .ended
  reason : RefusedAt fault read s'.pending f

namespace Reader

variable {fault : Option Fault} {before ts : List Token} {stack : List Frame} {f : Fault}
  {s' : TokenStream}

theorem Unfinished.eq_nil (h : Unfinished ts []) : ts = [] := by
  cases h
  rfl

theorem Unfinished.one_append (h : Unfinished before stack) (fault : Option Fault)
    (rest : List Token) :
    Reader.one fault [] (before ++ rest) = Reader.one fault stack rest := by
  induction h generalizing rest with
  | nil => rfl
  | quote sign _ ih =>
    rw [List.append_assoc, ih]
    rfl
  | list opening es _ ih =>
    have hitems := yieldsItems_allTokens fun e (_ : e ∈ es) ↦ yields_tokens e
    rw [List.append_assoc, ih]
    exact (hitems fault [] _ rest).trans (by rw [List.append_nil])

theorem Unfinished.completes (h : Unfinished ts stack) (e : Phrase) :
    ∃ (e' : Phrase) (missing : List Token), e'.tokens = ts ++ (e.tokens ++ missing) := by
  induction h generalizing e with
  | nil => exact ⟨e, [], (List.append_nil _).symm⟩
  | quote sign _ ih =>
    obtain ⟨e', missing, he⟩ := ih (.quote sign e)
    refine ⟨e', missing, ?_⟩
    rw [he, List.append_assoc]
    rfl
  | list opening es _ ih =>
    obtain ⟨e', missing, he⟩ := ih (.list opening (es ++ [e]) [])
    refine ⟨e', ⟨.close, []⟩ :: missing, ?_⟩
    simp [he, Phrase.tokens, Phrase.allTokens]

theorem Unfinished.begun (h : Unfinished ts stack) :
    ∃ (e : Phrase) (missing : List Token), e.tokens = ts ++ missing ∧ missing ≠ [] := by
  obtain ⟨e, missing, he⟩ := h.completes (.symbol [])
  exact ⟨e, _, he, List.cons_ne_nil _ _⟩

theorem Unfinished.wrong {t : Token} (h : Unfinished before stack)
    (hf : Reader.step stack t = .fault f) (e : Phrase) (rest : List Token) :
    e.tokens ≠ before ++ t :: rest := by
  intro he
  have hread := one_tokens none e []
  rw [List.append_nil, he, h.one_append, Reader.one, hf] at hread
  cases hread

theorem Unfinished.refusedAt_step {t : Token} (h : Unfinished before stack)
    (htally : Tallies before stack) (hf : Reader.step stack t = .fault f) (after : List Token) :
    RefusedAt fault before (t :: after) f := by
  unfold Reader.step at hf
  split at hf
  case h_1 | h_2 | h_7 => exact absurd hf (place_ne_fault _ _ f)
  case h_3 | h_4 => cases hf
  case h_5 hk =>
    cases hf
    exact .unmatchedClose hk h.eq_nil
  case h_6 outer hk =>
    cases hf
    exact .quoteBeforeClose hk (htally.quote.2 ⟨outer, rfl⟩)
  case h_8 hk =>
    cases hf
    exact .unknown hk

theorem Unfinished.refusedAt_end (h : Unfinished before stack) (htally : Tallies before stack)
    (hf : fault.or (atEnd stack) = some f) : RefusedAt fault before [] f := by
  cases fault with
  | some g => exact .lexical hf
  | none =>
    rw [Option.none_or] at hf
    cases h with
    | nil => cases hf
    | quote =>
      cases hf
      exact .quoteBeforeEnd rfl (htally.quote.2 ⟨_, rfl⟩)
    | list =>
      cases hf
      exact .unclosed rfl (by simp [htally.quote]) (by simp)

theorem Unfinished.refused (h : Unfinished before stack) (htally : Tallies before stack)
    (hone : Reader.one fault stack ts = (.error f, s')) :
    ∃ new, ts = new ++ s'.pending ∧ Refused fault (before ++ new) f s' := by
  induction ts generalizing before stack with
  | nil =>
    rw [Reader.one] at hone
    split at hone
    case h_1 hend =>
      cases hone
      refine ⟨[], rfl, ?_⟩
      rw [List.append_nil]
      refine ⟨h.begun, fun t ht ↦ ?_, fun _ ↦ rfl, h.refusedAt_end htally hend⟩
      cases ht
    case h_2 => cases hone
  | cons t ts ih =>
    have hstep := h.step t
    have htally' := htally.step t
    rw [Reader.one] at hone
    split at hone
    case h_1 hk =>
      rw [hk] at hstep htally'
      obtain ⟨new, rfl, hrefused⟩ := ih hstep htally' hone
      rw [List.append_assoc] at hrefused
      exact ⟨t :: new, rfl, hrefused⟩
    case h_2 => cases hone
    case h_3 hk =>
      cases hone
      refine ⟨[], rfl, ?_⟩
      rw [List.append_nil]
      refine ⟨h.begun, fun t' ht' ↦ ?_, fun hnil ↦ ?_, h.refusedAt_step htally hk ts⟩
      · cases ht'
        exact h.wrong hk
      · cases hnil

end Reader

namespace Reader

/-- The fault of the lexer waits, unless it is what is reported. -/
theorem one_fault (fault : Option Fault) (stack : List Frame) (ts : List Token) :
    (one fault stack ts).2.fault = fault ∨
      ∃ f, fault = some f ∧ one fault stack ts = (.error f, .ended) := by
  induction ts generalizing stack with
  | nil =>
    cases fault with
    | none =>
      rw [one]
      cases (none : Option Fault).or (atEnd stack) <;> exact .inl rfl
    | some f => exact .inr ⟨f, rfl, rfl⟩
  | cons t ts ih =>
    rw [one]
    cases step stack t with
    | «continue» stack' => exact ih stack'
    | finished d => exact .inl rfl
    | fault f => exact .inl rfl

end Reader

namespace Parses

variable {s s' : TokenStream} {used : List Token} {r : Except Fault (List Datum)} {f : Fault}

theorem refused (h : Parses .expression s used (.error f) s') : Refused s.fault used f s' := by
  obtain ⟨new, hnew, hrefused⟩ := Reader.Unfinished.nil.refused Reader.tallies_nil h.expr_eq
  rw [h.pending] at hnew
  rw [List.append_cancel_right hnew]
  exact hrefused

theorem fault (h : Parses .expression s used r s') :
    s'.fault = s.fault ∨ ∃ g, s.fault = some g ∧ r = .error g ∧ s' = .ended := by
  have hexpr : Reader.one s.fault [] s.pending = (r.map List.head?, s') := h.expr_eq
  have hfault := Reader.one_fault s.fault [] s.pending
  rw [hexpr] at hfault
  refine hfault.imp_right ?_
  rintro ⟨g, hg, heq⟩
  cases r with
  | error =>
    cases heq
    exact ⟨_, hg, rfl, rfl⟩
  | ok => cases heq

theorem fault_ok {ds : List Datum} (h : Parses .expression s used (.ok ds) s') :
    s'.fault = s.fault := by
  rcases h.fault with hfault | ⟨g, -, hr, -⟩
  · exact hfault
  · cases hr

theorem unterminated {p : Nat}
    (h : Parses .expression s used (.error (.unterminatedString p)) s') :
    s.fault = some (.unterminatedString p) ∧ s' = .ended := by
  obtain ⟨-, -, hend, hreason⟩ := h.refused
  generalize s'.pending = ts at hend hreason
  cases hreason with
  | lexical waits => exact ⟨waits, hend rfl⟩

end Parses

namespace Repeats

variable {s s' : TokenStream} {used : List Token} {ds : List Datum} {f : Option Fault}

theorem fault (h : Repeats s used ds f s') :
    s'.fault = s.fault ∨ ∃ g, s.fault = some g ∧ f = some g ∧ s' = .ended := by
  induction h with
  | failed next =>
    obtain ⟨-, hf, rfl⟩ := peek_eq_error next
    exact .inr ⟨_, hf, rfl, rfl⟩
  | done next =>
    obtain ⟨-, hf, rfl⟩ := peek_eq_none next
    exact .inl hf.symm
  | stopped next first =>
    rw [← (peeked next).2.1]
    refine first.fault.imp_right ?_
    rintro ⟨g, hg, ⟨⟩, hend⟩
    exact ⟨_, hg, rfl, hend⟩
  | more next first _ ih =>
    rw [← (peeked next).2.1, ← first.fault_ok]
    exact ih

theorem unterminated {p : Nat} (h : Repeats s used ds f s')
    (hf : f = some (.unterminatedString p)) :
    s.fault = some (.unterminatedString p) ∧ s' = .ended := by
  induction h with
  | failed next =>
    cases hf
    exact (peek_eq_error next).2
  | done => cases hf
  | stopped next first =>
    cases hf
    rw [← (peeked next).2.1]
    exact first.unterminated
  | more next first _ ih =>
    rw [← (peeked next).2.1, ← first.fault_ok]
    exact ih hf

end Repeats

namespace TokenStream

inductive Query where
  | peek
  | advance
  | expr
  | all

inductive Reply where
  | token (r : Except Fault (Option Token))
  | datum (r : Except Fault (Option Datum))
  | data (ds : List Datum) (f : Option Fault)

def Reply.nothing : Query → Reply
  | .peek | .advance => .token (.ok none)
  | .expr => .datum (.ok none)
  | .all => .data [] none

def Reply.fault? : Reply → Option Fault
  | .token (.error f) | .datum (.error f) => some f
  | .token (.ok _) | .datum (.ok _) => none
  | .data _ f => f

def ask (s : TokenStream) : Query → Reply × TokenStream
  | .peek => (.token s.peek.1, s.peek.2)
  | .advance => (.token s.advance.1, s.advance.2)
  | .expr => (.datum s.expr.1, s.expr.2)
  | .all => (.data s.all.1 s.all.2.1, s.all.2.2)

/-- Asked for `q`, the stream `s` advances over the tokens `used`, replies and becomes `s'`. -/
inductive Consumes (s : TokenStream) : Query → List Token → Reply → TokenStream → Prop
  | peek {r : Except Fault (Option Token)} {s' : TokenStream} (h : s.peek = (r, s')) :
      Consumes s .peek [] (.token r) s'
  | advance {t : Option Token} {s' : TokenStream} (h : s.advance = (.ok t, s')) :
      Consumes s .advance t.toList (.token (.ok t)) s'
  | advanceFailed {f : Fault} {s' : TokenStream} (h : s.advance = (.error f, s')) :
      Consumes s .advance [] (.token (.error f)) s'
  | expr {used : List Token} {ds : Except Fault (List Datum)} {r : Except Fault (Option Datum)}
      {s' : TokenStream} (h : Parses .expression s used ds s') (first : ds.map List.head? = r) :
      Consumes s .expr used (.datum r) s'
  | all {used : List Token} {ds : List Datum} {f : Option Fault} {s' : TokenStream}
      (h : Repeats s used ds f s') : Consumes s .all used (.data ds f) s'

inductive History (s₀ : TokenStream) : List Token → TokenStream → Prop
  | start : History s₀ [] s₀
  | next {used new : List Token} {s s' : TokenStream} {q : Query} {a : Reply}
      (earlier : History s₀ used s) (last : Consumes s q new a s') : History s₀ (used ++ new) s'

variable {s₀ s s' : TokenStream} {q : Query} {used new : List Token} {a : Reply} {p : Nat}

theorem ask_ended (q : Query) : ended.ask q = (.nothing q, ended) := by
  cases q <;> rfl

theorem advance_eq_error {f : Fault} (h : s.advance = (.error f, s')) :
    s.pending = [] ∧ s.fault = some f ∧ s' = ended := by
  cases hp : s.pending with
  | nil =>
    rw [advance_nil hp] at h
    cases hf : s.fault <;> rw [hf] at h <;> cases h
    exact ⟨rfl, rfl, rfl⟩
  | cons t ts =>
    rw [advance_cons hp] at h
    cases h

theorem advance_eq_ok {t : Option Token} (h : s.advance = (.ok t, s')) :
    s.pending = t.toList ++ s'.pending ∧ s'.fault = s.fault := by
  cases hp : s.pending with
  | nil =>
    rw [advance_nil hp] at h
    cases hf : s.fault <;> rw [hf] at h <;> cases h
    exact ⟨rfl, rfl⟩
  | cons u ts =>
    rw [advance_cons hp] at h
    cases h
    exact ⟨rfl, rfl⟩

namespace Consumes

theorem ask_eq (h : Consumes s q new a s') : s.ask q = (a, s') := by
  cases h with
  | peek h => rw [ask, h]
  | advance h | advanceFailed h => rw [ask, h]
  | expr h first => rw [ask, h.expr_eq, first]
  | all h => rw [ask, h.all_eq]

theorem exists_consumes (s : TokenStream) (q : Query) :
    ∃ new, Consumes s q new (s.ask q).1 (s.ask q).2 := by
  cases q with
  | peek => exact ⟨_, .peek rfl⟩
  | advance =>
    rcases h : s.advance with ⟨f | t, s'⟩
    · exact ⟨_, by rw [ask, h]; exact .advanceFailed h⟩
    · exact ⟨_, by rw [ask, h]; exact .advance h⟩
  | expr =>
    obtain ⟨used, r, s', h⟩ := Parses.exists_parses .expression s
    exact ⟨used, by rw [ask, h.expr_eq]; exact .expr h rfl⟩
  | all =>
    obtain ⟨used, ds, f, s', h⟩ := Repeats.exists_repeats s
    exact ⟨used, by rw [ask, h.all_eq]; exact .all h⟩

theorem pending (h : Consumes s q new a s') : s.pending = new ++ s'.pending := by
  cases h with
  | peek h =>
    have hpeek := pending_peek s
    rw [h] at hpeek
    exact hpeek.symm
  | advance h => exact (advance_eq_ok h).1
  | advanceFailed h =>
    obtain ⟨hp, -, rfl⟩ := advance_eq_error h
    exact hp
  | expr h => exact h.pending
  | all h => exact h.pending

theorem unique {new' : List Token} {a' : Reply} {s'' : TokenStream} (h : Consumes s q new a s')
    (h' : Consumes s q new' a' s'') : new' = new := by
  cases h.ask_eq.symm.trans h'.ask_eq
  exact List.append_cancel_right (h'.pending.symm.trans h.pending)

theorem fault (h : Consumes s q new a s') :
    s'.fault = s.fault ∨ a.fault? = s.fault ∧ s' = ended := by
  cases h with
  | @peek r _ h =>
    rcases r with f | _ | t
    · obtain ⟨-, hf, rfl⟩ := peek_eq_error h
      exact .inr ⟨hf.symm, rfl⟩
    · obtain ⟨-, hf, rfl⟩ := peek_eq_none h
      exact .inl hf.symm
    · exact .inl (peeked h).2.1
  | advance h => exact .inl (advance_eq_ok h).2
  | advanceFailed h =>
    obtain ⟨-, hf, rfl⟩ := advance_eq_error h
    exact .inr ⟨hf.symm, rfl⟩
  | expr h first =>
    refine h.fault.imp_right ?_
    rintro ⟨f, hf, rfl, hend⟩
    cases first
    exact ⟨hf.symm, hend⟩
  | all h =>
    refine h.fault.imp_right ?_
    rintro ⟨f, hf, rfl, hend⟩
    exact ⟨hf.symm, hend⟩

theorem unterminated (h : Consumes s q new a s') (ha : a.fault? = some (.unterminatedString p)) :
    s.fault = some (.unterminatedString p) ∧ s' = ended := by
  cases h with
  | @peek r _ h =>
    cases r with
    | error =>
      cases ha
      exact (peek_eq_error h).2
    | ok => cases ha
  | advance => cases ha
  | advanceFailed h =>
    cases ha
    exact (advance_eq_error h).2
  | @expr _ ds _ _ h first =>
    cases first
    cases ds with
    | error =>
      cases ha
      exact h.unterminated
    | ok => cases ha
  | all h => exact h.unterminated ha

theorem phrase {d : Datum} (h : Consumes s .expr new (.datum (.ok (some d))) s') :
    ∃ e : Phrase, e.tokens = new ∧ e.datum = d := by
  cases h with
  | expr h first =>
    obtain ⟨e, rest, hp, hd, rfl⟩ := Reader.one_eq_some_iff.1 (first ▸ h.expr_eq)
    exact ⟨e, List.append_cancel_right (hp.symm.trans h.pending), hd⟩

theorem refused {f : Fault} (h : Consumes s .expr new (.datum (.error f)) s') :
    Refused s.fault new f s' := by
  cases h with
  | @expr _ ds _ _ h first =>
    cases ds with
    | error =>
      cases first
      exact h.refused
    | ok => cases first

end Consumes

namespace History

theorem pending (h : History s₀ used s) : used ++ s.pending = s₀.pending := by
  induction h with
  | start => rfl
  | next _ last ih => rw [List.append_assoc, ← last.pending, ih]

theorem fault (h : History s₀ used s) : s.fault = s₀.fault ∨ s.fault = none := by
  induction h with
  | start => exact .inl rfl
  | next _ last ih =>
    rcases last.fault with hf | ⟨-, rfl⟩
    · rwa [hf]
    · exact .inr rfl

end History

/-- A stream neither loses tokens nor repeats or reorders them, whatever it has been asked for and
whatever went wrong. What has been consumed, then the one token that is held back if there is one,
then the tokens not yet drawn are the tokens it began with. Every query ends, with one reply and one
sequence of tokens consumed. Peeking consumes nothing; an expression takes its own tokens, of which
there is at least one; an attempt that fails takes the tokens before the first that is wrong, which
include a quote with nothing to quote. The fault of the lexer is reported when it is reached, and
then the stream has ended. -/
theorem stream_conserves_tokens {ts : List Token} {opened : Option Nat}
    (h : History ⟨none, ts, opened.map .unterminatedString⟩ used s) :
    used ++ s.buffer.toList ++ s.rest = ts ∧
    (∀ q, ∃ new, ∀ new' a s', Consumes s q new' a s' ↔ new' = new ∧ s.ask q = (a, s')) ∧
    (∀ new a s', Consumes s .peek new a s' → new = [] ∧ s'.pending = s.pending) ∧
    (∀ new d s', Consumes s .expr new (.datum (.ok (some d))) s' →
      new ≠ [] ∧ ∃ e : Phrase, e.tokens = new ∧ e.datum = d) ∧
    (∀ new f s', Consumes s .expr new (.datum (.error f)) s' →
      Refused s.fault new f s' ∧ (f = .nothingToQuote → EndsInQuote new)) ∧
    (∀ q new a s', Consumes s q new a s' → (s'.fault = s.fault ∨ a.fault? = s.fault) ∧
      ∀ p, a.fault? = some (.unterminatedString p) → opened = some p ∧ s' = ended) ∧
    ∀ q, ended.ask q = (.nothing q, ended) := by
  have hfault {f : Fault} (hf : s.fault = some f) : ∃ p ∈ opened, f = .unterminatedString p := by
    rcases h.fault with heq | heq
    · obtain ⟨p, hp, rfl⟩ := Option.map_eq_some_iff.1 (heq.symm.trans hf)
      exact ⟨p, hp, rfl⟩
    · cases heq.symm.trans hf
  refine ⟨?_, fun q ↦ ?_, fun new a s' hc ↦ ?_, fun new d s' hc ↦ ?_, fun new f s' hc ↦ ?_,
    fun q new a s' hc ↦ ⟨?_, fun p hp ↦ ?_⟩, ask_ended⟩
  · rw [List.append_assoc]
    exact h.pending
  · obtain ⟨new, hnew⟩ := Consumes.exists_consumes s q
    refine ⟨new, fun new' a s' ↦ ⟨fun hc ↦ ⟨hnew.unique hc, hc.ask_eq⟩, ?_⟩⟩
    rintro ⟨rfl, heq⟩
    rwa [heq] at hnew
  · have hp := hc.pending
    cases hc
    exact ⟨rfl, hp.symm⟩
  · obtain ⟨e, rfl, hd⟩ := hc.phrase
    obtain ⟨t, us, he, -⟩ := e.tokens_eq_cons
    exact ⟨by rw [he]; exact List.cons_ne_nil t us, e, rfl, hd⟩
  · refine ⟨hc.refused, ?_⟩
    rintro rfl
    have hreason := hc.refused.reason
    generalize s'.pending = after at hreason
    cases hreason with
    | quoteBeforeClose _ quoted | quoteBeforeEnd _ quoted => exact quoted
    | lexical waits =>
      obtain ⟨p, -, ⟨⟩⟩ := hfault waits
  · exact hc.fault.imp_right And.left
  · obtain ⟨hs, hend⟩ := hc.unterminated hp
    obtain ⟨p', hp', ⟨⟩⟩ := hfault hs
    exact ⟨hp', hend⟩

/-- A quote with nothing to quote and a string that is not closed: after the first attempt the quote
is gone, and the parenthesis that was wrong is still there. -/
theorem conserves_danglingQuote :
    let ts : List Token := [⟨.quote, "\x27"⟩, ⟨.close, ")"⟩, ⟨.symbol, "a"⟩]
    let s : TokenStream := ⟨some ⟨.close, ")"⟩, [⟨.symbol, "a"⟩], some (.unterminatedString 4)⟩
    History ⟨none, ts, (some 4).map .unterminatedString⟩ [⟨.quote, "\x27"⟩] s ∧
      [⟨.quote, "\x27"⟩] ++ s.buffer.toList ++ s.rest = ts := by
  intro ts s
  have h : History ⟨none, ts, (some 4).map .unterminatedString⟩ [⟨.quote, "\x27"⟩] s := by
    refine .next .start (.expr (.nothingQuoted rfl rfl rfl rfl ?_) rfl)
    rintro _ ⟨⟩
    rfl
  exact ⟨h, (stream_conserves_tokens h).1⟩

end TokenStream

end LittleLisp

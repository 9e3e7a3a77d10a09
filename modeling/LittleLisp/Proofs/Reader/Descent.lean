import LittleLisp.Proofs.Reader.Leftmost

/-!
Reading by recursive descent: an expression is read from a stream by peeking at tokens, advancing
over them, and reading the expressions inside of it in the same way. What descent advances over,
followed by what is then pending, is what was pending before. The reader, which keeps a stack
instead, gives what descent gives and leaves the stream as descent leaves it.
-/

namespace LittleLisp

namespace TokenStream

variable {s s' : TokenStream} {t : Token} {ts : List Token} {f : Fault}

theorem peek_cons (h : s.pending = t :: ts) : s.peek = (.ok (some t), ⟨some t, ts, s.fault⟩) := by
  obtain ⟨_ | t', rest, fault⟩ := s
  · obtain rfl : rest = t :: ts := h
    rfl
  · obtain ⟨rfl, rfl⟩ := List.cons.inj h
    rfl

theorem advance_cons (h : s.pending = t :: ts) :
    s.advance = (.ok (some t), ⟨none, ts, s.fault⟩) := by
  obtain ⟨_ | t', rest, fault⟩ := s
  · obtain rfl : rest = t :: ts := h
    rfl
  · obtain ⟨rfl, rfl⟩ := List.cons.inj h
    rfl

def atEnd {α : Type} (fault : Option Fault) : Except Fault (Option α) :=
  match fault with
  | some f => .error f
  | none => .ok none

theorem eq_of_pending_nil (h : s.pending = []) : s = ⟨none, [], s.fault⟩ := by
  obtain ⟨_ | t, rest, fault⟩ := s
  · obtain rfl : rest = [] := h
    rfl
  · cases h

theorem peek_nil (h : s.pending = []) : s.peek = (atEnd s.fault, ended) := by
  rw [eq_of_pending_nil h]
  cases s.fault <;> rfl

theorem advance_nil (h : s.pending = []) : s.advance = (atEnd s.fault, ended) := by
  rw [eq_of_pending_nil h]
  cases s.fault <;> rfl

theorem pending_ended : ended.pending = [] := rfl

theorem pending_peek (s : TokenStream) : s.peek.2.pending = s.pending := by
  cases h : s.pending with
  | nil => rw [peek_nil h, pending_ended]
  | cons t ts =>
    rw [peek_cons h]
    rfl

theorem peek_eq_some (h : s.peek = (.ok (some t), s')) :
    ∃ ts, s.pending = t :: ts ∧ s' = ⟨some t, ts, s.fault⟩ := by
  cases hp : s.pending with
  | nil =>
    rw [peek_nil hp] at h
    cases hf : s.fault <;> rw [hf] at h <;> cases h
  | cons t' ts =>
    rw [peek_cons hp] at h
    cases h
    exact ⟨ts, rfl, rfl⟩

theorem peeked (h : s.peek = (.ok (some t), s')) :
    s'.pending = s.pending ∧ s'.fault = s.fault ∧ ∃ ts, s.pending = t :: ts := by
  obtain ⟨ts, hp, rfl⟩ := peek_eq_some h
  exact ⟨hp.symm, rfl, ts, hp⟩

theorem peek_eq_atEnd {fault : Option Fault} (h : s.peek = (atEnd fault, s')) :
    s.pending = [] ∧ s.fault = fault ∧ s' = ended := by
  cases hp : s.pending with
  | nil =>
    rw [peek_nil hp] at h
    cases hf : s.fault <;> cases fault <;> rw [hf] at h <;> cases h <;> exact ⟨rfl, rfl, rfl⟩
  | cons t ts =>
    rw [peek_cons hp] at h
    cases fault <;> cases h

theorem peek_eq_none (h : s.peek = (.ok none, s')) :
    s.pending = [] ∧ s.fault = none ∧ s' = ended :=
  peek_eq_atEnd h

theorem peek_eq_error (h : s.peek = (.error f, s')) :
    s.pending = [] ∧ s.fault = some f ∧ s' = ended :=
  peek_eq_atEnd h

theorem advance_peeked {u : Token} {s₁ : TokenStream} (hpeek : s.peek = (.ok (some t), s₁))
    (h : s₁.advance = (.ok (some u), s')) :
    ∃ ts, s.pending = t :: ts ∧ t = u ∧ s' = ⟨none, ts, s.fault⟩ := by
  obtain ⟨ts, hp, rfl⟩ := peek_eq_some hpeek
  cases h
  exact ⟨ts, hp, rfl, rfl⟩

end TokenStream

open TokenStream

/-- What is to be read: an expression, or the items of a list up to its closing parenthesis. -/
inductive Target where
  | expression
  | items

/-- Recursive descent. From the stream `s` it advances over the tokens `used`, gives data or a fault
and leaves the stream `s'`; at the end of the stream there is no expression. -/
inductive Parses :
    Target → TokenStream → List Token → Except Fault (List Datum) → TokenStream → Prop
  | failed {target : Target} {s s' : TokenStream} {f : Fault} (next : s.peek = (.error f, s')) :
      Parses target s [] (.error f) s'
  | ended {s s' : TokenStream} (next : s.peek = (.ok none, s')) :
      Parses .expression s [] (.ok []) s'
  | symbol {s s₁ s' : TokenStream} {t u : Token} (next : s.peek = (.ok (some t), s₁))
      (kind : t.kind = .symbol) (taken : s₁.advance = (.ok (some u), s')) :
      Parses .expression s [u] (.ok [.ofSymbol t.text]) s'
  | string {s s₁ s' : TokenStream} {t u : Token} (next : s.peek = (.ok (some t), s₁))
      (kind : t.kind = .string) (taken : s₁.advance = (.ok (some u), s')) :
      Parses .expression s [u] (.ok [.ofLiteral t.text]) s'
  | quoteFailed {s s₁ s₂ s' : TokenStream} {t u : Token} {f : Fault}
      (next : s.peek = (.ok (some t), s₁)) (kind : t.kind = .quote)
      (taken : s₁.advance = (.ok (some u), s₂)) (after : s₂.peek = (.error f, s')) :
      Parses .expression s [u] (.error f) s'
  | nothingQuoted {s s₁ s₂ s' : TokenStream} {t u : Token} {o : Option Token}
      (next : s.peek = (.ok (some t), s₁)) (kind : t.kind = .quote)
      (taken : s₁.advance = (.ok (some u), s₂)) (after : s₂.peek = (.ok o, s'))
      (nothing : ∀ t' ∈ o, t'.kind = .close) :
      Parses .expression s [u] (.error .nothingToQuote) s'
  | quoted {s s₁ s₂ s₃ s' : TokenStream} {t t' u : Token} {used : List Token}
      {r : Except Fault (List Datum)} (next : s.peek = (.ok (some t), s₁)) (kind : t.kind = .quote)
      (taken : s₁.advance = (.ok (some u), s₂)) (after : s₂.peek = (.ok (some t'), s₃))
      (something : t'.kind ≠ .close) (inner : Parses .expression s₃ used r s') :
      Parses .expression s (u :: used) (r.map (List.map .quoted)) s'
  | list {s s₁ s₂ s' : TokenStream} {t u : Token} {used : List Token}
      {r : Except Fault (List Datum)} (next : s.peek = (.ok (some t), s₁)) (kind : t.kind = .open)
      (taken : s₁.advance = (.ok (some u), s₂)) (items : Parses .items s₂ used r s') :
      Parses .expression s (u :: used) (r.map fun ds ↦ [.list ds]) s'
  | unmatched {s s' : TokenStream} {t : Token} (next : s.peek = (.ok (some t), s'))
      (kind : t.kind = .close) : Parses .expression s [] (.error .unmatchedClose) s'
  | unknown {s s' : TokenStream} {t : Token} {name : String} (next : s.peek = (.ok (some t), s'))
      (kind : t.kind = .other name) :
      Parses .expression s [] (.error (.unknownToken name t.text)) s'
  | closed {s s₁ s' : TokenStream} {t u : Token} (next : s.peek = (.ok (some t), s₁))
      (kind : t.kind = .close) (taken : s₁.advance = (.ok (some u), s')) :
      Parses .items s [u] (.ok []) s'
  | unclosed {s s' : TokenStream} (next : s.peek = (.ok none, s')) :
      Parses .items s [] (.error .unmatchedOpen) s'
  | itemFailed {s s₁ s' : TokenStream} {t : Token} {used : List Token} {f : Fault}
      (next : s.peek = (.ok (some t), s₁)) (kind : t.kind ≠ .close)
      (first : Parses .expression s₁ used (.error f) s') : Parses .items s used (.error f) s'
  | item {s s₁ s₂ s' : TokenStream} {t : Token} {used used' : List Token} {ds : List Datum}
      {r : Except Fault (List Datum)} (next : s.peek = (.ok (some t), s₁)) (kind : t.kind ≠ .close)
      (first : Parses .expression s₁ used (.ok ds) s₂) (rest : Parses .items s₂ used' r s') :
      Parses .items s (used ++ used') (r.map (ds ++ ·)) s'

namespace Parses

variable {target : Target} {s s' s'' : TokenStream} {used used' : List Token}
  {r r' : Except Fault (List Datum)}

/-- Descent loses no token, and neither repeats nor reorders them. -/
theorem pending (h : Parses target s used r s') : s.pending = used ++ s'.pending := by
  induction h with
  | failed next =>
    obtain ⟨hp, -, rfl⟩ := peek_eq_error next
    exact hp
  | ended next | unclosed next =>
    obtain ⟨hp, -, rfl⟩ := peek_eq_none next
    exact hp
  | symbol next _ taken | string next _ taken | closed next _ taken =>
    obtain ⟨ts, hp, rfl, rfl⟩ := advance_peeked next taken
    exact hp
  | quoteFailed next _ taken after =>
    obtain ⟨ts, hp, rfl, rfl⟩ := advance_peeked next taken
    obtain ⟨hts, -, rfl⟩ := peek_eq_error after
    rw [hp]
    exact congrArg _ hts
  | @nothingQuoted _ _ s₂ _ _ _ _ next _ taken after =>
    have hpeek := pending_peek s₂
    rw [after] at hpeek
    obtain ⟨ts, hp, rfl, rfl⟩ := advance_peeked next taken
    rw [hp, hpeek]
    rfl
  | @quoted _ _ s₂ _ _ _ _ _ _ _ next _ taken after _ _ ih =>
    have hpeek := pending_peek s₂
    rw [after] at hpeek
    obtain ⟨ts, hp, rfl, rfl⟩ := advance_peeked next taken
    rw [hp, List.cons_append, ← ih, hpeek]
    rfl
  | list next _ taken _ ih =>
    obtain ⟨ts, hp, rfl, rfl⟩ := advance_peeked next taken
    rw [hp, List.cons_append, ← ih]
    rfl
  | unmatched next | unknown next =>
    obtain ⟨ts, hp, rfl⟩ := peek_eq_some next
    exact hp
  | @itemFailed s _ _ _ _ _ next _ _ ih =>
    have hpeek := pending_peek s
    rw [next] at hpeek
    rw [← hpeek, ih]
  | @item s _ _ _ _ _ _ _ _ next _ _ _ ih ih' =>
    have hpeek := pending_peek s
    rw [next] at hpeek
    rw [← hpeek, ih, ih', List.append_assoc]

open Reader

/-- A place where an expression can be read with this open: the next token closes nothing. -/
def Opens (stack : List Frame) (s : TokenStream) : Prop :=
  stack = [] ∨ ∀ t ∈ s.pending.head?, t.kind ≠ .close

/-- The reader does what descent does, whatever is open. -/
def Followed : Target → TokenStream → Except Fault (List Datum) → TokenStream → Prop
  | .expression, s, .ok [], s' => s.pending = [] ∧ s.fault = none ∧ s' = .ended
  | .expression, s, .ok (d :: ds), s' => ds = [] ∧ s'.buffer = none ∧ ∀ stack, Opens stack s →
      one s.fault stack s.pending = resume s'.fault s'.rest (place d stack)
  | .expression, s, .error f, s' => ∀ stack, Opens stack s →
      one s.fault stack s.pending = (.error f, s')
  | .items, s, .ok ds, s' => s'.buffer = none ∧ ∀ acc stack,
      one s.fault (.list acc :: stack) s.pending =
        resume s'.fault s'.rest (place (.list (acc.reverse ++ ds)) stack)
  | .items, s, .error f, s' => ∀ acc stack,
      one s.fault (.list acc :: stack) s.pending = (.error f, s')

theorem one_nil_of_fault {fault : Option Fault} {f : Fault} (h : fault = some f)
    (stack : List Frame) : one fault stack [] = (.error f, .ended) := by
  rw [one, h, Option.some_or]

theorem followed (h : Parses target s used r s') : Followed target s r s' := by
  induction h with
  | @failed target _ _ _ next =>
    obtain ⟨hp, hf, rfl⟩ := peek_eq_error next
    cases target with
    | expression =>
      intro stack _
      rw [hp, one_nil_of_fault hf]
    | items =>
      intro acc stack
      rw [hp, one_nil_of_fault hf]
  | ended next => exact peek_eq_none next
  | @symbol _ _ _ t _ next kind taken | @string _ _ _ t _ next kind taken =>
    obtain ⟨ts, hp, rfl, rfl⟩ := advance_peeked next taken
    obtain ⟨k, text⟩ := t
    cases kind
    refine ⟨rfl, rfl, fun stack _ ↦ ?_⟩
    rw [hp]
    exact one_of_place (by rfl) _ _
  | @quoteFailed _ _ _ _ t _ _ next kind taken after =>
    obtain ⟨ts, hp, rfl, rfl⟩ := advance_peeked next taken
    obtain ⟨hts, hf, rfl⟩ := peek_eq_error after
    obtain ⟨k, text⟩ := t
    cases kind
    intro stack _
    rw [hp, show ts = [] from hts]
    exact one_nil_of_fault hf _
  | @nothingQuoted _ _ _ _ t _ o next kind taken after nothing =>
    obtain ⟨ts, hp, rfl, rfl⟩ := advance_peeked next taken
    obtain ⟨k, text⟩ := t
    cases kind
    intro stack _
    rw [hp]
    cases o with
    | none =>
      obtain ⟨hts, hf, rfl⟩ := peek_eq_none after
      rw [show ts = [] from hts, show _ = none from hf]
      rfl
    | some t' =>
      obtain ⟨ts', hts, rfl⟩ := peek_eq_some after
      have hclose := nothing t' rfl
      obtain ⟨k', text'⟩ := t'
      cases hclose
      rw [show ts = _ from hts]
      rfl
  | @quoted s _ _ _ _ t t' _ _ r next kind taken after something _ ih =>
    obtain ⟨ts, hp, rfl, rfl⟩ := advance_peeked next taken
    obtain ⟨ts', hts, rfl⟩ := peek_eq_some after
    obtain rfl : ts = t' :: ts' := hts
    obtain ⟨k, text⟩ := t
    cases kind
    have hopens (stack : List Frame) : Opens stack ⟨some t', ts', s.fault⟩ := by
      refine .inr ?_
      rintro _ ⟨⟩
      exact something
    rcases r with f | _ | ⟨d, ds⟩
    · intro stack _
      rw [hp]
      exact ih (.quote :: stack) (hopens _)
    · cases ih.1
    · obtain ⟨rfl, hbuffer, hone⟩ := ih
      refine ⟨rfl, hbuffer, fun stack _ ↦ ?_⟩
      rw [hp]
      exact hone (.quote :: stack) (hopens _)
  | @list _ _ _ _ t _ _ r next kind taken _ ih =>
    obtain ⟨ts, hp, rfl, rfl⟩ := advance_peeked next taken
    obtain ⟨k, text⟩ := t
    cases kind
    rcases r with f | ds
    · intro stack _
      rw [hp]
      exact ih [] stack
    · obtain ⟨hbuffer, hone⟩ := ih
      refine ⟨rfl, hbuffer, fun stack _ ↦ ?_⟩
      rw [hp]
      exact hone [] stack
  | @unmatched _ _ t next kind =>
    obtain ⟨ts, hp, rfl⟩ := peek_eq_some next
    rintro stack (rfl | hopens)
    · obtain ⟨k, text⟩ := t
      cases kind
      rw [hp]
      rfl
    · exact absurd kind (hopens t (by rw [hp]; rfl))
  | @unknown _ _ t _ next kind =>
    obtain ⟨ts, hp, rfl⟩ := peek_eq_some next
    obtain ⟨k, text⟩ := t
    cases kind
    intro stack _
    rw [hp]
    rfl
  | @closed _ _ _ t _ next kind taken =>
    obtain ⟨ts, hp, rfl, rfl⟩ := advance_peeked next taken
    obtain ⟨k, text⟩ := t
    cases kind
    refine ⟨rfl, fun acc stack ↦ ?_⟩
    rw [hp, List.append_nil]
    exact one_of_place (by rfl) _ _
  | unclosed next =>
    obtain ⟨hp, hf, rfl⟩ := peek_eq_none next
    intro acc stack
    rw [hp, hf]
    rfl
  | @itemFailed s s₁ _ t _ _ next kind _ ih =>
    obtain ⟨hp, hf, ts, hts⟩ := peeked next
    intro acc stack
    rw [← hp, ← hf]
    refine ih _ (.inr ?_)
    rw [hp, hts]
    rintro _ ⟨⟩
    exact kind
  | @item s s₁ s₂ s' t _ _ ds r next kind _ _ ih ih' =>
    obtain ⟨hp, hf, ts, hts⟩ := peeked next
    have hopens (stack : List Frame) : Opens stack s₁ := by
      refine .inr ?_
      rw [hp, hts]
      rintro _ ⟨⟩
      exact kind
    rcases ds with _ | ⟨d, ds⟩
    · rw [ih.1] at hp
      rw [← hp] at hts
      cases hts
    obtain ⟨rfl, hbuffer, hone⟩ := ih
    -- The item takes its place, and the reader goes on with the same list.
    have hitem (acc : List Datum) (stack : List Frame) :
        one s.fault (.list acc :: stack) s.pending =
          one s₂.fault (.list (d :: acc) :: stack) s₂.pending := by
      have hrest : s₂.pending = s₂.rest := by rw [TokenStream.pending, hbuffer]; rfl
      rw [← hp, ← hf, hone _ (hopens _), hrest]
      rfl
    rcases r with f | ds'
    · intro acc stack
      rw [hitem]
      exact ih' _ stack
    · obtain ⟨hbuffer', hone'⟩ := ih'
      refine ⟨hbuffer', fun acc stack ↦ ?_⟩
      rw [hitem, hone', List.reverse_cons, List.append_assoc]

/-- Descent gives what the reader gives. -/
theorem expr_eq (h : Parses .expression s used r s') : s.expr = (r.map List.head?, s') := by
  have hfollowed := h.followed
  rcases r with f | _ | ⟨d, ds⟩
  · exact hfollowed [] (.inl rfl)
  · obtain ⟨hp, hf, rfl⟩ := hfollowed
    rw [expr, hp, hf]
    rfl
  · obtain ⟨rfl, hbuffer, hone⟩ := hfollowed
    obtain ⟨buffer, rest, fault⟩ := s'
    cases hbuffer
    exact hone [] (.inl rfl)

theorem singleton {t : Token} {ts : List Token} {ds : List Datum} (hp : s.pending = t :: ts)
    (h : Parses .expression s used (.ok ds) s') : ∃ d, ds = [d] := by
  have hfollowed := h.followed
  rcases ds with _ | ⟨d, ds⟩
  · rw [hfollowed.1] at hp
    cases hp
  · exact ⟨d, congrArg _ hfollowed.1⟩

theorem length_lt {d : Datum} {ds : List Datum}
    (h : Parses .expression s used (.ok (d :: ds)) s') :
    s'.pending.length < s.pending.length := by
  obtain ⟨e, rest, hp, -, rfl⟩ := one_eq_some_iff.1 h.expr_eq
  obtain ⟨t, ts, he, -⟩ := e.tokens_eq_cons
  rw [hp, he, List.length_append, List.length_cons]
  exact Nat.lt_add_of_pos_left (Nat.succ_pos _)

theorem exists_parses (target : Target) (s : TokenStream) :
    ∃ used r s', Parses target s used r s' := by
  induction hn : s.pending.length using Nat.strong_induction_on generalizing target s with
  | _ n ih =>
    subst hn
    have hafter : ∀ target s', s'.pending.length < s.pending.length →
        ∃ used r s'', Parses target s' used r s'' :=
      fun target s' hlt ↦ ih s'.pending.length hlt target s' rfl
    -- The items of a list begin with an expression that starts at the same place.
    have hexpr : ∀ s₀ : TokenStream, s₀.pending = s.pending →
        ∃ used r s', Parses .expression s₀ used r s' := by
      intro s₀ h₀
      cases hp : s₀.pending with
      | nil =>
        have hpeek := peek_nil hp
        cases hf : s₀.fault with
        | none => exact ⟨_, _, _, .ended (by rw [hpeek, hf]; rfl)⟩
        | some f => exact ⟨_, _, _, .failed (by rw [hpeek, hf]; rfl)⟩
      | cons t ts =>
        have hpeek := peek_cons hp
        have hlt : ts.length < s.pending.length := by
          rw [← h₀, hp]
          exact Nat.lt_succ_self _
        cases hk : t.kind with
        | symbol => exact ⟨_, _, _, .symbol hpeek hk rfl⟩
        | string => exact ⟨_, _, _, .string hpeek hk rfl⟩
        | close => exact ⟨_, _, _, .unmatched hpeek hk⟩
        | other name => exact ⟨_, _, _, .unknown hpeek hk⟩
        | «open» =>
          obtain ⟨used, r, s', h⟩ := hafter .items ⟨none, ts, s₀.fault⟩ hlt
          exact ⟨_, _, _, .list hpeek hk rfl h⟩
        | quote =>
          rcases hnext : (⟨none, ts, s₀.fault⟩ : TokenStream).peek with ⟨f | _ | t', s₃⟩
          · exact ⟨_, _, _, .quoteFailed hpeek hk rfl hnext⟩
          · exact ⟨_, _, _, .nothingQuoted hpeek hk rfl hnext nofun⟩
          · by_cases hclose : t'.kind = .close
            · refine ⟨_, _, _, .nothingQuoted hpeek hk rfl hnext ?_⟩
              rintro _ ⟨⟩
              exact hclose
            · have hs₃ := (peeked hnext).1
              obtain ⟨used, r, s', h⟩ := hafter .expression s₃ (by rwa [hs₃])
              exact ⟨_, _, _, .quoted hpeek hk rfl hnext hclose h⟩
    cases target with
    | expression => exact hexpr s rfl
    | items =>
      rcases hnext : s.peek with ⟨f | _ | t, s₁⟩
      · exact ⟨_, _, _, .failed hnext⟩
      · exact ⟨_, _, _, .unclosed hnext⟩
      · have hp := (peeked hnext).1
        by_cases hk : t.kind = .close
        · obtain ⟨ts, -, rfl⟩ := peek_eq_some hnext
          exact ⟨_, _, _, .closed hnext hk rfl⟩
        · obtain ⟨used, r, s₂, hfirst⟩ := hexpr s₁ hp
          rcases r with f | ds
          · exact ⟨_, _, _, .itemFailed hnext hk hfirst⟩
          · obtain ⟨ts, hts⟩ := (peeked hnext).2.2
            obtain ⟨d, rfl⟩ := hfirst.singleton (hp.trans hts)
            obtain ⟨used', r', s', hrest⟩ := hafter .items s₂ (hp ▸ hfirst.length_lt)
            exact ⟨_, _, _, .item hnext hk hfirst hrest⟩

end Parses

end LittleLisp

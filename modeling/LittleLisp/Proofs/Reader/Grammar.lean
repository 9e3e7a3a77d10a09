import LittleLisp.Proofs.Reader.Rereading

/-!
The grammar of expressions: a symbol, a string, a quote before an expression, or any number of
expressions in parentheses. Tokens have at most one derivation, whatever follows them, and the
reader finds it. Reading all expressions is reading one after the other, up to a place where none
can be read.
-/

namespace LittleLisp

/-- A derivation of the grammar, with the texts of its tokens. -/
inductive Phrase where
  | symbol (text : Text)
  | string (text : Text)
  | quote (sign : Text) (inner : Phrase)
  | list (opening : Text) (items : List Phrase) (closing : Text)

namespace Phrase

@[elab_as_elim] theorem induction {motive : Phrase → Prop} (symbol : ∀ text, motive (.symbol text))
    (string : ∀ text, motive (.string text))
    (quote : ∀ sign inner, motive inner → motive (.quote sign inner))
    (list : ∀ opening items closing, (∀ e ∈ items, motive e) →
      motive (.list opening items closing)) (e : Phrase) : motive e :=
  @Phrase.rec motive (fun es ↦ ∀ e ∈ es, motive e) symbol string quote list nofun
    (fun _ _ he hes _ hmem ↦ (List.mem_cons.1 hmem).elim (· ▸ he) (hes _)) e

mutual

def tokens : Phrase → List Token
  | .symbol text => [⟨.symbol, text⟩]
  | .string text => [⟨.string, text⟩]
  | .quote sign inner => ⟨.quote, sign⟩ :: inner.tokens
  | .list opening items closing =>
    ⟨.open, opening⟩ :: (allTokens items ++ [⟨.close, closing⟩])

def allTokens : List Phrase → List Token
  | [] => []
  | e :: es => e.tokens ++ allTokens es

end

mutual

def datum : Phrase → Datum
  | .symbol text => .ofSymbol text
  | .string text => .ofLiteral text
  | .quote _ inner => .quoted inner.datum
  | .list _ items _ => .list (data items)

def data : List Phrase → List Datum
  | [] => []
  | e :: es => e.datum :: data es

end

@[simp] theorem allTokens_append (es es' : List Phrase) :
    allTokens (es ++ es') = allTokens es ++ allTokens es' := by
  induction es with
  | nil => rfl
  | cons e es ih => rw [List.cons_append, allTokens, allTokens, ih, List.append_assoc]

@[simp] theorem data_append (es es' : List Phrase) : data (es ++ es') = data es ++ data es' := by
  induction es with
  | nil => rfl
  | cons e es ih => rw [List.cons_append, data, data, ih, List.cons_append]

theorem tokens_eq_cons (e : Phrase) : ∃ t ts, e.tokens = t :: ts ∧ t.kind ≠ .close := by
  cases e <;> exact ⟨_, _, rfl, nofun⟩

theorem close_ne_tokens {text : Text} {ts rest : List Token} (e : Phrase) :
    ⟨.close, text⟩ :: ts ≠ e.tokens ++ rest := by
  obtain ⟨t, us, he, ht⟩ := e.tokens_eq_cons
  rw [he]
  rintro ⟨⟩
  exact ht rfl

theorem allTokens_inj {es es' : List Phrase} {closing closing' : Text} {rest rest' : List Token}
    (hes : ∀ e ∈ es, ∀ (e' : Phrase) (r r' : List Token),
      e.tokens ++ r = e'.tokens ++ r' → e = e' ∧ r = r')
    (h : allTokens es ++ ⟨.close, closing⟩ :: rest =
      allTokens es' ++ ⟨.close, closing'⟩ :: rest') :
    es = es' ∧ closing = closing' ∧ rest = rest' := by
  induction es generalizing es' with
  | nil =>
    cases es' with
    | nil =>
      cases h
      exact ⟨rfl, rfl, rfl⟩
    | cons e' es' =>
      rw [allTokens, allTokens, List.append_assoc] at h
      exact absurd h e'.close_ne_tokens
  | cons e es ih =>
    cases es' with
    | nil =>
      rw [allTokens, allTokens, List.append_assoc] at h
      exact absurd h.symm e.close_ne_tokens
    | cons e' es' =>
      rw [allTokens, allTokens, List.append_assoc, List.append_assoc] at h
      obtain ⟨rfl, hrest⟩ := hes e List.mem_cons_self e' _ _ h
      obtain ⟨rfl, hclosing, hr⟩ := ih (fun e he ↦ hes e (List.mem_cons_of_mem _ he)) hrest
      exact ⟨rfl, hclosing, hr⟩

theorem tokens_append_inj {e e' : Phrase} {rest rest' : List Token}
    (h : e.tokens ++ rest = e'.tokens ++ rest') : e = e' ∧ rest = rest' := by
  induction e using induction generalizing e' rest rest' with
  | symbol text | string text =>
    cases e' <;> cases h
    exact ⟨rfl, rfl⟩
  | quote sign inner ih =>
    cases e' with
    | quote sign' inner' =>
      obtain ⟨hsign, hinner⟩ := List.cons.inj h
      cases hsign
      obtain ⟨rfl, hrest⟩ := ih hinner
      exact ⟨rfl, hrest⟩
    | symbol | string | list => cases h
  | list opening items closing ih =>
    cases e' with
    | list opening' items' closing' =>
      rw [tokens, tokens, List.cons_append, List.cons_append, List.append_assoc,
        List.append_assoc] at h
      obtain ⟨hopening, hitems⟩ := List.cons.inj h
      cases hopening
      obtain ⟨rfl, rfl, hrest⟩ := allTokens_inj (fun e he e' r r' ↦ ih e he) hitems
      exact ⟨rfl, hrest⟩
    | symbol | string | quote => cases h

theorem tokens_injective {e e' : Phrase} (h : e.tokens = e'.tokens) : e = e' :=
  (tokens_append_inj (congrArg (· ++ []) h)).1

end Phrase

namespace Reader

open Phrase

variable {fault : Option Fault} {stack stack' : List Frame} {ts us : List Token} {d : Datum}

theorem yieldsItems_allTokens {es : List Phrase} (h : ∀ e ∈ es, Yields e.tokens e.datum) :
    YieldsItems (allTokens es) (data es) := by
  induction es with
  | nil => exact yieldsItems_nil
  | cons e es ih =>
    exact (h e List.mem_cons_self).cons (ih fun e' he ↦ h e' (List.mem_cons_of_mem e he))

/-- The reader reads every phrase, wherever it stands. -/
theorem yields_tokens (e : Phrase) : Yields e.tokens e.datum := by
  induction e using induction with
  | symbol text => exact yields_symbol text
  | string text => exact yields_string text
  | quote sign inner ih => exact ih.quoted
  | list opening items closing ih => exact (yieldsItems_allTokens ih).list

theorem one_tokens (fault : Option Fault) (e : Phrase) (rest : List Token) :
    one fault [] (e.tokens ++ rest) = (.ok (some e.datum), ⟨none, rest, fault⟩) :=
  yields_tokens e fault [] rest

/-- The tokens that have led to what is open: each list with the phrases that it holds so far. -/
inductive Unfinished : List Token → List Frame → Prop
  | nil : Unfinished [] []
  | quote {ts : List Token} {stack : List Frame} (sign : Text) (outer : Unfinished ts stack) :
      Unfinished (ts ++ [⟨.quote, sign⟩]) (.quote :: stack)
  | list {ts : List Token} {stack : List Frame} (opening : Text) (es : List Phrase)
      (outer : Unfinished ts stack) :
      Unfinished (ts ++ ⟨.open, opening⟩ :: allTokens es) (.list (data es).reverse :: stack)

def Step.Derived (ts : List Token) : Step → Prop
  | .continue stack => Unfinished ts stack
  | .finished d => ∃ e : Phrase, e.tokens = ts ∧ e.datum = d
  | .fault _ => True

theorem Unfinished.place (h : Unfinished ts stack) (e : Phrase) :
    (place e.datum stack).Derived (ts ++ e.tokens) := by
  induction h generalizing e with
  | nil => exact ⟨e, rfl, rfl⟩
  | quote sign _ ih =>
    rw [List.append_assoc]
    exact ih (.quote sign e)
  | list opening es outer =>
    have h := Unfinished.list opening (es ++ [e]) outer
    simp only [allTokens_append, data_append, List.reverse_append, allTokens, data,
      List.append_nil] at h
    rw [List.append_assoc]
    exact h

theorem Unfinished.step (h : Unfinished ts stack) (t : Token) :
    (step stack t).Derived (ts ++ [t]) := by
  obtain ⟨kind, text⟩ := t
  cases kind with
  | symbol => exact h.place (.symbol text)
  | string => exact h.place (.string text)
  | quote => exact h.quote text
  | «open» => exact h.list text []
  | close =>
    cases h with
    | nil | quote => exact trivial
    | list opening es outer =>
      have h := outer.place (.list opening es text)
      rw [datum] at h
      simpa [Reader.step, tokens] using h
  | other name => exact trivial

theorem step_ne_nil {t : Token} (h : step stack t = .continue stack') : stack' ≠ [] := by
  have hplace : ∀ {d stack}, place d stack = .continue stack' → stack' ≠ [] := by
    intro d stack h
    induction stack generalizing d with
    | nil => cases h
    | cons frame stack ih =>
      cases frame with
      | quote => exact ih h
      | list items =>
        cases h
        exact List.cons_ne_nil _ _
  unfold step at h
  split at h
  case h_1 | h_2 | h_7 => exact hplace h
  case h_3 | h_4 =>
    cases h
    exact List.cons_ne_nil _ _
  case h_5 | h_6 | h_8 => cases h

/-- What the reader reads is a phrase at the front of the tokens. -/
theorem Unfinished.one {s : TokenStream} (h : Unfinished ts stack)
    (hone : one fault stack us = (.ok (some d), s)) :
    ∃ (e : Phrase) (rest : List Token), ts ++ us = e.tokens ++ rest ∧ e.datum = d ∧
      s = ⟨none, rest, fault⟩ := by
  induction us generalizing ts stack with
  | nil =>
    rw [Reader.one] at hone
    split at hone <;> cases hone
  | cons t us ih =>
    have hstep := h.step t
    rw [List.append_cons]
    rw [Reader.one] at hone
    split at hone
    case h_1 hk =>
      rw [hk] at hstep
      exact ih hstep hone
    case h_2 d' hk =>
      rw [hk] at hstep
      obtain ⟨e, he, hd⟩ := hstep
      cases hone
      exact ⟨e, us, by rw [he], hd, rfl⟩
    case h_3 => cases hone

theorem one_eq_none_iff : (one fault [] ts).1 = .ok none ↔ ts = [] ∧ fault = none := by
  have hnever : ∀ {stack ts}, stack ≠ [] → (one fault stack ts).1 ≠ .ok none := by
    intro stack ts hstack
    induction ts generalizing stack with
    | nil =>
      rw [one]
      cases stack with
      | nil => exact absurd rfl hstack
      | cons frame stack =>
        intro h
        cases fault <;> cases frame <;> cases h
    | cons t ts ih =>
      rw [one]
      split
      case h_1 hk => exact ih (step_ne_nil hk)
      case h_2 | h_3 =>
        intro h
        cases h
  cases ts with
  | nil => cases fault <;> simp [one, atEnd]
  | cons t ts =>
    refine iff_of_false ?_ (by simp)
    rw [one]
    split
    case h_1 hk => exact hnever (step_ne_nil hk)
    case h_2 | h_3 =>
      intro h
      cases h

theorem one_eq_some_iff {s : TokenStream} : one fault [] ts = (.ok (some d), s) ↔
    ∃ (e : Phrase) (rest : List Token), ts = e.tokens ++ rest ∧ e.datum = d ∧
      s = ⟨none, rest, fault⟩ := by
  refine ⟨fun h ↦ Unfinished.nil.one h, ?_⟩
  rintro ⟨e, rest, rfl, rfl, rfl⟩
  exact one_tokens fault e rest

/-- What reading all expressions makes of what reading one gave. -/
def continueAll :
    Except Fault (Option Datum) × TokenStream → List Datum × Option Fault × TokenStream
  | (.ok (some d), s) =>
    let (ds, f, s) := s.all
    (d :: ds, f, s)
  | (.ok none, s) => ([], none, s)
  | (.error f, s) => ([], some f, s)

theorem all_eq_one (fault : Option Fault) (stack : List Frame) (ts : List Token) :
    all fault stack ts = continueAll (one fault stack ts) := by
  induction ts generalizing stack with
  | nil =>
    rw [all, one]
    cases fault.or (atEnd stack) <;> rfl
  | cons t ts ih =>
    rw [all, one]
    cases step stack t with
    | «continue» stack' => exact ih stack'
    | finished d => rfl
    | fault f => rfl

/-- The phrases at the front of tokens, up to a place where the reader finds none. -/
structure Leading (fault : Option Fault) (ts : List Token) (es : List Phrase) (rest : List Token) :
    Prop where
  tokens : ts = allTokens es ++ rest
  stops : ∀ d, (one fault [] rest).1 ≠ .ok (some d)

theorem Leading.no_phrase {es : List Phrase} {rest : List Token} (h : Leading fault ts es rest)
    (e : Phrase) (r : List Token) : rest ≠ e.tokens ++ r := by
  rintro rfl
  exact h.stops e.datum (by rw [one_tokens])

theorem all_allTokens (fault : Option Fault) (es : List Phrase) (rest : List Token) :
    all fault [] (allTokens es ++ rest) =
      (data es ++ (all fault [] rest).1, (all fault [] rest).2) := by
  induction es with
  | nil => rfl
  | cons e es ih =>
    have hread : TokenStream.all ⟨none, allTokens es ++ rest, fault⟩ =
        all fault [] (allTokens es ++ rest) := rfl
    rw [allTokens, List.append_assoc, all_eq_one, one_tokens, continueAll, hread, ih]
    rfl

theorem exists_leading (fault : Option Fault) (ts : List Token) :
    ∃ es rest, Leading fault ts es rest := by
  induction hn : ts.length using Nat.strong_induction_on generalizing ts with
  | _ n ih =>
    by_cases hsome : ∃ d, (one fault [] ts).1 = .ok (some d)
    · obtain ⟨d, hd⟩ := hsome
      obtain ⟨e, rest, rfl, -, -⟩ := one_eq_some_iff.1 (Prod.ext hd rfl)
      obtain ⟨t, us, he, -⟩ := e.tokens_eq_cons
      have hlt : rest.length < n := by
        rw [← hn, he, List.length_append, List.length_cons]
        omega
      obtain ⟨es, rest', h⟩ := ih rest.length hlt rest rfl
      refine ⟨e :: es, rest', ?_, h.stops⟩
      rw [allTokens, List.append_assoc, ← h.tokens]
    · exact ⟨[], ts, rfl, not_exists.1 hsome⟩

theorem Leading.all_eq {es : List Phrase} {rest : List Token} (h : Leading fault ts es rest) :
    all fault [] ts =
      (data es, (match (one fault [] rest).1 with
        | .error f => some f
        | .ok _ => none), (one fault [] rest).2) := by
  have hrest := all_eq_one fault [] rest
  rw [h.tokens, all_allTokens]
  rcases hone : one fault [] rest with ⟨f | _ | d, s⟩
  · rw [hone] at hrest
    simp [hrest, continueAll]
  · rw [hone] at hrest
    simp [hrest, continueAll]
  · exact absurd (by rw [hone]) (h.stops d)

/-- Reading succeeds where the tokens are phrases and nothing else. -/
theorem all_eq_ok_iff {ds : List Datum} :
    ((all fault [] ts).1 = ds ∧ (all fault [] ts).2.1 = none) ↔
      fault = none ∧ ∃ es : List Phrase, allTokens es = ts ∧ data es = ds := by
  constructor
  · rintro ⟨hds, hf⟩
    obtain ⟨es, rest, h⟩ := exists_leading fault ts
    rw [h.all_eq] at hds hf
    have hnone : (one fault [] rest).1 = .ok none := by
      rcases hone : (one fault [] rest).1 with f | _ | d
      · rw [hone] at hf
        cases hf
      · rfl
      · exact absurd hone (h.stops d)
    obtain ⟨rfl, hfault⟩ := one_eq_none_iff.1 hnone
    exact ⟨hfault, es, by rw [h.tokens, List.append_nil], hds⟩
  · rintro ⟨rfl, es, rfl, rfl⟩
    have hall := all_allTokens none es []
    rw [List.append_nil] at hall
    rw [hall]
    exact ⟨List.append_nil _, rfl⟩

end Reader

end LittleLisp

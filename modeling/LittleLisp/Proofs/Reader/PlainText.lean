import LittleLisp.Proofs.Reader.Leftmost
import LittleLisp.Proofs.Text.Plain

namespace LittleLisp

def Fault.Plain : Fault → Prop
  | .unknownToken _ text => text.Plain
  | .unbound name => name.Plain
  | _ => True

theorem Fault.Plain.diagnostic {f : Fault} (h : f.Plain) : f.diagnostic.Plain := by
  have hmessage : f.message.Plain := by
    cases f <;> simp_all [Fault.message, Fault.Plain]
  simp [Fault.diagnostic, hmessage]

namespace Datum

inductive Plain : Datum → Prop
  | atom {name : Text} (h : name.Plain) : Plain (.atom name)
  | number (value : Binary64) : Plain (.number value)
  | str {text : Text} (h : text.Plain) : Plain (.str text)
  | bool (flag : Bool) : Plain (.bool flag)
  | quoted {inner : Datum} (h : inner.Plain) : Plain (.quoted inner)
  | list {items : List Datum} (h : ∀ d ∈ items, d.Plain) : Plain (.list items)
  | function {name : Text} (h : name.Plain) : Plain (.mark (.function name))
  | elided : Plain (.mark .elided)
  | absent : Plain (.mark .absent)

theorem plain_printItems {items : List Datum} (h : ∀ d ∈ items, d.print.Plain) :
    (printItems items).Plain := by
  induction items with
  | nil => simp [printItems]
  | cons d ds ih =>
    obtain ⟨hd, hds⟩ := List.forall_mem_cons.1 h
    cases ds with
    | nil => simpa [printItems] using hd
    | cons d' ds =>
      rw [printItems_cons_cons]
      simp [hd, ih hds]

theorem plain_stringLiteral {t : Text} (h : t.Plain) : (stringLiteral t).Plain := by
  have hbody : Text.Plain (t.flatMap escaped) := by
    intro p hp
    obtain ⟨q, hq, hp⟩ := List.mem_flatMap.1 hp
    have hescaped : Text.Plain (escaped q) := by
      unfold escaped
      split <;> simpa using h q hq
    exact hescaped p hp
  simp [stringLiteral, hbody]

theorem Plain.print {d : Datum} (h : d.Plain) : d.print.Plain := by
  induction h with
  | atom h => exact h
  | number value => simp [Datum.print]
  | str h => exact plain_stringLiteral h
  | bool flag => cases flag <;> simp [Datum.print]
  | quoted _ ih => simp [Datum.print, ih]
  | list _ ih => simp [Datum.print, plain_printItems ih]
  | function h => simp [Datum.print, h]
  | elided => simp [Datum.print]
  | absent => simp [Datum.print]

theorem plain_ofSymbol {t : Text} (h : t.Plain) : (ofSymbol t).Plain := by
  unfold ofSymbol
  split
  · exact .number _
  · split_ifs
    · exact .bool true
    · exact .bool false
    · exact .atom h

theorem plain_unescape {t : Text} (h : t.Plain) : (unescape t).Plain := by
  fun_induction unescape t with
  | case1 c cs ih =>
    simp only [Text.plain_cons] at h ⊢
    exact ⟨h.2.1, ih h.2.2⟩
  | case2 c cs _ ih =>
    simp only [Text.plain_cons] at h ⊢
    exact ⟨h.1, ih h.2⟩
  | case3 => exact h

theorem plain_ofLiteral {t : Text} (h : t.Plain) : (ofLiteral t).Plain := by
  refine .str (plain_unescape (h.of_subset fun p hp ↦ ?_))
  exact List.mem_of_mem_drop (List.mem_of_mem_dropLast hp)

end Datum

namespace Lexer

def Mode.Plain : Mode → Prop
  | .gap | .comment => True
  | .symbol read | .string _ read | .escape _ read => read.Plain

theorem plain_token {kind : TokenKind} {read : Text} (h : read.Plain) :
    (token kind read).text.Plain :=
  h.of_subset fun _ ↦ List.mem_reverse.1

theorem plain_start (position : ℕ) {c : CodePoint} (hc : ∃ d, c = .scalar d) :
    (∀ t ∈ (start position c).1, t.text.Plain) ∧ (start position c).2.Plain := by
  have hread : Text.Plain [c] := by simpa using hc
  unfold start
  split_ifs <;> simp [Mode.Plain, plain_token, hread]

theorem plain_step (position : ℕ) {c : CodePoint} (hc : ∃ d, c = .scalar d) {mode : Mode}
    (h : mode.Plain) :
    (∀ t ∈ (step position c mode).1, t.text.Plain) ∧ (step position c mode).2.Plain := by
  obtain ⟨hstart, hnext⟩ := plain_start position hc
  cases mode with
  | gap => exact ⟨fun t ht ↦ hstart t (Option.mem_toList.1 ht), hnext⟩
  | comment =>
    simp only [step]
    split_ifs <;> simp [Mode.Plain]
  | symbol read =>
    simp only [step]
    split_ifs
    · exact ⟨by simp, Text.plain_cons.2 ⟨hc, h⟩⟩
    · refine ⟨List.forall_mem_cons.2 ⟨plain_token h, ?_⟩, hnext⟩
      exact fun t ht ↦ hstart t (Option.mem_toList.1 ht)
  | string opened read =>
    have hread : Text.Plain (c :: read) := Text.plain_cons.2 ⟨hc, h⟩
    simp only [step]
    split_ifs
    · exact ⟨by simpa using plain_token hread, trivial⟩
    · exact ⟨by simp, hread⟩
    · exact ⟨by simp, hread⟩
  | escape opened read => exact ⟨by simp [step], Text.plain_cons.2 ⟨hc, h⟩⟩

theorem plain_run {source : Text} (hsource : source.Plain) {mode : Mode} (hmode : mode.Plain)
    (position : ℕ) : ∀ t ∈ (run position mode source).tokens, t.text.Plain := by
  induction source generalizing position mode with
  | nil =>
    cases mode with
    | symbol read => simpa [run, finish] using plain_token hmode
    | gap | comment | string | escape => simp [run, finish]
  | cons c source ih =>
    obtain ⟨hc, hsource⟩ := Text.plain_cons.1 hsource
    obtain ⟨htokens, hnext⟩ := plain_step position hc hmode
    rw [run_cons, Lexed.tokens_prepend]
    exact List.forall_mem_append.2 ⟨htokens, ih hsource hnext (position + 1)⟩

end Lexer

namespace Phrase

theorem mem_allTokens {es : List Phrase} {e : Phrase} {t : Token} (he : e ∈ es)
    (ht : t ∈ e.tokens) : t ∈ allTokens es := by
  induction he with
  | head es => exact List.mem_append_left _ ht
  | tail e' _ ih => exact List.mem_append_right _ ih

theorem forall_mem_data {p : Datum → Prop} {es : List Phrase} (h : ∀ e ∈ es, p e.datum) :
    ∀ d ∈ data es, p d := by
  induction es with
  | nil => simp [data]
  | cons e es ih =>
    rw [List.forall_mem_cons] at h
    exact List.forall_mem_cons.2 ⟨h.1, ih h.2⟩

theorem plain_datum (e : Phrase) (h : ∀ t ∈ e.tokens, t.text.Plain) : e.datum.Plain := by
  induction e using Phrase.induction with
  | symbol text => exact Datum.plain_ofSymbol (by simpa [tokens] using h)
  | string text => exact Datum.plain_ofLiteral (by simpa [tokens] using h)
  | quote sign inner ih =>
    refine .quoted (ih fun t ht ↦ h t ?_)
    simp [tokens, ht]
  | list opening items closing ih =>
    refine .list (forall_mem_data fun e he ↦ ih e he fun t ht ↦ h t ?_)
    simp [tokens, mem_allTokens he ht]

end Phrase

theorem plain_of_mem_lex {source : Text} (h : source.Plain) {t : Token}
    (ht : t ∈ (lex source).tokens) : t.text.Plain :=
  Lexer.plain_run h (show Lexer.Mode.gap.Plain from trivial) 0 t ht

namespace Program

theorem plain_of_parse_eq_ok {source text : Text} {d : Datum} (hsource : source.Plain)
    (h : parse source = .ok ⟨text, some d⟩) : d.Plain := by
  obtain rfl : text = source.trim := (parse_eq_ok_iff.1 h).1
  obtain ⟨-, e, he, rfl⟩ := parse_eq_some_iff.1 h
  refine e.plain_datum fun t ht ↦ plain_of_mem_lex hsource.trim ?_
  exact he ▸ ht

theorem plain_of_parse_eq_error {source : Text} {f : Fault} (h : parse source = .error f) :
    f.Plain := by
  obtain ⟨before, after, -, hfault, -⟩ := parse_eq_error_iff_leftmost.1 h
  cases hfault with
  | lexical hf =>
    obtain ⟨opened, rfl, -⟩ := fault_lex hf
    trivial
  | _ => trivial

end Program

end LittleLisp

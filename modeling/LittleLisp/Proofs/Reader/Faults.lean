import LittleLisp.Proofs.Evaluator.Discipline
import LittleLisp.Proofs.Reader.Rereading

/-!
The faults of reading. Every code point has a place in a gap or in a token, so the lexer fails only
in a string that is never closed; its tokens are of the known kinds, so the reader fails only where
something is unmatched, missing or left over.
-/

namespace LittleLisp

def Token.Known (t : Token) : Prop := ∀ n, t.kind ≠ .other n

namespace Lexer

/-- The string that is being read was opened by a double quote of the text. -/
def Mode.OpenedIn (text : Text) : Mode → Prop
  | .string opened _ | .escape opened _ => text[opened]? = some (.scalar '"')
  | _ => True

variable {text source : Text} {position : Nat} {c : CodePoint} {mode : Mode}

theorem start_known (position : Nat) (c : CodePoint) :
    ∀ t ∈ (start position c).1, t.Known := by
  intro t ht n hk
  unfold start at ht
  repeat' split at ht
  all_goals cases ht <;> cases hk

theorem start_opened (hc : text[position]? = some c) : (start position c).2.OpenedIn text := by
  by_cases hquote : c = .scalar '"'
  · subst hquote
    exact hc
  · unfold start
    rw [if_neg hquote]
    repeat' split
    all_goals trivial

theorem step_known (position : Nat) (c : CodePoint) (mode : Mode) :
    ∀ t ∈ (step position c mode).1, t.Known := by
  have hstart := start_known position c
  intro t ht n hk
  cases mode with
  | gap => exact hstart t (Option.mem_toList.1 ht) n hk
  | comment | escape => cases ht
  | symbol read =>
    simp only [step] at ht
    split at ht
    · cases ht
    · rcases List.mem_cons.1 ht with h | h
      · rw [h] at hk
        cases hk
      · exact hstart t (Option.mem_toList.1 h) n hk
  | string opened read =>
    simp only [step] at ht
    split at ht
    · rw [List.mem_singleton.1 ht] at hk
      cases hk
    · split at ht <;> cases ht

theorem step_opened (hc : text[position]? = some c) (hmode : mode.OpenedIn text) :
    (step position c mode).2.OpenedIn text := by
  have hstart := start_opened hc
  cases mode with
  | gap => exact hstart
  | comment =>
    simp only [step]
    split <;> trivial
  | symbol read =>
    simp only [step]
    split
    · trivial
    · exact hstart
  | string opened read =>
    simp only [step]
    split
    · trivial
    · split <;> exact hmode
  | escape opened read => exact hmode

theorem run_known (position : Nat) (mode : Mode) (source : Text) :
    ∀ t ∈ (run position mode source).tokens, t.Known := by
  induction source generalizing position mode with
  | nil =>
    intro t ht
    cases mode with
    | symbol read =>
      rw [List.mem_singleton.1 ht]
      nofun
    | gap | comment | string | escape => cases ht
  | cons c source ih =>
    intro t ht
    rw [run_cons, Lexed.tokens_prepend, List.mem_append] at ht
    rcases ht with h | h
    · exact step_known position c mode t h
    · exact ih _ _ t h

theorem run_fault {f : Fault} (hsource : text.drop position = source)
    (hmode : mode.OpenedIn text) (hf : (run position mode source).fault = some f) :
    ∃ opened, f = .unterminatedString opened ∧ text[opened]? = some (.scalar '"') := by
  induction source generalizing position mode with
  | nil =>
    cases mode with
    | string opened read | escape opened read =>
      cases hf
      exact ⟨opened, rfl, hmode⟩
    | gap | comment | symbol => cases hf
  | cons c source ih =>
    have hc : text[position]? = some c := by
      rw [← Nat.add_zero position, ← List.getElem?_drop, hsource]
      exact List.getElem?_cons_zero
    have hrest : text.drop (position + 1) = source := by
      rw [← List.drop_drop, hsource]
      exact List.drop_one
    rw [run_cons] at hf
    exact ih hrest (step_opened hc hmode) hf

end Lexer

theorem known_of_mem_lex {source : Text} {t : Token} (ht : t ∈ (lex source).tokens) : t.Known :=
  Lexer.run_known 0 .gap source t ht

/-- The lexer fails only in a string that is not closed, and says where it was opened. -/
theorem fault_lex {source : Text} {f : Fault} (hf : (lex source).fault = some f) :
    ∃ opened, f = .unterminatedString opened ∧ source[opened]? = some (.scalar '"') := by
  have hgap : Lexer.Mode.gap.OpenedIn source := trivial
  exact Lexer.run_fault List.drop_zero hgap hf

theorem ordinary_fault_lex {source : Text} {f : Fault} (hf : (lex source).fault = some f) :
    f.ordinary = true := by
  obtain ⟨opened, hfault, -⟩ := fault_lex hf
  rw [hfault]
  rfl

namespace Reader

variable {fault : Option Fault} {f : Fault} {stack : List Frame} {ts : List Token}

theorem ordinary_step {t : Token} (ht : t.Known) (h : step stack t = .fault f) :
    f.ordinary = true := by
  unfold step at h
  split at h
  case h_1 | h_2 | h_7 => exact absurd h (place_ne_fault _ _ f)
  case h_3 | h_4 => cases h
  case h_5 | h_6 =>
    cases h
    rfl
  case h_8 n hk => exact absurd hk (ht n)

theorem ordinary_atEnd (h : atEnd stack = some f) : f.ordinary = true := by
  unfold atEnd at h
  split at h <;> cases h <;> rfl

section

variable (hfault : ∀ f, fault = some f → f.ordinary = true) (hts : ∀ t ∈ ts, t.Known)
include hfault

theorem ordinary_end (h : fault.or (atEnd stack) = some f) : f.ordinary = true := by
  rcases Option.or_eq_some_iff.1 h with h | ⟨-, h⟩
  · exact hfault f h
  · exact ordinary_atEnd h

include hts

theorem ordinary_one (stack : List Frame) :
    (∀ f, (one fault stack ts).1 = .error f → f.ordinary = true) ∧
      ∀ f, (one fault stack ts).2.fault = some f → f.ordinary = true := by
  induction ts generalizing stack with
  | nil =>
    rw [one]
    split
    case h_1 g hg =>
      refine ⟨?_, ?_⟩ <;> intro f hf <;> cases hf
      exact ordinary_end hfault hg
    case h_2 => refine ⟨?_, ?_⟩ <;> intro f hf <;> cases hf
  | cons t ts ih =>
    rw [one]
    split
    case h_1 => exact ih (fun t' h ↦ hts t' (List.mem_cons_of_mem t h)) _
    case h_2 =>
      refine ⟨?_, hfault⟩
      intro f hf
      cases hf
    case h_3 g hg =>
      refine ⟨?_, hfault⟩
      intro f hf
      cases hf
      exact ordinary_step (hts t List.mem_cons_self) hg

theorem ordinary_all : ∀ f, (all fault stack ts).2.1 = some f → f.ordinary = true := by
  induction ts generalizing stack with
  | nil => exact fun f hf ↦ ordinary_end hfault hf
  | cons t ts ih =>
    have hts' := fun t' h ↦ hts t' (List.mem_cons_of_mem t h)
    rw [all]
    split
    case h_1 => exact ih hts'
    case h_2 => exact ih hts'
    case h_3 g hg =>
      intro f hf
      cases hf
      exact ordinary_step (hts t List.mem_cons_self) hg

end

end Reader

theorem ordinary_peek {s : TokenStream} {f : Fault} (hs : ∀ f, s.fault = some f → f.ordinary = true)
    (h : s.peek.1 = .error f) : f.ordinary = true := by
  refine hs f ?_
  unfold TokenStream.peek at h
  split at h
  case h_3 hfault =>
    cases h
    exact hfault
  case h_1 | h_2 | h_4 => cases h

theorem ordinary_parse {source : Text} {f : Fault} (h : Program.parse source = .error f) :
    f.ordinary = true := by
  have hlex : ∀ f, (lex source.trim).fault = some f → f.ordinary = true :=
    fun _ ↦ ordinary_fault_lex
  have hknown : ∀ t ∈ (lex source.trim).tokens, t.Known := fun _ ↦ known_of_mem_lex
  obtain ⟨hone, hrest⟩ := Reader.ordinary_one hlex hknown []
  have hexpr : (TokenStream.ofLexed (lex source.trim)).expr =
    Reader.one (lex source.trim).fault [] (lex source.trim).tokens := rfl
  simp only [Program.parse, hexpr] at h
  generalize Reader.one (lex source.trim).fault [] (lex source.trim).tokens = r at h hone hrest
  obtain ⟨entry, stream⟩ := r
  cases entry with
  | error g =>
    cases h
    exact hone f rfl
  | ok entry =>
    cases hp : stream.peek.1 with
    | error g =>
      simp only [Bind.bind, Except.bind, hp] at h
      cases h
      exact ordinary_peek hrest hp
    | ok next =>
      simp only [Bind.bind, Except.bind, hp] at h
      cases next with
      | none => cases h
      | some t =>
        cases h
        split <;> rfl

theorem ordinary_readAll {source : Text} {f : Fault}
    (h : (TokenStream.ofLexed (lex source)).all.2.1 = some f) : f.ordinary = true :=
  Reader.ordinary_all (fun _ ↦ ordinary_fault_lex) (fun _ ↦ known_of_mem_lex) f h

end LittleLisp

import LittleLisp.Proofs.Number.Reading
import LittleLisp.Proofs.Reader.Lexing
import LittleLisp.Proofs.Store.Loading
import LittleLisp.Reader

/-!
Reading printed data. What the reader produces is readable: its names are symbols that are no
numerals, its numbers are numbers, and it has no marks. A readable datum prints as a text that reads
as the datum again, save that a number comes back as an equal one and an infinity as a name.
-/

namespace LittleLisp

namespace Reader

def resume (fault : Option Fault) (rest : List Token) :
    Step → Except Fault (Option Datum) × TokenStream
  | .continue stack => one fault stack rest
  | .finished d => (.ok (some d), ⟨none, rest, fault⟩)
  | .fault f => (.error f, ⟨none, rest, fault⟩)

/-- Wherever they stand, the tokens are one datum. -/
def Yields (ts : List Token) (d : Datum) : Prop :=
  ∀ fault stack rest, one fault stack (ts ++ rest) = resume fault rest (place d stack)

def YieldsItems (ts : List Token) (ds : List Datum) : Prop :=
  ∀ fault items stack rest, one fault (.list items :: stack) (ts ++ rest) =
    one fault (.list (ds.reverse ++ items) :: stack) rest

theorem place_ne_fault (d : Datum) (stack : List Frame) (f : Fault) : place d stack ≠ .fault f := by
  induction stack generalizing d with
  | nil => nofun
  | cons frame stack ih =>
    cases frame with
    | quote => exact ih _
    | list items => nofun

theorem one_of_place {t : Token} {stack stack' : List Frame} {d : Datum}
    (h : step stack t = place d stack') (fault : Option Fault) (rest : List Token) :
    one fault stack (t :: rest) = resume fault rest (place d stack') := by
  rw [one, h]
  cases hp : place d stack' with
  | «continue» | finished => rfl
  | fault f => exact absurd hp (place_ne_fault d stack' f)

theorem yields_symbol (t : Text) : Yields [⟨.symbol, t⟩] (.ofSymbol t) :=
  fun fault stack rest ↦ one_of_place (by rfl) fault rest

theorem yields_string (t : Text) : Yields [⟨.string, t⟩] (.ofLiteral t) :=
  fun fault stack rest ↦ one_of_place (by rfl) fault rest

theorem Yields.quoted {ts : List Token} {d : Datum} {t : Text} (h : Yields ts d) :
    Yields (⟨.quote, t⟩ :: ts) (.quoted d) :=
  fun fault stack rest ↦ h fault (.quote :: stack) rest

theorem YieldsItems.list {ts : List Token} {ds : List Datum} {t u : Text} (h : YieldsItems ts ds) :
    Yields (⟨.open, t⟩ :: (ts ++ [⟨.close, u⟩])) (.list ds) := by
  intro fault stack rest
  have hopen : one fault stack (⟨.open, t⟩ :: (ts ++ [⟨.close, u⟩]) ++ rest) =
      one fault (.list [] :: stack) (ts ++ ⟨.close, u⟩ :: rest) := by
    simp [one, step]
  have hclose : step (.list (ds.reverse ++ []) :: stack) ⟨.close, u⟩ = place (.list ds) stack := by
    simp [step]
  rw [hopen, h, one_of_place hclose]

theorem yieldsItems_nil : YieldsItems [] [] := fun _ _ _ _ ↦ rfl

theorem Yields.cons {ts us : List Token} {d : Datum} {ds : List Datum} (h : Yields ts d)
    (hs : YieldsItems us ds) : YieldsItems (ts ++ us) (d :: ds) := by
  intro fault items stack rest
  rw [List.append_assoc, h]
  simpa [place, resume] using hs fault (d :: items) stack rest

end Reader

namespace Datum

theorem unescape_flatMap_escaped (t : Text) : unescape (t.flatMap escaped) = t := by
  induction t with
  | nil => rfl
  | cons c t ih =>
    by_cases hc : c = '\\' ∨ c = '"'
    · have he : escaped c = [.scalar '\\', c] := if_pos hc
      rw [List.flatMap_cons, he, List.cons_append, List.singleton_append, unescape, ih]
    · have he : escaped c = [c] := if_neg hc
      rw [List.flatMap_cons, he, List.singleton_append, unescape, ih]
      rintro _ _ rfl
      exact absurd (.inl rfl) hc

theorem ofLiteral_stringLiteral (t : Text) : ofLiteral (stringLiteral t) = .str t := by
  have htext : (stringLiteral t).drop 1 = t.flatMap escaped ++ [.scalar '"'] := rfl
  rw [ofLiteral, htext, List.dropLast_concat, unescape_flatMap_escaped]

mutual

/-- What the reader can produce. -/
def Readable : Datum → Prop
  | .atom name => IsSymbol name ∧ ofSymbol name = .atom name
  | .number value => value ≠ .nan
  | .str _ | .bool _ => True
  | .quoted inner => inner.Readable
  | .list items => AllReadable items
  | .mark _ => False

def AllReadable : List Datum → Prop
  | [] => True
  | d :: ds => d.Readable ∧ AllReadable ds

end

mutual

/-- What is read when a datum has been printed: numbers go through their text. -/
def reread : Datum → Datum
  | .number value => ofSymbol (.ofChars value.print)
  | .quoted inner => .quoted inner.reread
  | .list items => .list (rereadItems items)
  | d => d

def rereadItems : List Datum → List Datum
  | [] => []
  | d :: ds => d.reread :: rereadItems ds

end

theorem chars?_ofChars (cs : List Char) : (Text.ofChars cs).chars? = some cs := by
  induction cs with
  | nil => rfl
  | cons c cs ih =>
    simp only [Text.ofChars, Text.chars?, List.map_cons, List.mapM_cons] at ih ⊢
    rw [ih]
    rfl

theorem ofSymbol_numeral {cs : List Char} {n : Numeral} (h : Numeral.ofChars? cs = some n) :
    ofSymbol (.ofChars cs) = .number n.value := by
  simp only [ofSymbol, chars?_ofChars, Option.bind_some, h]

theorem isSymbol_numeral {cs : List Char} {n : Numeral} (h : Numeral.ofChars? cs = some n) :
    IsSymbol (.ofChars cs) := by
  constructor
  · rintro hnil
    obtain rfl := List.map_eq_nil_iff.1 hnil
    cases h
  · intro c hc
    obtain ⟨c, hmem, rfl⟩ := List.mem_map.1 hc
    exact Numeral.isSymbolPoint_of_mem h hmem

theorem symbol_number {value : Binary64} (h : value ≠ .nan) :
    IsSymbol (.ofChars value.print) ∧
      (ofSymbol (.ofChars value.print)).print = .ofChars value.print := by
  cases value with
  | nan => exact absurd rfl h
  | infinite negative => cases negative <;> decide
  | finite negative x =>
    obtain ⟨n, hn, heq⟩ := Binary64.ofChars?_print negative x
    refine ⟨isSymbol_numeral hn, ?_⟩
    rw [ofSymbol_numeral hn, print, Binary64.print_eq_of_equal heq]

@[simp] theorem allReadable_iff {ds : List Datum} : AllReadable ds ↔ ∀ d ∈ ds, d.Readable := by
  induction ds with
  | nil => simp [AllReadable]
  | cons d ds ih => simp [AllReadable, ih]

theorem Readable.storable {d : Datum} (h : d.Readable) : d.Storable := by
  induction d using induction with
  | atom | number | str | bool => exact trivial
  | quoted inner ih => exact ih h
  | list items ih => exact allStorable_iff.2 fun d hd ↦ ih d hd (allReadable_iff.1 h d hd)
  | mark => cases h

@[simp] theorem rereadItems_eq_map (ds : List Datum) : rereadItems ds = ds.map reread := by
  induction ds with
  | nil => rfl
  | cons d ds ih => rw [rereadItems, ih, List.map_cons]

theorem printItems_cons_cons (d d' : Datum) (ds : List Datum) :
    printItems (d :: d' :: ds) = d.print ++ " " ++ printItems (d' :: ds) := by
  rw [printItems]
  nofun

theorem printItems_eq_join (ds : List Datum) : printItems ds = Text.join " " (ds.map print) := by
  induction ds with
  | nil => rfl
  | cons d ds ih =>
    cases ds with
    | nil => simp [printItems, Text.join]
    | cons d' ds =>
      rw [printItems_cons_cons, ih]
      simp [Text.join, List.intercalate]

theorem print_reread {d : Datum} (h : d.Readable) : d.reread.print = d.print := by
  induction d using induction with
  | atom | str | bool => rfl
  | number value => exact (symbol_number h).2
  | quoted inner ih => rw [reread, print, print, ih h]
  | list items ih =>
    have hmap : items.map (print ∘ reread) = items.map print :=
      List.map_congr_left fun d hd ↦ ih d hd (allReadable_iff.1 h d hd)
    rw [reread, print, print, printItems_eq_join, printItems_eq_join, rereadItems_eq_map,
      List.map_map, hmap]
  | mark => cases h

open Lexer Reader

def Reads (t : Text) (d : Datum) : Prop := ∃ ts, Spells t ts ∧ Yields ts d

theorem reads_symbol {t : Text} (h : IsSymbol t) : Reads t (ofSymbol t) :=
  ⟨_, spells_symbol h, yields_symbol t⟩

theorem reads_items {ds : List Datum} (h : ∀ d ∈ ds, Reads d.print d.reread) :
    ∃ ts, Spells (printItems ds) ts ∧ YieldsItems ts (rereadItems ds) := by
  induction ds with
  | nil => exact ⟨[], spells_nil, yieldsItems_nil⟩
  | cons d ds ih =>
    obtain ⟨ts, hs, hy⟩ := h d List.mem_cons_self
    obtain ⟨us, hss, hys⟩ := ih fun d' hd ↦ h d' (List.mem_cons_of_mem d hd)
    refine ⟨ts ++ us, ?_, hy.cons hys⟩
    cases ds with
    | nil =>
      obtain rfl : us = [] := by
        have hlex := (hss.lex_eq).symm.trans spells_nil.lex_eq
        injection hlex
      simpa [printItems] using hs
    | cons d' ds =>
      rw [printItems_cons_cons, List.append_assoc]
      exact hs.space hss

theorem reads_print {d : Datum} (h : d.Readable) : Reads d.print d.reread := by
  induction d using induction with
  | atom name =>
    have hr := reads_symbol h.1
    rwa [h.2] at hr
  | number value => exact reads_symbol (symbol_number h).1
  | str text =>
    refine ⟨_, spells_stringLiteral text, ?_⟩
    have hy := yields_string (stringLiteral text)
    rwa [ofLiteral_stringLiteral] at hy
  | bool flag => cases flag <;> exact reads_symbol (by decide)
  | quoted inner ih =>
    obtain ⟨ts, hs, hy⟩ := ih h
    exact ⟨_, hs.quote, hy.quoted⟩
  | list items ih =>
    obtain ⟨ts, hs, hy⟩ := reads_items fun d hd ↦ ih d hd (allReadable_iff.1 h d hd)
    exact ⟨_, hs.parens, hy.list⟩
  | mark => cases h

end Datum

namespace Text

def Solid (t : Text) : Prop :=
  (∃ c ∈ t.head?, c.isBlank = false) ∧ ∃ c ∈ t.getLast?, c.isBlank = false

theorem Solid.trim_eq {t : Text} (h : t.Solid) : t.trim = t := by
  have hdrop : ∀ {u : Text}, (∃ c ∈ u.head?, c.isBlank = false) →
      u.dropWhile CodePoint.isBlank = u := by
    rintro (_ | ⟨c, u⟩) ⟨c', ⟨⟩, hc⟩
    exact List.dropWhile_cons_of_neg (by simp [hc])
  rw [trim, trimWith, hdrop h.1, hdrop (by rw [List.head?_reverse]; exact h.2),
    List.reverse_reverse]

theorem solid_of_isSymbol {t : Text} (h : IsSymbol t) : t.Solid := by
  have hblank : ∀ c ∈ t, c.isBlank = false :=
    fun c hc ↦ (Lexer.isDelimiter_of_isSymbolPoint (h.2 c hc)).1
  exact ⟨⟨_, List.head?_eq_some_head h.1, hblank _ (List.head_mem h.1)⟩,
    ⟨_, List.getLast?_eq_some_getLast h.1, hblank _ (List.getLast_mem h.1)⟩⟩

end Text

namespace Datum

theorem solid_print {d : Datum} (h : d.Readable) : d.print.Solid := by
  induction d using induction with
  | atom name => exact Text.solid_of_isSymbol h.1
  | number value => exact Text.solid_of_isSymbol (symbol_number h).1
  | bool flag => exact Text.solid_of_isSymbol (by cases flag <;> decide)
  | str text =>
    have hlast : (stringLiteral text).getLast? = some (.scalar '"') := List.getLast?_concat
    exact ⟨⟨.scalar '"', rfl, rfl⟩, .scalar '"', hlast, rfl⟩
  | quoted inner ih =>
    obtain ⟨c, hc, hblank⟩ := (ih h).2
    have hlast : (Datum.quoted inner).print.getLast? = some c := by
      have hcons : (Datum.quoted inner).print = .scalar '\x27' :: inner.print := rfl
      rw [hcons, List.getLast?_cons, Option.mem_def.1 hc, Option.getD_some]
    exact ⟨⟨.scalar '\x27', rfl, rfl⟩, c, hlast, hblank⟩
  | list items =>
    have hlast : (Datum.list items).print.getLast? = some (.scalar ')') := List.getLast?_concat
    exact ⟨⟨.scalar '(', rfl, rfl⟩, .scalar ')', hlast, rfl⟩
  | mark => cases h

end Datum

namespace Reader

open Datum

theorem readable_ofSymbol {t : Text} (h : IsSymbol t) : (ofSymbol t).Readable := by
  cases hn : t.chars?.bind Numeral.ofChars? with
  | some n =>
    have he : ofSymbol t = .number n.value := by simp only [ofSymbol, hn]
    rw [he]
    exact Binary64.ofDecimal_ne_nan _ _ _
  | none =>
    by_cases htrue : t = "#t"
    · subst htrue
      exact trivial
    by_cases hfalse : t = "#f"
    · subst hfalse
      exact trivial
    have he : ofSymbol t = .atom t := by simp only [ofSymbol, hn, htrue, hfalse, if_false]
    rw [he]
    exact ⟨h, he⟩

def Frame.Readable : Frame → Prop
  | .quote => True
  | .list items => ∀ d ∈ items, d.Readable

def Step.Readable : Step → Prop
  | .continue stack => ∀ frame ∈ stack, frame.Readable
  | .finished d => d.Readable
  | .fault _ => True

theorem readable_place {d : Datum} {stack : List Frame} (hd : d.Readable)
    (hs : ∀ frame ∈ stack, frame.Readable) : (place d stack).Readable := by
  induction stack generalizing d with
  | nil => exact hd
  | cons frame stack ih =>
    have hframe := hs frame List.mem_cons_self
    have hstack := fun f hf ↦ hs f (List.mem_cons_of_mem frame hf)
    cases frame with
    | quote => exact ih (d := .quoted d) hd hstack
    | list items =>
      refine List.forall_mem_cons.2 ⟨List.forall_mem_cons.2 ⟨hd, hframe⟩, hstack⟩

theorem readable_step {t : Token} {stack : List Frame} (ht : t.kind = .symbol → IsSymbol t.text)
    (hs : ∀ frame ∈ stack, frame.Readable) : (step stack t).Readable := by
  unfold step
  split
  case h_1 hk => exact readable_place (readable_ofSymbol (ht hk)) hs
  case h_2 => exact readable_place trivial hs
  case h_3 => exact List.forall_mem_cons.2 ⟨trivial, hs⟩
  case h_4 => exact List.forall_mem_cons.2 ⟨nofun, hs⟩
  case h_5 => exact trivial
  case h_6 => exact trivial
  case h_7 items stack' _ =>
    refine readable_place ?_ fun f hf ↦ hs f (List.mem_cons_of_mem _ hf)
    refine allReadable_iff.2 fun d hd ↦ ?_
    exact hs _ List.mem_cons_self d (List.mem_reverse.1 hd)
  case h_8 => exact trivial

theorem readable_one {fault : Option Fault} {ts : List Token} {stack : List Frame} {d : Datum}
    (ht : ∀ t ∈ ts, t.kind = .symbol → IsSymbol t.text) (hs : ∀ frame ∈ stack, frame.Readable)
    (h : (one fault stack ts).1 = .ok (some d)) : d.Readable := by
  induction ts generalizing stack with
  | nil =>
    rw [one] at h
    split at h <;> cases h
  | cons t ts ih =>
    have hstep := readable_step (ht t List.mem_cons_self) hs
    rw [one] at h
    split at h
    case h_1 hk =>
      rw [hk] at hstep
      exact ih (fun t' ht' ↦ ht t' (List.mem_cons_of_mem t ht')) hstep h
    case h_2 hk =>
      rw [hk] at hstep
      cases h
      exact hstep
    case h_3 => cases h

theorem readable_all {fault : Option Fault} {ts : List Token} {stack : List Frame}
    (ht : ∀ t ∈ ts, t.kind = .symbol → IsSymbol t.text) (hs : ∀ frame ∈ stack, frame.Readable) :
    ∀ d ∈ (all fault stack ts).1, d.Readable := by
  induction ts generalizing stack with
  | nil => nofun
  | cons t ts ih =>
    have hstep := readable_step (ht t List.mem_cons_self) hs
    have hts := fun t' ht' ↦ ht t' (List.mem_cons_of_mem t ht')
    rw [all]
    split
    case h_1 hk =>
      rw [hk] at hstep
      exact ih hts hstep
    case h_2 d hk =>
      rw [hk] at hstep
      exact List.forall_mem_cons.2 ⟨hstep, ih hts nofun⟩
    case h_3 => nofun

end Reader

namespace Program

open Datum

theorem parse_eq_ok_iff {source : Text} {p : Program} :
    parse source = .ok p ↔ p.text = source.trim ∧
      (Reader.one (lex source.trim).fault [] (lex source.trim).tokens).1 = .ok p.entry ∧
      (Reader.one (lex source.trim).fault [] (lex source.trim).tokens).2.peek.1 = .ok none := by
  have hexpr : (TokenStream.ofLexed (lex source.trim)).expr =
    Reader.one (lex source.trim).fault [] (lex source.trim).tokens := rfl
  simp only [parse, hexpr]
  generalize Reader.one (lex source.trim).fault [] (lex source.trim).tokens = r
  obtain ⟨entry, stream⟩ := r
  cases entry with
  | error f => simp [Bind.bind, Except.bind]
  | ok entry =>
    cases hp : stream.peek.1 with
    | error f => simp [Bind.bind, Except.bind]
    | ok next =>
      cases next with
      | none =>
        obtain ⟨text, entry'⟩ := p
        simp [Bind.bind, Except.bind, pure, Except.pure, eq_comm]
      | some t => simp [Bind.bind, Except.bind, throw, throwThe, MonadExceptOf.throw]

theorem parse_of_reads {t : Text} {d : Datum} (h : Reads t d) (ht : t.Solid) :
    parse t = .ok ⟨t, some d⟩ := by
  obtain ⟨ts, hs, hy⟩ := h
  have hone := hy none [] []
  rw [List.append_nil] at hone
  rw [parse_eq_ok_iff, ht.trim_eq, hs.lex_eq, hone]
  exact ⟨rfl, rfl, rfl⟩

theorem readable_entry {source : Text} {p : Program} {d : Datum} (h : parse source = .ok p)
    (hd : p.entry = some d) : d.Readable := by
  obtain ⟨-, hone, -⟩ := parse_eq_ok_iff.1 h
  rw [hd] at hone
  exact Reader.readable_one (fun t ht hk ↦ Lexer.isSymbol_of_mem_lex ht hk) (by simp) hone

end Program

end LittleLisp

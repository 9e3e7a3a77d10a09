import LittleLisp.Proofs.Reader.Rereading
import LittleLisp.Proofs.Store.Holding

namespace LittleLisp

/-- The inside of a string literal in which only a double quote and a backslash are escaped. -/
inductive EscapedText : Text → Prop
  | nil : EscapedText []
  | plain {c : CodePoint} {t : Text} (hc : c ≠ '\\' ∧ c ≠ '"') (rest : EscapedText t) :
      EscapedText (c :: t)
  | escaped {c : CodePoint} {t : Text} (hc : c = '\\' ∨ c = '"') (rest : EscapedText t) :
      EscapedText (.scalar '\\' :: c :: t)

inductive CanonicalText : Text → Prop
  | symbol {name : Text} (symbol : IsSymbol name)
      (notNumeral : name.chars?.bind Numeral.ofChars? = none) : CanonicalText name
  | bool (flag : Bool) : CanonicalText (if flag then "#t" else "#f")
  | number {cs : List Char} {n : Numeral} (numeral : Numeral.ofChars? cs = some n)
      (printed : n.value.print = cs) : CanonicalText (.ofChars cs)
  | string {body : Text} (escaped : EscapedText body) : CanonicalText ("\"" ++ body ++ "\"")
  | quoted {t : Text} (inner : CanonicalText t) : CanonicalText ("\x27" ++ t)
  | list {ts : List Text} (items : ∀ t ∈ ts, CanonicalText t) :
      CanonicalText ("(" ++ Text.join " " ts ++ ")")

theorem escapedText_flatMap (t : Text) : EscapedText (t.flatMap Datum.escaped) := by
  induction t with
  | nil => exact .nil
  | cons c t ih =>
    by_cases hc : c = '\\' ∨ c = '"'
    · rw [List.flatMap_cons, Datum.escaped, if_pos hc]
      exact .escaped hc ih
    · rw [List.flatMap_cons, Datum.escaped, if_neg hc]
      exact .plain (not_or.1 hc) ih

theorem EscapedText.exists_text {body : Text} (h : EscapedText body) :
    ∃ t : Text, t.flatMap Datum.escaped = body := by
  induction h with
  | nil => exact ⟨[], rfl⟩
  | @plain c _ hc _ ih =>
    obtain ⟨t, rfl⟩ := ih
    exact ⟨c :: t, by rw [List.flatMap_cons, Datum.escaped, if_neg (not_or.2 hc)]; rfl⟩
  | @escaped c _ hc _ ih =>
    obtain ⟨t, rfl⟩ := ih
    exact ⟨c :: t, by rw [List.flatMap_cons, Datum.escaped, if_pos hc]; rfl⟩

namespace Datum

theorem canonical_print {d : Datum} (h : d.Readable) : CanonicalText d.print := by
  induction d using induction with
  | atom name =>
    refine .symbol h.1 ?_
    cases hn : name.chars?.bind Numeral.ofChars? with
    | none => exact hn
    | some n =>
      have hatom := h.2
      simp only [ofSymbol, hn] at hatom
      cases hatom
  | number value =>
    cases value with
    | nan => exact absurd rfl h
    | infinite negative => cases negative <;> exact .symbol (by decide) (by decide)
    | finite negative x =>
      obtain ⟨n, hn, heq⟩ := Binary64.ofChars?_print negative x
      exact .number hn (Binary64.print_eq_of_equal heq)
  | str text => exact .string (escapedText_flatMap text)
  | bool flag => exact .bool flag
  | quoted inner ih => exact .quoted (ih h)
  | list items ih =>
    rw [print, printItems_eq_join]
    refine .list fun t ht ↦ ?_
    obtain ⟨d, hd, rfl⟩ := List.mem_map.1 ht
    exact ih d hd (allReadable_iff.1 h d hd)
  | mark => cases h

theorem print_ofSymbol {name : Text} (h : name.chars?.bind Numeral.ofChars? = none) :
    (ofSymbol name).print = name := by
  simp only [ofSymbol, h]
  split
  case isTrue htrue => rw [htrue]; rfl
  case isFalse =>
    split
    case isTrue hfalse => rw [hfalse]; rfl
    case isFalse => rfl

theorem exists_data {ts : List Text} (h : ∀ t ∈ ts, ∃ d : Datum, d.Readable ∧ d.print = t) :
    ∃ ds : List Datum, (∀ d ∈ ds, d.Readable) ∧ ds.map print = ts := by
  induction ts with
  | nil => exact ⟨[], by simp, rfl⟩
  | cons t ts ih =>
    obtain ⟨d, hd, rfl⟩ := h t List.mem_cons_self
    obtain ⟨ds, hds, rfl⟩ := ih fun u hu ↦ h u (List.mem_cons_of_mem _ hu)
    exact ⟨d :: ds, List.forall_mem_cons.2 ⟨hd, hds⟩, rfl⟩

end Datum

/-- Every canonical text is what some readable datum is printed as. -/
theorem CanonicalText.exists_datum {t : Text} (h : CanonicalText t) :
    ∃ d : Datum, d.Readable ∧ d.print = t := by
  induction h with
  | @symbol name hs hn => exact ⟨_, Reader.readable_ofSymbol hs, Datum.print_ofSymbol hn⟩
  | bool flag => exact ⟨.bool flag, trivial, rfl⟩
  | @number cs n hn hp =>
    exact ⟨.number n.value, Binary64.ofDecimal_ne_nan _ _ _, by rw [Datum.print, hp]⟩
  | string hb =>
    obtain ⟨t, rfl⟩ := hb.exists_text
    exact ⟨.str t, trivial, rfl⟩
  | quoted _ ih =>
    obtain ⟨d, hd, rfl⟩ := ih
    exact ⟨.quoted d, hd, rfl⟩
  | @list ts _ ih =>
    obtain ⟨ds, hds, rfl⟩ := Datum.exists_data ih
    refine ⟨.list ds, Datum.allReadable_iff.2 hds, ?_⟩
    rw [Datum.print, Datum.printItems_eq_join]

namespace Program

/-- The canonical text of a program: its expression is stored and its cell printed; without an
expression there is nothing to print. -/
def print (s : Store) (p : Program) : Except Fault Text :=
  match p.entry with
  | none => .ok []
  | some d => (Store.load d s).2.print (Store.load d s).1

def normalise (s : Store) (source : Text) : Except Fault Text := do
  print s (← parse source)

variable {s : Store} {source text : Text} {p : Program} {d : Datum}

theorem print_of_entry (h : p.entry = some d) (hd : d.Readable) : print s p = .ok d.print := by
  simp only [print, h]
  exact Store.print_load hd.storable s

theorem normalise_of_parse (h : parse source = .ok p) : normalise s source = print s p := by
  rw [normalise, h]
  rfl

theorem normalise_of_entry (h : parse source = .ok p) (hd : p.entry = some d) :
    normalise s source = .ok d.print := by
  rw [normalise_of_parse h, print_of_entry hd (readable_entry h hd)]

theorem normalise_print (hd : d.Readable) :
    (∃ p, parse d.print = .ok p ∧ p.entry.isSome = true) ∧ normalise s d.print = .ok d.print := by
  have hparse := parse_of_reads (Datum.reads_print hd) (Datum.solid_print hd)
  refine ⟨⟨_, hparse, rfl⟩, ?_⟩
  rw [normalise_of_entry hparse rfl, Datum.print_reread hd]

theorem exists_of_normalise (h : parse source = .ok p) :
    ∃ text, normalise s source = .ok text ∧
      (p.entry = none ∧ text = [] ∨ ∃ d : Datum, d.Readable ∧ text = d.print) := by
  cases hd : p.entry with
  | none => exact ⟨[], by simp only [normalise_of_parse h, print, hd], .inl ⟨rfl, rfl⟩⟩
  | some d => exact ⟨d.print, normalise_of_entry h hd, .inr ⟨d, readable_entry h hd, rfl⟩⟩

theorem exists_parse_of_normalise (h : normalise s source = .ok text) :
    ∃ p, parse source = .ok p := by
  cases hp : parse source with
  | ok p => exact ⟨p, rfl⟩
  | error f =>
    rw [normalise, hp] at h
    cases h

/-- Normalising yields canonical texts, keeps canonical texts, and done twice is done once; its
fixed points are the canonical texts and the text with nothing in it. -/
theorem canonical_iff_normal (s : Store) :
    (∀ source p d, parse source = .ok p → p.entry = some d →
      ∃ text, normalise s source = .ok text ∧ CanonicalText text) ∧
    (∀ text, CanonicalText text →
      (∃ p, parse text = .ok p ∧ p.entry.isSome = true) ∧ normalise s text = .ok text) ∧
    (∀ source p, parse source = .ok p →
      ∃ text, normalise s source = .ok text ∧ normalise s text = .ok text) ∧
    (∀ text, normalise s text = .ok text ↔ text = [] ∨ CanonicalText text) := by
  have hkeep : ∀ text, CanonicalText text →
      (∃ p, parse text = .ok p ∧ p.entry.isSome = true) ∧ normalise s text = .ok text := by
    intro text h
    obtain ⟨d, hd, rfl⟩ := h.exists_datum
    exact normalise_print hd
  refine ⟨fun source p d h hd ↦ ?_, hkeep, fun source p h ↦ ?_, fun text ↦ ⟨fun h ↦ ?_, ?_⟩⟩
  · exact ⟨d.print, normalise_of_entry h hd, Datum.canonical_print (readable_entry h hd)⟩
  · obtain ⟨text, hn, ⟨-, rfl⟩ | ⟨d, hd, rfl⟩⟩ := exists_of_normalise h
    · exact ⟨[], hn, rfl⟩
    · exact ⟨d.print, hn, (normalise_print hd).2⟩
  · obtain ⟨p, hp⟩ := exists_parse_of_normalise h
    obtain ⟨text', hn, hcases⟩ := exists_of_normalise hp
    cases h.symm.trans hn
    rcases hcases with ⟨-, hnil⟩ | ⟨d, hd, rfl⟩
    · exact .inl hnil
    · exact .inr (Datum.canonical_print hd)
  · rintro (rfl | h)
    · rfl
    · exact (hkeep text h).2

/-- A comment, redundant blanks and escapes, and a numeral too large for the format. -/
theorem normal_of_overflow :
    ∃ p d, parse "  ( 1e999 ;\n \"\\a\")" = .ok p ∧ p.entry = some d ∧
      ∃ text, normalise .empty "  ( 1e999 ;\n \"\\a\")" = .ok text ∧ CanonicalText text := by
  refine ⟨_, _, rfl, rfl, ?_⟩
  exact (canonical_iff_normal .empty).1 _ _ _ rfl rfl

example : normalise .empty "-1e999" = .ok "-inf" := rfl

end Program

end LittleLisp

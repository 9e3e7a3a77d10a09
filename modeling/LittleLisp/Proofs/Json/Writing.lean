import LittleLisp.Json.Writer
import LittleLisp.Proofs.Json.Reading
import LittleLisp.Proofs.Text.Plain

/-!
What is written as JSON. A string is written in ASCII whatever its code points are; one without
lone halves of surrogate pairs spells itself. An object is written in ASCII and spells itself if
the values of its members do.
-/

namespace LittleLisp

namespace Json

open Text

def Ascii (cs : List Char) : Prop := ∀ c ∈ cs, c.toNat < 0x80

section Ascii

variable {cs ds : List Char}

theorem Ascii.append (hc : Ascii cs) (hd : Ascii ds) : Ascii (cs ++ ds) := fun c h ↦
  (List.mem_append.1 h).elim (hc c) (hd c)

theorem Ascii.cons {c : Char} (hc : c.toNat < 0x80) (hd : Ascii ds) : Ascii (c :: ds) :=
  List.forall_mem_cons.2 ⟨hc, hd⟩

end Ascii

theorem digitChar_of_lt : ∀ k < 16,
    (Nat.digitChar k).toNat < 0x80 ∧ hexValue? (Nat.digitChar k) = some k := by
  decide

theorem hexDigits_four (n : ℕ) : hexDigits 4 n =
    [Nat.digitChar (n / 4096 % 16), Nat.digitChar (n / 256 % 16), Nat.digitChar (n / 16 % 16),
      Nat.digitChar (n % 16)] := by
  simp [hexDigits, List.range, List.range.loop, Nat.shiftRight_eq_div_pow]

theorem ascii_unitEscape (n : ℕ) : Ascii (unitEscape n) := by
  rw [unitEscape, hexDigits_four]
  have hd (k : ℕ) : (Nat.digitChar (k % 16)).toNat < 0x80 :=
    (digitChar_of_lt _ (Nat.mod_lt k (by omega))).1
  simp [Ascii, hd]

theorem ascii_escapedPoint (p : CodePoint) : Ascii (escapedPoint p) := by
  cases p with
  | surrogate i => exact ascii_unitEscape _
  | scalar c =>
    simp only [escapedPoint, escapedChar]
    split_ifs with h _ _ _ _ _ hplain
    · obtain rfl | rfl := h <;> simp [Ascii]
    · simp [Ascii]
    · simp [Ascii]
    · simp [Ascii]
    · simp [Ascii]
    · simp [Ascii]
    · simp [Ascii]; omega
    · exact ascii_unitEscape _
    · exact (ascii_unitEscape _).append (ascii_unitEscape _)

theorem ascii_stringLiteral (t : Text) : Ascii (stringLiteral t) := by
  have hbody : Ascii (t.flatMap escapedPoint) := by
    intro c hc
    obtain ⟨p, -, hp⟩ := List.mem_flatMap.1 hc
    exact ascii_escapedPoint p c hp
  exact (Ascii.cons (by decide) hbody).append (by simp [Ascii])

theorem writeMembers_cons {ms : List (Text × Json)} (hne : ms ≠ []) (name : Text) (v : Json) :
    writeMembers ((name, v) :: ms) =
      stringLiteral name ++ (':' :: ' ' :: write v) ++ ',' :: ' ' :: writeMembers ms := by
  cases ms with
  | nil => contradiction
  | cons m ms => simp [writeMembers]

theorem ascii_write_object {ms : List (Text × Json)} (h : ∀ m ∈ ms, Ascii (write m.2)) :
    Ascii (write (.object ms)) := by
  have hmembers : Ascii (writeMembers ms) := by
    induction ms with
    | nil => simp [writeMembers, Ascii]
    | cons m ms ih =>
      obtain ⟨hm, hms⟩ := List.forall_mem_cons.1 h
      have hmember : Ascii (stringLiteral m.1 ++ (':' :: ' ' :: write m.2)) :=
        (ascii_stringLiteral m.1).append (.cons (by decide) (.cons (by decide) hm))
      obtain rfl | hne := eq_or_ne ms []
      · exact hmember
      · rw [writeMembers_cons hne]
        exact hmember.append (.cons (by decide) (.cons (by decide) (ih hms)))
  rw [write]
  exact (Ascii.cons (by decide) hmembers).append (by simp [Ascii])

def codeUnits (p : CodePoint) : List Nat :=
  if p.toNat < 0x10000 then [p.toNat]
  else [0xd800 + (p.toNat - 0x10000) / 0x400, 0xdc00 + (p.toNat - 0x10000) % 0x400]

section StringBody

variable {ns : List ℕ} {cs : List Char} (h : StringBody ns cs)

include h

theorem StringBody.unitEscape {n : ℕ} (hn : n < 0x10000) :
    StringBody (n :: ns) (unitEscape n ++ cs) := by
  have hd (k : ℕ) : hexValue? (Nat.digitChar (k % 16)) = some (k % 16) :=
    (digitChar_of_lt _ (Nat.mod_lt k (by omega))).2
  rw [Json.unitEscape, hexDigits_four]
  refine .unit ?_ h
  simp only [codeUnit?, hd, Option.bind_eq_bind, Option.bind_some, Option.pure_def, Option.some_inj]
  omega

theorem StringBody.escapedPoint (p : CodePoint) :
    StringBody (codeUnits p ++ ns) (escapedPoint p ++ cs) := by
  cases p with
  | surrogate i =>
    have hi : (CodePoint.surrogate i).toNat < 0x10000 := by
      simp only [CodePoint.toNat]
      omega
    rw [codeUnits, if_pos hi]
    exact h.unitEscape hi
  | scalar c =>
    have hvalid : c.toNat < 0xd800 ∨ 0xdfff < c.toNat ∧ c.toNat < 0x110000 := c.valid
    simp only [Json.escapedPoint, escapedChar]
    split_ifs with hmark h1 h2 h3 h4 h5 hplain hsmall
    · obtain rfl | rfl := hmark <;> exact .short rfl h
    · subst h1
      exact .short rfl h
    · subst h2
      exact .short rfl h
    · subst h3
      exact .short rfl h
    · subst h4
      exact .short rfl h
    · subst h5
      exact .short rfl h
    · have hsmall : (CodePoint.scalar c).toNat < 0x10000 := by
        simp only [CodePoint.toNat]
        omega
      rw [codeUnits, if_pos hsmall]
      exact .plain hplain.1 (fun hc ↦ hmark (.inl hc)) (fun hc ↦ hmark (.inr hc)) h
    · rw [codeUnits, if_pos (by exact hsmall)]
      exact h.unitEscape hsmall
    · rw [codeUnits, if_neg (by exact hsmall), List.append_assoc]
      simp only [CodePoint.toNat]
      exact (h.unitEscape (by omega)).unitEscape (by omega)

end StringBody

theorem stringBody_flatMap (t : Text) :
    StringBody (t.flatMap codeUnits) (t.flatMap escapedPoint) := by
  induction t with
  | nil => exact .nil
  | cons p t ih => exact ih.escapedPoint p

theorem ofNat_toNat (c : Char) : CodePoint.ofNat c.toNat = .scalar c := by
  have hvalid : c.toNat < 0xd800 ∨ 0xdfff < c.toNat ∧ c.toNat < 0x110000 := c.valid
  rw [CodePoint.ofNat, dif_neg (by omega), Char.ofNat_toNat]

theorem joined_flatMap {t : Text} (h : t.Plain) : Joined (t.flatMap codeUnits) t := by
  induction t with
  | nil => exact .nil
  | cons p t ih =>
    obtain ⟨⟨c, rfl⟩, ht⟩ := List.forall_mem_cons.1 h
    have hjoin := ih ht
    have hvalid : c.toNat < 0xd800 ∨ 0xdfff < c.toNat ∧ c.toNat < 0x110000 := c.valid
    by_cases hsmall : c.toNat < 0x10000
    · -- a character is no surrogate, so it awaits no other half
      have hhigh : isHighSurrogate c.toNat ≠ true := by
        simp only [isHighSurrogate, ne_eq, Bool.and_eq_true, decide_eq_true_eq]
        omega
      have hstep := Joined.single (fun h ↦ absurd h hhigh) hjoin
      rw [ofNat_toNat] at hstep
      simpa [codeUnits, CodePoint.toNat, hsmall] using hstep
    · let high := 0xd800 + (c.toNat - 0x10000) / 0x400
      let low := 0xdc00 + (c.toNat - 0x10000) % 0x400
      have hhigh : isHighSurrogate high = true := by
        simp only [isHighSurrogate, Bool.and_eq_true, decide_eq_true_eq, high]
        omega
      have hlow : isLowSurrogate low = true := by
        simp only [isLowSurrogate, Bool.and_eq_true, decide_eq_true_eq, low]
        omega
      have hpoint : pairPoint high low = .scalar c := by
        have hsum : 0x10000 + (high - 0xd800) * 0x400 + (low - 0xdc00) = c.toNat := by omega
        rw [pairPoint, hsum, ofNat_toNat]
      have hstep := Joined.pair hhigh hlow hjoin
      rw [hpoint] at hstep
      simpa [codeUnits, CodePoint.toNat, hsmall] using hstep

theorem stringText_stringLiteral {t : Text} (h : t.Plain) : StringText t (stringLiteral t) :=
  .intro (stringBody_flatMap t) (joined_flatMap h)

theorem spells_write_object {ms : List (Text × Json)}
    (h : ∀ m ∈ ms, m.1.Plain ∧ Spells (.value m.2) (write m.2)) :
    Spells (.value (.object ms)) (write (.object ms)) := by
  have hblank : ∀ c ∈ [' '], isBlank c = true := by simp [isBlank]
  have hmember {m : Text × Json} (hm : m.1.Plain ∧ Spells (.value m.2) (write m.2)) :
      Spells (.member m.1 m.2) (stringLiteral m.1 ++ (':' :: ' ' :: write m.2)) := by
    have helement := Spells.element hblank hm.2 no_blanks
    rw [List.append_nil] at helement
    exact .member no_blanks (stringText_stringLiteral hm.1) no_blanks helement
  have hmembers (hne : ms ≠ []) : Spells (.members ms) (writeMembers ms) := by
    induction ms with
    | nil => exact absurd rfl hne
    | cons m ms ih =>
      obtain ⟨hm, hms⟩ := List.forall_mem_cons.1 h
      obtain rfl | hne := eq_or_ne ms []
      · exact .lastMember (hmember hm)
      · rw [writeMembers_cons hne]
        exact .nextMember (hmember hm) ((ih hms hne).blanks (by simp) hblank)
  rw [write]
  obtain rfl | hne := eq_or_ne ms []
  · exact .emptyObject no_blanks
  · exact .object (hmembers hne)

end Json

end LittleLisp

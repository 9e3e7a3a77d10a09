import LittleLisp.Proofs.Number.Reading
import LittleLisp.Proofs.Reader.Rereading
import LittleLisp.Proofs.Text.Integer

/-!
What a bare token is. Numerals have a grammar, which says nothing of how they are read. Reading takes
each part of a numeral as far as it goes and never goes back; this finds every numeral, since no part
can begin with a character that the part before it could go on with. A number that is an integer, of
whatever size, is printed as its decimal integer and read back.
-/

namespace LittleLisp

namespace Numeral

open Text

/-- The digits of a numeral, with those before the point and those after it. -/
inductive Significand : List Char → List Char → List Char → Prop
  | whole {ds : List Char} (hne : ds ≠ []) (hd : ∀ d ∈ ds, isDecimal d = true) :
    Significand ds ds []
  | point {ds fs : List Char} (hne : ds ≠ []) (hd : ∀ d ∈ ds, isDecimal d = true)
    (hf : ∀ d ∈ fs, isDecimal d = true) : Significand (ds ++ '.' :: fs) ds fs
  | pointFirst {fs : List Char} (hne : fs ≠ []) (hf : ∀ d ∈ fs, isDecimal d = true) :
    Significand ('.' :: fs) [] fs

inductive Exponent : List Char → Int → Prop
  | none : Exponent [] 0
  | mark {c : Char} {sign ds : List Char} {negative : Bool} (hc : c = 'e' ∨ c = 'E')
    (hsign : Signed sign negative) (hne : ds ≠ []) (hd : ∀ d ∈ ds, isDecimal d = true) :
    Exponent (c :: (sign ++ ds)) (if negative then -(decimalNumber ds : Int) else decimalNumber ds)

inductive Spelled : List Char → Numeral → Prop
  | intro {sign digits whole fraction exponent : List Char} {negative : Bool} {e : Int}
    (hsign : Signed sign negative) (hdigits : Significand digits whole fraction)
    (hexponent : Exponent exponent e) :
    Spelled (sign ++ (digits ++ exponent)) ⟨negative, whole, fraction, e⟩

theorem ne_sign_of_isDecimal {c : Char} (h : isDecimal c = true) : c ≠ '+' ∧ c ≠ '-' := by
  constructor
  · rintro rfl
    exact absurd h (by decide)
  · rintro rfl
    exact absurd h (by decide)

section

variable {sign digits rest cs whole fraction : List Char} {negative : Bool} {e : ℤ}

theorem takeSign_append (h : Signed sign negative) (hr : ∀ c ∈ rest.head?, c ≠ '+' ∧ c ≠ '-') :
    takeSign (sign ++ rest) = (negative, rest) := by
  cases h with
  | plus => rfl
  | minus => rfl
  | none =>
    rw [List.nil_append]
    unfold takeSign
    split
    case h_1 => exact absurd rfl (hr _ rfl).1
    case h_2 => exact absurd rfl (hr _ rfl).2
    case h_3 => rfl

theorem signed_takeSign (cs : List Char) :
    ∃ sign, Signed sign (takeSign cs).1 ∧ sign ++ (takeSign cs).2 = cs := by
  unfold takeSign
  split
  case h_1 => exact ⟨_, .plus, rfl⟩
  case h_2 => exact ⟨_, .minus, rfl⟩
  case h_3 => exact ⟨_, .none, rfl⟩

theorem exponent?_eq_some_iff : exponent? cs = some e ↔ Exponent cs e := by
  constructor
  · intro h
    cases cs with
    | nil =>
      cases h
      exact .none
    | cons c cs =>
      obtain ⟨sign, hsign, hcs⟩ := signed_takeSign cs
      simp only [exponent?] at h
      split at h
      case isFalse => cases h
      case isTrue hc =>
        split at h
        case isFalse => cases h
        case isTrue hds =>
          cases h
          have hmark := Exponent.mark hc hsign hds.1 (List.all_eq_true.1 hds.2)
          rwa [hcs] at hmark
  · intro h
    cases h with
    | none => rfl
    | @mark c sign ds negative hc hsign hne hd =>
      have htake : takeSign (sign ++ ds) = (negative, ds) :=
        takeSign_append hsign fun d hmem ↦ ne_sign_of_isDecimal (hd d (List.mem_of_mem_head? hmem))
      simp [exponent?, hc, htake, hne, List.all_eq_true.2 hd]

theorem Exponent.head? (h : Exponent cs e) : ∀ c ∈ cs.head?, isDecimal c = false ∧ c ≠ '.' := by
  cases h with
  | none => simp
  | mark hc =>
    rintro c ⟨⟩
    obtain rfl | rfl := hc <;> decide

theorem Significand.head? (h : Significand digits whole fraction) :
    ∀ c ∈ (digits ++ rest).head?, c ≠ '+' ∧ c ≠ '-' := by
  have hdigit {ds : List Char} (hne : ds ≠ []) (hd : ∀ d ∈ ds, isDecimal d = true)
      (tail : List Char) : ∀ c ∈ (ds ++ tail).head?, c ≠ '+' ∧ c ≠ '-' := by
    obtain ⟨d, ds, rfl⟩ := List.exists_cons_of_ne_nil hne
    rintro c ⟨⟩
    exact ne_sign_of_isDecimal (hd d List.mem_cons_self)
  cases h with
  | whole hne hd => exact hdigit hne hd rest
  | point hne hd =>
    rw [List.append_assoc]
    exact hdigit hne hd _
  | pointFirst => simp

theorem takeDigits_append (h : Significand digits whole fraction)
    (hr : ∀ c ∈ rest.head?, isDecimal c = false ∧ c ≠ '.') :
    takeDigits (digits ++ rest) = some (whole, fraction, rest) := by
  have hdec : ∀ c ∈ rest.head?, isDecimal c = false := fun c hc ↦ (hr c hc).1
  cases h with
  | whole hne hd => exact takeDigits_whole hd hdec hne fun hc ↦ (hr _ hc).2 rfl
  | point hne hd hf =>
    rw [List.append_assoc]
    exact takeDigits_point hd hdec hf (hne ·.1)
  | pointFirst hne hf =>
    have hnone : ∀ d ∈ ([] : List Char), isDecimal d = true := by simp
    exact takeDigits_point hnone hdec hf (hne ·.2)

theorem significand_of_takeDigits (h : takeDigits cs = some (whole, fraction, rest)) :
    ∃ digits, Significand digits whole fraction ∧ cs = digits ++ rest := by
  have hcs : cs.takeWhile isDecimal ++ cs.dropWhile isDecimal = cs :=
    List.takeWhile_append_dropWhile
  have hd : ∀ d ∈ cs.takeWhile isDecimal, isDecimal d = true := fun d ↦ List.mem_takeWhile_imp
  simp only [takeDigits] at h
  split at h
  case h_1 tail htail =>
    have hf : ∀ d ∈ tail.takeWhile isDecimal, isDecimal d = true :=
      fun d ↦ List.mem_takeWhile_imp
    have htail' : tail.takeWhile isDecimal ++ tail.dropWhile isDecimal = tail :=
      List.takeWhile_append_dropWhile
    rw [htail, ← htail'] at hcs
    split at h
    case isTrue => cases h
    case isFalse hne =>
      cases h
      by_cases hw : cs.takeWhile isDecimal = []
      · rw [hw] at hcs ⊢
        exact ⟨_, .pointFirst (fun hnil ↦ hne ⟨hw, hnil⟩) hf, hcs.symm⟩
      · refine ⟨_, .point hw hd hf, ?_⟩
        rw [List.append_assoc]
        exact hcs.symm
  case h_2 =>
    split at h
    case isTrue => cases h
    case isFalse hne =>
      cases h
      exact ⟨_, .whole hne hd, hcs.symm⟩

theorem ofChars?_eq_some_iff {n : Numeral} : ofChars? cs = some n ↔ Spelled cs n := by
  constructor
  · intro h
    simp only [ofChars?, Option.bind_eq_bind, Option.bind_eq_some_iff] at h
    obtain ⟨⟨whole, fraction, tail⟩, hdigits, e, hexponent, hn⟩ := h
    cases hn
    obtain ⟨sign, hsign, hcs⟩ := signed_takeSign cs
    obtain ⟨digits, hdigits, hrest⟩ := significand_of_takeDigits hdigits
    have hspelled := Spelled.intro hsign hdigits (exponent?_eq_some_iff.1 hexponent)
    rwa [← hrest, hcs] at hspelled
  · rintro ⟨hsign, hdigits, hexponent⟩
    -- A significand begins with no sign, and an exponent with neither a digit nor a point.
    exact ofChars?_of_parts (takeSign_append hsign hdigits.head?)
      (takeDigits_append hdigits hexponent.head?) (exponent?_eq_some_iff.2 hexponent)

end

end Numeral

namespace Text

theorem chars?_eq_some_iff {t : Text} {cs : List Char} : t.chars? = some cs ↔ t = .ofChars cs := by
  constructor
  · intro h
    induction t generalizing cs with
    | nil =>
      cases h
      rfl
    | cons p t ih =>
      simp only [chars?, List.mapM_cons, Option.bind_eq_bind, Option.bind_eq_some_iff] at h
      obtain ⟨c, hc, cs', hcs, heq⟩ := h
      cases heq
      cases p with
      | surrogate => cases hc
      | scalar =>
        cases hc
        rw [ih hcs]
        rfl
  · rintro rfl
    exact Datum.chars?_ofChars cs

end Text

namespace Decimal

theorem head?_digitChars {n : ℕ} (h : (digitChars n).head? = some '0') : digitChars n = ['0'] := by
  induction n using Nat.strong_induction_on with
  | _ n ih =>
    by_cases hn : n < 10
    · rw [digitChars, Nat.toDigits_of_lt_base hn] at h ⊢
      exact congrArg (fun c ↦ [c]) (Option.some.inj h)
    · have hne : digitChars (n / 10) ≠ [] := Nat.toDigits_ne_nil
      have hsplit : digitChars n = digitChars (n / 10) ++ [(n % 10).digitChar] :=
        Nat.toDigits_of_base_le (by norm_num) (not_lt.1 hn)
      rw [hsplit, List.head?_append_of_ne_nil _ hne] at h
      have htenth : n / 10 = 0 := by
        rw [← decimalNumber_digitChars (n / 10), ih (n / 10) (by omega) h]
        rfl
      omega

end Decimal

namespace Binary64

def toRat? : Binary64 → Option ℚ
  | .finite negative x => some (if negative then -x.toRat else x.toRat)
  | _ => none

theorem integer?_eq_some_iff {x : Binary64} {z : ℤ} :
    x.integer? = some z ↔ x.toRat? = some (z : ℚ) := by
  cases x with
  | nan | infinite => simp [integer?, toRat?]
  | finite negative x =>
    have hpos : (x.denominator : ℚ) ≠ 0 := by exact_mod_cast x.denominator_pos.ne'
    simp only [integer?, toRat?, Option.some.injEq, ← x.numerator_div_denominator]
    split
    case isTrue h =>
      have hval : (x.numerator : ℚ) / x.denominator = (x.numerator / x.denominator : ℕ) := by
        rw [div_eq_iff hpos]
        exact_mod_cast (Nat.div_mul_cancel (Nat.dvd_of_mod_eq_zero h)).symm
      have hcast (q : ℕ) : (if negative then -(q : ℚ) else q) =
          ((if negative then -(q : ℤ) else q : ℤ) : ℚ) := by
        split <;> simp
      rw [hval, hcast, Option.some.injEq, Int.cast_inj]
    case isFalse h =>
      refine iff_of_false (by simp) fun heq ↦ h (Nat.mod_eq_zero_of_dvd ?_)
      have hz : ((x.numerator : ℤ) : ℚ) / (x.denominator : ℤ) =
          ((if negative then -z else z : ℤ) : ℚ) := by
        cases negative with
        | true => simpa [neg_eq_iff_eq_neg] using heq
        | false => simpa using heq
      rw [div_eq_iff (by exact_mod_cast hpos)] at hz
      exact Int.natCast_dvd_natCast.1 ⟨_, by rw [mul_comm]; exact_mod_cast hz⟩

theorem toRat?_eq_of_equal {x y : Binary64} (h : x.equal y = true) : x.toRat? = y.toRat? := by
  cases x with
  | nan => cases h
  | infinite a =>
    cases y with
    | infinite b => rfl
    | nan | finite => cases h
  | finite a x =>
    cases y with
    | nan | infinite => cases h
    | finite b y =>
      simp only [equal, Bool.or_eq_true, Bool.and_eq_true, beq_iff_eq, decide_eq_true_eq] at h
      rcases h with ⟨hx, hy⟩ | ⟨rfl, rfl⟩
      · simp [toRat?, Magnitude.toRat, hx, hy]
      · rfl

theorem print_of_integer? {x : Binary64} {z : ℤ} (h : x.integer? = some z) :
    x.print = signChars (z < 0) ++ Decimal.digitChars z.natAbs := by
  simp only [print, h, intChars]

end Binary64

namespace Datum

open Text Numeral

variable {token : Text}

theorem numeral_eq_some_iff {n : Numeral} :
    token.chars?.bind Numeral.ofChars? = some n ↔ ∃ cs, token = .ofChars cs ∧ Spelled cs n := by
  simp only [Option.bind_eq_some_iff, chars?_eq_some_iff, Numeral.ofChars?_eq_some_iff]

theorem numeral_eq_none_iff :
    token.chars?.bind Numeral.ofChars? = none ↔ ∀ cs n, token = .ofChars cs → ¬ Spelled cs n := by
  simp only [Option.eq_none_iff_forall_ne_some, ne_eq, numeral_eq_some_iff, not_exists, not_and]
  exact forall_comm

theorem ofSymbol_eq_number_iff {v : Binary64} :
    ofSymbol token = .number v ↔ ∃ cs n, token = .ofChars cs ∧ Spelled cs n ∧ v = n.value := by
  constructor
  · intro h
    unfold ofSymbol at h
    split at h
    case h_1 n hn =>
      cases h
      obtain ⟨cs, htoken, hcs⟩ := numeral_eq_some_iff.1 hn
      exact ⟨cs, n, htoken, hcs, rfl⟩
    case h_2 => split_ifs at h
  · rintro ⟨cs, n, rfl, hcs, rfl⟩
    exact ofSymbol_numeral (Numeral.ofChars?_eq_some_iff.2 hcs)

theorem ofSymbol_eq_bool_iff {flag : Bool} :
    ofSymbol token = .bool flag ↔ token = if flag then "#t" else "#f" := by
  constructor
  · intro h
    unfold ofSymbol at h
    split at h
    case h_1 => cases h
    case h_2 =>
      split_ifs at h with htrue hfalse
      · cases h
        exact htrue
      · cases h
        exact hfalse
  · rintro rfl
    cases flag with
    | true => rfl
    | false => rfl

theorem ofSymbol_eq_atom_iff {name : Text} :
    ofSymbol token = .atom name ↔ name = token ∧ (∀ cs n, token = .ofChars cs → ¬ Spelled cs n) ∧
      token ≠ "#t" ∧ token ≠ "#f" := by
  rw [← numeral_eq_none_iff]
  constructor
  · intro h
    unfold ofSymbol at h
    split at h
    case h_1 => cases h
    case h_2 hnone =>
      split_ifs at h with htrue hfalse
      cases h
      exact ⟨rfl, hnone, htrue, hfalse⟩
  · rintro ⟨rfl, hnone, htrue, hfalse⟩
    simp only [ofSymbol, hnone, htrue, hfalse, if_false]

/-- What every bare token is, by the grammar of numerals, and what is printed of every number that is
an integer. It is printed in decimal, with a minus sign just if it is negative and without a leading
zero, and this text is again a token for a number of the same value. -/
theorem tokens_follow_grammar :
    (∀ (token : Text) (v : Binary64), ofSymbol token = .number v ↔
      ∃ cs n, token = .ofChars cs ∧ Spelled cs n ∧ v = n.value) ∧
    (∀ (token : Text) (flag : Bool), ofSymbol token = .bool flag ↔
      token = if flag then "#t" else "#f") ∧
    (∀ token name : Text, ofSymbol token = .atom name ↔ name = token ∧
      (∀ cs n, token = .ofChars cs → ¬ Spelled cs n) ∧ token ≠ "#t" ∧ token ≠ "#f") ∧
    ∀ (x : Binary64) (z : ℤ), x.toRat? = some (z : ℚ) →
      (∃ ds, x.print = Binary64.signChars (z < 0) ++ ds ∧ ds ≠ [] ∧
        (∀ d ∈ ds, d.isDigit = true) ∧ (ds.head? = some '0' → ds = ['0']) ∧
        decimalNumber ds = z.natAbs) ∧
      ∃ y, ofSymbol (.ofChars x.print) = .number y ∧ y.equal x = true ∧
        y.toRat? = some (z : ℚ) := by
  refine ⟨fun _ _ ↦ ofSymbol_eq_number_iff, fun _ _ ↦ ofSymbol_eq_bool_iff,
    fun _ _ ↦ ofSymbol_eq_atom_iff, fun x z hz ↦ ⟨?_, ?_⟩⟩
  · refine ⟨Decimal.digitChars z.natAbs, ?_, Nat.toDigits_ne_nil,
      fun d ↦ Decimal.isDigit_of_mem_digitChars, Decimal.head?_digitChars,
      Decimal.decimalNumber_digitChars _⟩
    exact Binary64.print_of_integer? (Binary64.integer?_eq_some_iff.2 hz)
  · cases x with
    | nan | infinite => cases hz
    | finite negative x =>
      obtain ⟨n, hn, heq⟩ := Binary64.ofChars?_print negative x
      refine ⟨n.value, ofSymbol_numeral hn, heq, ?_⟩
      rw [Binary64.toRat?_eq_of_equal heq, hz]

def negativePower : Binary64 := .finite true ⟨2 ^ 52, 48, by decide⟩

theorem tokens_follow_grammar_negativePower :
    negativePower.toRat? = some ((-2 ^ 100 : ℤ) : ℚ) ∧
      (∃ ds, negativePower.print = '-' :: ds ∧ decimalNumber ds = 2 ^ 100) ∧
      (∃ y, ofSymbol (.ofChars negativePower.print) = .number y ∧
        y.equal negativePower = true) ∧
      ofSymbol "-٣.e+١" = .number (Numeral.value ⟨true, ['٣'], [], 1⟩) ∧
      ofSymbol "+.e1" = .atom "+.e1" := by
  obtain ⟨hnumber, -, hatom, hinteger⟩ := tokens_follow_grammar
  have hz : negativePower.toRat? = some ((-2 ^ 100 : ℤ) : ℚ) := by
    simp only [negativePower, Binary64.toRat?, Magnitude.toRat, if_true, Option.some.injEq]
    norm_num
  obtain ⟨⟨ds, hprint, -, -, -, hds⟩, y, hy, heq, -⟩ := hinteger _ _ hz
  refine ⟨hz, ⟨ds, hprint, hds⟩, ⟨y, hy, heq⟩, (hnumber _ _).2 ?_, (hatom _ _).2 ?_⟩
  · exact ⟨_, _, rfl, Numeral.ofChars?_eq_some_iff.1 rfl, rfl⟩
  · exact ⟨rfl, numeral_eq_none_iff.1 rfl, by decide, by decide⟩

end Datum

end LittleLisp

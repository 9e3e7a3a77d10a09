import LittleLisp.Text.Utf8
import Mathlib.Data.List.Basic

/-!
Decoding inverts encoding: bytes are decoded to a text if and only if they are the encoding of that
text, character by character. In between stands the table of the byte sequences that are well
formed: what the decoder accepts as a character, and what characters are encoded to.
-/

namespace LittleLisp.Text.Utf8

def encode (cs : List Char) : List UInt8 := cs.flatMap String.utf8EncodeChar

def IsTail (b : UInt8) : Prop := 0x80 ≤ b.toNat ∧ b.toNat ≤ 0xbf

/-- The well-formed byte sequences, and the code points that they stand for. -/
inductive Sequence : List UInt8 → Nat → Prop
  | one {a : UInt8} (first : a.toNat < 0x80) : Sequence [a] a.toNat
  | two {a b : UInt8} (first : 0xc2 ≤ a.toNat ∧ a.toNat < 0xe0) (last : IsTail b) :
      Sequence [a, b] ((a.toNat - 0xc0) * 64 + (b.toNat - 0x80))
  | three {a b c : UInt8} (first : 0xe0 ≤ a.toNat ∧ a.toNat < 0xf0)
      (low : (if a.toNat = 0xe0 then 0xa0 else 0x80) ≤ b.toNat)
      (high : b.toNat ≤ if a.toNat = 0xed then 0x9f else 0xbf) (last : IsTail c) :
      Sequence [a, b, c] (((a.toNat - 0xe0) * 64 + (b.toNat - 0x80)) * 64 + (c.toNat - 0x80))
  | four {a b c d : UInt8} (first : 0xf0 ≤ a.toNat ∧ a.toNat < 0xf5)
      (low : (if a.toNat = 0xf0 then 0x90 else 0x80) ≤ b.toNat)
      (high : b.toNat ≤ if a.toNat = 0xf4 then 0x8f else 0xbf) (third : IsTail c)
      (last : IsTail d) :
      Sequence [a, b, c, d]
        ((((a.toNat - 0xf0) * 64 + (b.toNat - 0x80)) * 64 + (c.toNat - 0x80)) * 64 +
          (d.toNat - 0x80))

theorem toNat_ofNat {n : Nat} (h : n.isValidChar) : (Char.ofNat n).toNat = n := by
  rw [Char.ofNat, dif_pos h]
  rfl

section Encoding

theorem toNat_byte {n : Nat} (h : n < 256) : (UInt8.ofNat n).toNat = n :=
  UInt8.toNat_ofNat_of_lt' h

theorem byte_eq {n : Nat} {b : UInt8} (h : n = b.toNat) : UInt8.ofNat n = b := by
  rw [h, UInt8.ofNat_toNat]

theorem sequence_utf8EncodeChar (c : Char) : Sequence (String.utf8EncodeChar c) c.toNat := by
  have hvalid : c.toNat < 0xd800 ∨ 0xdfff < c.toNat ∧ c.toNat < 0x110000 := c.valid
  simp only [String.utf8EncodeChar, Char.toNat_val]
  generalize c.toNat = v at hvalid
  split_ifs with h₁ h₂ h₃
  · have ha : (UInt8.ofNat v).toNat = v := toNat_byte (by omega)
    have h := Sequence.one (a := .ofNat v) (by omega)
    rwa [ha] at h
  · have ha : (UInt8.ofNat (v / 64 % 32 + 192)).toNat = v / 64 % 32 + 192 := toNat_byte (by omega)
    have hb : (UInt8.ofNat (v % 64 + 128)).toNat = v % 64 + 128 := toNat_byte (by omega)
    have h := Sequence.two (a := .ofNat (v / 64 % 32 + 192)) (b := .ofNat (v % 64 + 128))
      (by omega) (by unfold IsTail; omega)
    have hv : (v / 64 % 32 + 192 - 0xc0) * 64 + (v % 64 + 128 - 0x80) = v := by omega
    rwa [ha, hb, hv] at h
  · have ha : (UInt8.ofNat (v / 4096 % 16 + 224)).toNat = v / 4096 % 16 + 224 :=
      toNat_byte (by omega)
    have hb : (UInt8.ofNat (v / 64 % 64 + 128)).toNat = v / 64 % 64 + 128 := toNat_byte (by omega)
    have hc : (UInt8.ofNat (v % 64 + 128)).toNat = v % 64 + 128 := toNat_byte (by omega)
    have h := Sequence.three (a := .ofNat (v / 4096 % 16 + 224)) (b := .ofNat (v / 64 % 64 + 128))
      (c := .ofNat (v % 64 + 128)) (by omega) (by split_ifs <;> omega) (by split_ifs <;> omega)
      (by unfold IsTail; omega)
    have hv : ((v / 4096 % 16 + 224 - 0xe0) * 64 + (v / 64 % 64 + 128 - 0x80)) * 64 +
        (v % 64 + 128 - 0x80) = v := by omega
    rwa [ha, hb, hc, hv] at h
  · have ha : (UInt8.ofNat (v / 262144 % 8 + 240)).toNat = v / 262144 % 8 + 240 :=
      toNat_byte (by omega)
    have hb : (UInt8.ofNat (v / 4096 % 64 + 128)).toNat = v / 4096 % 64 + 128 :=
      toNat_byte (by omega)
    have hc : (UInt8.ofNat (v / 64 % 64 + 128)).toNat = v / 64 % 64 + 128 := toNat_byte (by omega)
    have hd : (UInt8.ofNat (v % 64 + 128)).toNat = v % 64 + 128 := toNat_byte (by omega)
    have h := Sequence.four (a := .ofNat (v / 262144 % 8 + 240))
      (b := .ofNat (v / 4096 % 64 + 128)) (c := .ofNat (v / 64 % 64 + 128))
      (d := .ofNat (v % 64 + 128)) (by omega) (by split_ifs <;> omega) (by split_ifs <;> omega)
      (by unfold IsTail; omega) (by unfold IsTail; omega)
    have hv : (((v / 262144 % 8 + 240 - 0xf0) * 64 + (v / 4096 % 64 + 128 - 0x80)) * 64 +
        (v / 64 % 64 + 128 - 0x80)) * 64 + (v % 64 + 128 - 0x80) = v := by omega
    rwa [ha, hb, hc, hd, hv] at h

theorem Sequence.encoding {bs : List UInt8} {v : Nat} (h : Sequence bs v) :
    String.utf8EncodeChar (Char.ofNat v) = bs := by
  cases h with
  | @one a first =>
    have hval : (Char.ofNat a.toNat).val.toNat = a.toNat := toNat_ofNat (.inl (by omega))
    simp only [String.utf8EncodeChar, hval]
    rw [if_pos (by omega), UInt8.ofNat_toNat]
  | @two a b first last =>
    obtain ⟨hb, hb'⟩ := last
    generalize hv : (a.toNat - 0xc0) * 64 + (b.toNat - 0x80) = v
    have hval : (Char.ofNat v).val.toNat = v := toNat_ofNat (.inl (by omega))
    simp only [String.utf8EncodeChar, hval]
    rw [if_neg (by omega), if_pos (by omega), byte_eq (b := a) (by omega),
      byte_eq (b := b) (by omega)]
  | @three a b c first low high last =>
    obtain ⟨hc, hc'⟩ := last
    have hb : 0x80 ≤ b.toNat ∧ b.toNat ≤ 0xbf ∧ (a.toNat = 0xe0 → 0xa0 ≤ b.toNat) ∧
        (a.toNat = 0xed → b.toNat ≤ 0x9f) := by
      split_ifs at low high <;> omega
    generalize hv : ((a.toNat - 0xe0) * 64 + (b.toNat - 0x80)) * 64 + (c.toNat - 0x80) = v
    have hvalid : v.isValidChar := by unfold Nat.isValidChar; omega
    have hval : (Char.ofNat v).val.toNat = v := toNat_ofNat hvalid
    simp only [String.utf8EncodeChar, hval]
    rw [if_neg (by omega), if_neg (by omega), if_pos (by omega), byte_eq (b := a) (by omega),
      byte_eq (b := b) (by omega), byte_eq (b := c) (by omega)]
  | @four a b c d first low high third last =>
    obtain ⟨hc, hc'⟩ := third
    obtain ⟨hd, hd'⟩ := last
    have hb : 0x80 ≤ b.toNat ∧ b.toNat ≤ 0xbf ∧ (a.toNat = 0xf0 → 0x90 ≤ b.toNat) ∧
        (a.toNat = 0xf4 → b.toNat ≤ 0x8f) := by
      split_ifs at low high <;> omega
    generalize hv : (((a.toNat - 0xf0) * 64 + (b.toNat - 0x80)) * 64 + (c.toNat - 0x80)) * 64 +
      (d.toNat - 0x80) = v
    have hvalid : v.isValidChar := by unfold Nat.isValidChar; omega
    have hval : (Char.ofNat v).val.toNat = v := toNat_ofNat hvalid
    simp only [String.utf8EncodeChar, hval]
    rw [if_neg (by omega), if_neg (by omega), if_neg (by omega), byte_eq (b := a) (by omega),
      byte_eq (b := b) (by omega), byte_eq (b := c) (by omega), byte_eq (b := d) (by omega)]

end Encoding

section Decoding

variable {position b : Nat} {byte : UInt8} {bytes : List UInt8} {p : Pending} {cs : List Char}

theorem begin?_two (h : 0xc2 ≤ b ∧ b < 0xe0) :
    begin? position b = some ⟨position, b, 1, 1, 0x80, 0xbf, b - 0xc0⟩ := by
  have h₁ : ¬ b < 0xc2 := by omega
  simp only [begin?, if_neg h₁, if_pos h.2]

theorem begin?_three (h : 0xe0 ≤ b ∧ b < 0xf0) :
    begin? position b = some ⟨position, b, 1, 2, if b = 0xe0 then 0xa0 else 0x80,
      if b = 0xed then 0x9f else 0xbf, b - 0xe0⟩ := by
  have h₁ : ¬ b < 0xc2 := by omega
  have h₂ : ¬ b < 0xe0 := by omega
  simp only [begin?, if_neg h₁, if_neg h₂, if_pos h.2]

theorem begin?_four (h : 0xf0 ≤ b ∧ b < 0xf5) :
    begin? position b = some ⟨position, b, 1, 3, if b = 0xf0 then 0x90 else 0x80,
      if b = 0xf4 then 0x8f else 0xbf, b - 0xf0⟩ := by
  have h₁ : ¬ b < 0xc2 := by omega
  have h₂ : ¬ b < 0xe0 := by omega
  have h₃ : ¬ b < 0xf0 := by omega
  simp only [begin?, if_neg h₁, if_neg h₂, if_neg h₃, if_pos h.2]

theorem begin?_none (h : b < 0xc2 ∨ 0xf5 ≤ b) : begin? position b = none := by
  unfold begin?
  dsimp only
  split_ifs with h₁ h₂ h₃ h₄
  · rfl
  · omega
  · omega
  · omega
  · rfl

theorem decodeFrom_first (h : byte.toNat < 0x80) :
    decodeFrom position none (byte :: bytes) =
      (Char.ofNat byte.toNat :: ·) <$> decodeFrom (position + 1) none bytes := by
  simp only [decodeFrom, if_pos h]

theorem decodeFrom_begin (h : 0x80 ≤ byte.toNat) (hp : begin? position byte.toNat = some p) :
    decodeFrom position none (byte :: bytes) = decodeFrom (position + 1) (some p) bytes := by
  simp only [decodeFrom, if_neg (Nat.not_lt.2 h), hp]

theorem decodeFrom_next (h : p.low ≤ byte.toNat ∧ byte.toNat ≤ p.high) (ho : p.owed ≠ 1) :
    decodeFrom position (some p) (byte :: bytes) =
      decodeFrom (position + 1) (some { p with
        read := p.read + 1, owed := p.owed - 1, low := 0x80, high := 0xbf,
        value := p.value * 64 + (byte.toNat - 0x80) }) bytes := by
  have h' : ¬ (byte.toNat < p.low ∨ p.high < byte.toNat) := by omega
  simp only [decodeFrom, if_neg h', if_neg ho]

theorem decodeFrom_last (h : p.low ≤ byte.toNat ∧ byte.toNat ≤ p.high) (ho : p.owed = 1) :
    decodeFrom position (some p) (byte :: bytes) =
      (Char.ofNat (p.value * 64 + (byte.toNat - 0x80)) :: ·) <$>
        decodeFrom (position + 1) none bytes := by
  have h' : ¬ (byte.toNat < p.low ∨ p.high < byte.toNat) := by omega
  simp only [decodeFrom, if_neg h', if_pos ho]

theorem bounds_of_decodeFrom (h : decodeFrom position (some p) bytes = .ok cs) :
    ∃ byte rest, bytes = byte :: rest ∧ p.low ≤ byte.toNat ∧ byte.toNat ≤ p.high := by
  cases bytes with
  | nil => cases h
  | cons byte rest =>
    refine ⟨byte, rest, rfl, ?_⟩
    by_contra hout
    have hout : byte.toNat < p.low ∨ p.high < byte.toNat := by omega
    simp only [decodeFrom, if_pos hout] at h
    cases h

theorem Sequence.decodeFrom {bs : List UInt8} {v : Nat} (h : Sequence bs v) (position : Nat)
    (bytes : List UInt8) : Utf8.decodeFrom position none (bs ++ bytes) =
      (Char.ofNat v :: ·) <$> Utf8.decodeFrom (position + bs.length) none bytes := by
  cases h with
  | one first => exact decodeFrom_first first
  | two first last =>
    exact (decodeFrom_begin (by omega) (begin?_two first)).trans (decodeFrom_last last rfl)
  | three first low high last =>
    refine (decodeFrom_begin (by omega) (begin?_three first)).trans ?_
    refine (decodeFrom_next ⟨low, high⟩ (Nat.succ_ne_self 1)).trans ?_
    exact decodeFrom_last last rfl
  | four first low high third last =>
    have htwo : ∀ n : Nat, n + 2 ≠ 1 := by omega
    refine (decodeFrom_begin (by omega) (begin?_four first)).trans ?_
    refine (decodeFrom_next ⟨low, high⟩ (htwo 1)).trans ?_
    refine Eq.trans (decodeFrom_next third (htwo 0)) ?_
    exact decodeFrom_last last rfl

theorem exists_sequence (h : decodeFrom position none (byte :: bytes) = .ok cs) :
    ∃ bs rest v, byte :: bytes = bs ++ rest ∧ Sequence bs v := by
  by_cases h₁ : byte.toNat < 0x80
  · exact ⟨[byte], bytes, _, rfl, .one h₁⟩
  · have hbegin : ∀ p, begin? position byte.toNat = some p →
        decodeFrom (position + 1) (some p) bytes = .ok cs := by
      intro p hp
      rwa [decodeFrom_begin (by omega) hp] at h
    by_cases h₂ : byte.toNat < 0xc2 ∨ 0xf5 ≤ byte.toNat
    · simp only [Utf8.decodeFrom, if_neg h₁, begin?_none h₂] at h
      cases h
    · by_cases h₃ : byte.toNat < 0xe0
      · have hfirst : 0xc2 ≤ byte.toNat ∧ byte.toNat < 0xe0 := by omega
        obtain ⟨b, rest, rfl, hb⟩ := bounds_of_decodeFrom (hbegin _ (begin?_two hfirst))
        exact ⟨[byte, b], rest, _, rfl, .two hfirst hb⟩
      · by_cases h₄ : byte.toNat < 0xf0
        · have hfirst : 0xe0 ≤ byte.toNat ∧ byte.toNat < 0xf0 := by omega
          have hpending := hbegin _ (begin?_three hfirst)
          obtain ⟨b, rest, rfl, hb⟩ := bounds_of_decodeFrom hpending
          rw [decodeFrom_next hb (Nat.succ_ne_self 1)] at hpending
          obtain ⟨c, rest, rfl, hc⟩ := bounds_of_decodeFrom hpending
          exact ⟨[byte, b, c], rest, _, rfl, .three hfirst hb.1 hb.2 hc⟩
        · have hfirst : 0xf0 ≤ byte.toNat ∧ byte.toNat < 0xf5 := by omega
          have htwo : ∀ n : Nat, n + 2 ≠ 1 := by omega
          have hpending := hbegin _ (begin?_four hfirst)
          obtain ⟨b, rest, rfl, hb⟩ := bounds_of_decodeFrom hpending
          rw [decodeFrom_next hb (htwo 1)] at hpending
          obtain ⟨c, rest, rfl, hc⟩ := bounds_of_decodeFrom hpending
          rw [decodeFrom_next hc (htwo 0)] at hpending
          obtain ⟨d, rest, rfl, hd⟩ := bounds_of_decodeFrom hpending
          exact ⟨[byte, b, c, d], rest, _, rfl, .four hfirst hb.1 hb.2 hc hd⟩

end Decoding

theorem decodeFrom_encode (cs : List Char) (position : Nat) :
    decodeFrom position none (encode cs) = .ok cs := by
  induction cs generalizing position with
  | nil => rfl
  | cons c cs ih =>
    have hcons : encode (c :: cs) = String.utf8EncodeChar c ++ encode cs := rfl
    rw [hcons, (sequence_utf8EncodeChar c).decodeFrom, ih, Char.ofNat_toNat]
    rfl

theorem encode_of_decodeFrom {bytes : List UInt8} {position : Nat} {cs : List Char}
    (h : decodeFrom position none bytes = .ok cs) : bytes = encode cs := by
  induction cs generalizing bytes position with
  | nil =>
    cases bytes with
    | nil => rfl
    | cons byte bytes =>
      obtain ⟨bs, rest, v, heq, hseq⟩ := exists_sequence h
      rw [heq, hseq.decodeFrom] at h
      cases hrest : decodeFrom (position + bs.length) none rest <;> rw [hrest] at h <;> cases h
  | cons c cs ih =>
    cases bytes with
    | nil => cases h
    | cons byte bytes =>
      obtain ⟨bs, rest, v, heq, hseq⟩ := exists_sequence h
      rw [heq, hseq.decodeFrom] at h
      cases hrest : decodeFrom (position + bs.length) none rest with
      | error =>
        rw [hrest] at h
        cases h
      | ok cs' =>
        rw [hrest] at h
        cases h
        rw [heq, ih hrest, ← hseq.encoding]
        rfl

/-- The bytes of a text, and only these, are decoded to it. -/
theorem decode_eq_ok_iff {bytes : List UInt8} {cs : List Char} :
    decode bytes = .ok cs ↔ bytes = encode cs := by
  refine ⟨encode_of_decodeFrom, fun h ↦ ?_⟩
  rw [h]
  exact decodeFrom_encode cs 0

theorem encode_injective {cs ds : List Char} (h : encode cs = encode ds) : cs = ds :=
  Except.ok.inj ((decode_eq_ok_iff.2 rfl).symm.trans (decode_eq_ok_iff.2 h))

end LittleLisp.Text.Utf8

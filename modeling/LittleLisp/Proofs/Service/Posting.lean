import LittleLisp.Proofs.Json.Nesting
import LittleLisp.Proofs.Json.Writing
import LittleLisp.Proofs.Text.Utf8
import LittleLisp.Service
import Mathlib.Data.String.Basic

/-!
What a post is answered with. A request submits a program if it announces a length, and the bytes up
to there are an object in JSON whose last member of that name is the program. A request that submits
one gets what becomes of it, any other one a refusal, and nothing is evaluated for it. Requests at
which the host fails get nothing: those that announce more bytes than a read can ask for, and those
whose JSON is nested too deep.
-/

namespace LittleLisp

namespace Json

/-- A member of an object, with none of the same name after it. -/
def LastMember (name : Text) (v : Json) (ms : List (Text × Json)) : Prop :=
  ∃ before after, ms = before ++ (name, v) :: after ∧ ∀ m ∈ after, m.1 ≠ name

theorem lastMember?_eq_some_iff {name : Text} {v : Json} {ms : List (Text × Json)} :
    lastMember? name ms = some v ↔ LastMember name v ms := by
  rw [lastMember?, List.lookup_eq_some_iff]
  constructor
  · intro ⟨after, before, hms, hafter⟩
    refine ⟨before.reverse, after.reverse, ?_, ?_⟩
    · rw [List.reverse_eq_iff.1 hms]
      simp
    · intro m hm
      exact (bne_iff_ne.1 (hafter m (List.mem_reverse.1 hm))).symm
  · intro ⟨before, after, hms, hafter⟩
    refine ⟨after.reverse, before.reverse, by simp [hms], ?_⟩
    intro m hm
    exact bne_iff_ne.2 (hafter m (List.mem_reverse.1 hm)).symm

end Json

namespace Service

open Text Json

/-- The length that a request announces; none counts as zero. -/
def Request.Announces (r : Request) (n : Int) : Prop :=
  match r.header? "Content-Length" with
  | none => n = 0
  | some text => text = "" ∧ n = 0 ∨ IntegerLiteral text.toList n

def Holds (body : List UInt8) (code : Text) : Prop :=
  ∃ text members, body = Utf8.encode text ∧ Spells (.element (.object members)) text ∧
    LastMember "code" (.string code) members

def Request.Submits (r : Request) (code : Text) : Prop :=
  ∃ n : ℕ, r.Announces n ∧ Holds (r.body.take n) code

theorem bodyLength_eq_ok_iff (r : Request) (n : ℕ) :
    r.bodyLength = .ok n ↔ r.Announces n := by
  unfold Request.bodyLength Request.Announces
  cases r.header? "Content-Length" with
  | none =>
    simp only [Except.ok.injEq]
    omega
  | some text =>
    by_cases hempty : text = ""
    · subst hempty
      have hnone : ¬ IntegerLiteral "".toList n := by
        rw [← parseInteger_eq_ok_iff]
        simp [parseInteger, wellGrouped]
      simp only [Except.ok.injEq, true_and, hnone, or_false]
      omega
    · simp only [hempty, false_and, false_or, ← parseInteger_eq_ok_iff]
      cases parseInteger text with
      | error f => simp
      | ok m =>
        by_cases hm : m < 0
        · simp only [hm, if_true, reduceCtorEq, Except.ok.injEq, false_iff]
          omega
        · simp only [hm, if_false, Except.ok.injEq]
          omega

theorem Request.Announces.unique {r : Request} {n m : ℕ} (hn : r.Announces n) (hm : r.Announces m) :
    n = m := by
  rw [← bodyLength_eq_ok_iff] at hn hm
  exact Except.ok.inj (hn.symm.trans hm)

theorem mapError_eq_ok_iff {ε ε' α : Type} {f : ε → ε'} {x : Except ε α} {a : α} :
    x.mapError f = .ok a ↔ x = .ok a := by
  cases x <;> simp [Except.mapError]

theorem mapError_eq_error_iff {ε ε' α : Type} {f : ε → ε'} {x : Except ε α} {e : ε'} :
    x.mapError f = .error e ↔ ∃ e', x = .error e' ∧ f e' = e := by
  cases x <;> simp [Except.mapError]

/-- What the host fails at in a request. -/
inductive Request.Breaks (limits : Limits) (r : Request) : Refusal → Prop
  | overlong {n : ℕ} (hn : r.Announces n) (hlimit : limits.read ≤ n) : r.Breaks limits (.overlong n)
  | overnested {n : ℕ} {text : List Char} (hn : r.Announces n) (hlimit : n < limits.read)
    (htext : r.body.take n = Utf8.encode text) (hdeep : Overnests limits.nesting text) :
    r.Breaks limits (.json text .tooDeep)

section Reading

variable {r : Request} {limits : Limits} {n : ℕ} {text : List Char} {v : Json} {code : Text}
  {refusal : Refusal}

theorem text_of_announces (hn : r.Announces n) :
    r.text limits = if limits.read ≤ n then .error (.overlong n) else
      (Utf8.decode (r.body.take n)).mapError .encoding := by
  simp only [Request.text, (bodyLength_eq_ok_iff r n).2 hn, Bind.bind, Except.bind]
  split_ifs <;> rfl

theorem text_eq_ok_iff :
    r.text limits = .ok text ↔
      ∃ n : ℕ, r.Announces n ∧ n < limits.read ∧ r.body.take n = Utf8.encode text := by
  constructor
  · intro h
    obtain ⟨n, hlength, -⟩ := exists_of_bind_eq_ok h
    have hn := (bodyLength_eq_ok_iff r n).1 hlength
    rw [text_of_announces hn] at h
    split_ifs at h with hlimit
    exact ⟨n, hn, Nat.lt_of_not_le hlimit, Utf8.decode_eq_ok_iff.1 (mapError_eq_ok_iff.1 h)⟩
  · intro ⟨n, hn, hlimit, htext⟩
    rw [text_of_announces hn, if_neg (Nat.not_le_of_lt hlimit), mapError_eq_ok_iff]
    exact Utf8.decode_eq_ok_iff.2 htext

theorem bodyLength_told (h : r.bodyLength = .error refusal) :
    refusal.category ∈ Refusal.Category.told := by
  unfold Request.bodyLength at h
  split at h
  · cases h
  · cases h
  · split at h
    · cases h
      simp [Refusal.category, Refusal.Category.told]
    · split_ifs at h
      cases h
      simp [Refusal.category, Refusal.Category.told]

theorem overlong_of_text (h : r.text limits = .error refusal)
    (hlost : refusal.category ∉ Refusal.Category.told) :
    ∃ n : ℕ, r.Announces n ∧ limits.read ≤ n ∧ refusal = .overlong n := by
  obtain hlength | ⟨n, hlength, -⟩ := eq_or_of_bind_eq_error h
  · exact absurd (bodyLength_told hlength) hlost
  have hn := (bodyLength_eq_ok_iff r n).1 hlength
  rw [text_of_announces hn] at h
  split_ifs at h with hlimit
  · cases h
    exact ⟨n, hn, hlimit, rfl⟩
  · obtain ⟨fault, -, rfl⟩ := mapError_eq_error_iff.1 h
    simp [Refusal.category, Refusal.Category.told] at hlost

theorem submittedCode_eq_ok_iff :
    submittedCode v = .ok code ↔
      ∃ members, v = .object members ∧ LastMember "code" (.string code) members := by
  constructor
  · intro h
    unfold submittedCode at h
    split at h
    case h_1 members =>
      split at h
      case h_1 hmember =>
        cases h
        exact ⟨members, rfl, lastMember?_eq_some_iff.1 hmember⟩
      case h_2 => cases h
      case h_3 => cases h
    case h_2 => cases h
  · rintro ⟨members, rfl, hmember⟩
    simp only [submittedCode, lastMember?_eq_some_iff.2 hmember]

theorem submittedCode_told (h : submittedCode v = .error refusal) :
    refusal.category ∈ Refusal.Category.told := by
  unfold submittedCode at h
  split at h
  · split at h
    · cases h
    · cases h
      simp [Refusal.category, Refusal.Category.told]
    · cases h
      simp [Refusal.category, Refusal.Category.told]
  · cases h
    simp [Refusal.category, Refusal.Category.told]

theorem code_eq_lost_iff :
    r.code limits = .error refusal ∧ refusal.category ∉ Refusal.Category.told ↔
      r.Breaks limits refusal := by
  constructor
  · intro ⟨h, hlost⟩
    obtain htext | ⟨text, htext, hrest⟩ := eq_or_of_bind_eq_error h
    · obtain ⟨n, hn, hlimit, rfl⟩ := overlong_of_text htext hlost
      exact .overlong hn hlimit
    obtain hparse | ⟨v, -, hcode⟩ := eq_or_of_bind_eq_error hrest
    · obtain ⟨n, hn, hlimit, hbytes⟩ := text_eq_ok_iff.1 htext
      obtain ⟨fault, hfault, rfl⟩ := mapError_eq_error_iff.1 hparse
      cases fault with
      | tooDeep => exact .overnested hn hlimit hbytes ((parseWithin_eq_tooDeep_iff _ _).1 hfault)
      | malformed => simp [Refusal.category, Refusal.Category.told] at hlost
      | integer => simp [Refusal.category, Refusal.Category.told] at hlost
    · exact absurd (submittedCode_told hcode) hlost
  · intro h
    cases h with
    | overlong hn hlimit =>
      refine ⟨?_, by simp [Refusal.category, Refusal.Category.told]⟩
      rw [Request.code, text_of_announces hn, if_pos hlimit]
      rfl
    | overnested hn hlimit hbytes hdeep =>
      refine ⟨?_, by simp [Refusal.category, Refusal.Category.told]⟩
      rw [Request.code, text_eq_ok_iff.2 ⟨_, hn, hlimit, hbytes⟩]
      simp only [Bind.bind, Except.bind, (parseWithin_eq_tooDeep_iff _ _).2 hdeep]
      rfl

theorem code_eq_ok_iff (hwhole : ∀ refusal, ¬ r.Breaks limits refusal) :
    r.code limits = .ok code ↔ r.Submits code := by
  constructor
  · intro h
    obtain ⟨text, htext, hrest⟩ := exists_of_bind_eq_ok h
    obtain ⟨v, hparse, hcode⟩ := exists_of_bind_eq_ok hrest
    obtain ⟨n, hn, hlimit, hbytes⟩ := text_eq_ok_iff.1 htext
    obtain ⟨members, rfl, hmember⟩ := submittedCode_eq_ok_iff.1 hcode
    have hshallow : ¬ Overnests limits.nesting text :=
      fun hdeep ↦ hwhole _ (.overnested hn hlimit hbytes hdeep)
    rw [mapError_eq_ok_iff, parseWithin_eq_parse hshallow] at hparse
    exact ⟨n, hn, text, members, hbytes, (parse_eq_ok_iff _ _).1 hparse, hmember⟩
  · intro ⟨n, hn, text, members, hbytes, hspell, hmember⟩
    have hlimit : n < limits.read := Nat.lt_of_not_le fun h ↦ hwhole _ (.overlong hn h)
    have hshallow : ¬ Overnests limits.nesting text :=
      fun hdeep ↦ hwhole _ (.overnested hn hlimit hbytes hdeep)
    have hparse := (parse_eq_ok_iff _ _).2 hspell
    rw [← parseWithin_eq_parse hshallow] at hparse
    rw [Request.code, text_eq_ok_iff.2 ⟨n, hn, hlimit, hbytes⟩]
    simp only [Bind.bind, Except.bind, hparse, Except.mapError]
    exact submittedCode_eq_ok_iff.2 ⟨members, rfl, hmember⟩

end Reading

def Response.Measured (response : Response) : Prop :=
  response.headers.filter (fun h ↦ h.1 = "Content-Length") =
    [("Content-Length", toString response.body.utf8ByteSize)]

theorem utf8ByteSize_of_ascii {cs : List Char} (h : Ascii cs) :
    (String.ofList cs).utf8ByteSize = cs.length := by
  rw [String.utf8ByteSize_ofList]
  induction cs with
  | nil => rfl
  | cons c cs ih =>
    obtain ⟨hc, hcs⟩ := List.forall_mem_cons.1 h
    have hsize : c.utf8Size = 1 :=
      Char.utf8Size_eq_one_iff.2 (UInt32.le_iff_toNat_le.2 (Nat.le_of_lt_succ hc))
    rw [String.utf8Len, ih hcs, hsize, List.length_cons]

theorem measured_jsonResponse (status : ℕ) {value : Json} (h : Ascii value.write) :
    (jsonResponse status value).Measured := by
  have hbody : Ascii (value.write ++ ['\n']) := h.append (by simp [Ascii])
  simp only [Response.Measured, jsonResponse, utf8ByteSize_of_ascii hbody]
  rfl

theorem measured_errorResponse (status : ℕ) (message : String) :
    (errorResponse status message).Measured := by
  refine measured_jsonResponse status (ascii_write_object ?_)
  simpa [write] using ascii_stringLiteral _

theorem ascii_write_submission (s : Submission) :
    Ascii (write (.object [("output", .string s.output), ("success", .bool s.success)])) := by
  refine ascii_write_object ?_
  simp only [List.forall_mem_cons, write, List.not_mem_nil, false_implies, implies_true, and_true]
  refine ⟨ascii_stringLiteral _, ?_⟩
  cases s.success <;> simp [Ascii]

/-- Answers a post when programs are run in the given way. -/
def answerPostWith (run : Text → Submission × List Event) (r : Request) (limits : Limits) :
    Except Refusal Answer :=
  if r.target ≠ submitPath then .ok ⟨errorResponse 404 ("Unknown path: " ++ r.target), []⟩
  else
    match r.code limits with
    | .error refusal =>
      if refusal.category ∈ Refusal.Category.told then .ok refusal.answer else .error refusal
    | .ok code => .ok ⟨(run code).1.response, (run code).2⟩

theorem answerPost_eq (cfg : Settings) (r : Request) (limits : Limits) :
    answerPost cfg r limits = answerPostWith (runCode cfg) r limits :=
  rfl

/-- What the answer to a post is, of whatever class. -/
structure Answered (run : Text → Submission × List Event) (limits : Limits) (r : Request)
    (a : Answer) : Prop where
  measured : a.response.Measured
  notFound : a.response.status = 404 ↔ r.target ≠ submitPath
  accepted : a.response.status = 200 ↔ r.target = submitPath ∧ ∃ code, r.Submits code
  refused : a.response.status = 400 ↔ r.target = submitPath ∧ ¬ ∃ code, r.Submits code
  result (code : Text) : r.target = submitPath → r.Submits code →
    a.response = (run code).1.response ∧ a.trace = (run code).2
  message : a.response.status = 400 →
    ∃ message, a.response = errorResponse 400 ("Invalid request: " ++ message)
  /-- Unless a program is accepted, the answer is the same however programs are run. -/
  unevaluated : a.response.status ≠ 200 →
    a.trace = [] ∧ ∀ run', answerPostWith run' r limits = .ok a

section Answers

variable {r : Request} {limits : Limits} (run : Text → Submission × List Event)

theorem answered_refusal (htarget : r.target = submitPath) (hno : ¬ ∃ code, r.Submits code)
    {refusal : Refusal} (hanswer : ∀ run', answerPostWith run' r limits = .ok refusal.answer) :
    Answered run limits r refusal.answer where
  measured := measured_errorResponse _ _
  notFound := by simp [Refusal.answer, errorResponse, jsonResponse, htarget]
  accepted := by simp [Refusal.answer, errorResponse, jsonResponse, hno]
  refused := by simp [Refusal.answer, errorResponse, jsonResponse, htarget, hno]
  result code _ hcode := absurd ⟨code, hcode⟩ hno
  message _ := ⟨_, rfl⟩
  unevaluated _ := ⟨rfl, hanswer⟩

theorem answered_unknown (htarget : r.target ≠ submitPath) :
    ∃ a, answerPostWith run r limits = .ok a ∧ Answered run limits r a := by
  refine ⟨_, if_pos htarget, measured_errorResponse _ _, ?_, ?_, ?_, ?_, ?_, ?_⟩
  · simp [errorResponse, jsonResponse, htarget]
  · simp [errorResponse, jsonResponse, htarget]
  · simp [errorResponse, jsonResponse, htarget]
  · exact fun _ h ↦ absurd h htarget
  · simp [errorResponse, jsonResponse]
  · exact fun _ ↦ ⟨rfl, fun _ ↦ if_pos htarget⟩

theorem answered_result (htarget : r.target = submitPath) {code : Text}
    (hcode : ∀ code', r.Submits code' ↔ code = code') :
    Answered run limits r ⟨(run code).1.response, (run code).2⟩ where
  measured := measured_jsonResponse _ (ascii_write_submission _)
  notFound := by simp [Submission.response, jsonResponse, htarget]
  accepted := by simp [Submission.response, jsonResponse, htarget, hcode]
  refused := by simp [Submission.response, jsonResponse, hcode]
  result code' _ h := by
    rw [(hcode code').1 h]
    exact ⟨rfl, rfl⟩
  message h := by simp [Submission.response, jsonResponse] at h
  unevaluated h := absurd rfl h

theorem answerPostWith_of_target (htarget : r.target = submitPath) :
    answerPostWith run r limits =
      match r.code limits with
      | .error refusal =>
        if refusal.category ∈ Refusal.Category.told then .ok refusal.answer else .error refusal
      | .ok code => .ok ⟨(run code).1.response, (run code).2⟩ := by
  simp only [answerPostWith, htarget, ne_eq, not_true_eq_false, if_false]

theorem answerPostWith_eq_error_iff (refusal : Refusal) :
    answerPostWith run r limits = .error refusal ↔
      r.target = submitPath ∧ r.Breaks limits refusal := by
  rw [← code_eq_lost_iff]
  by_cases htarget : r.target = submitPath
  · rw [answerPostWith_of_target run htarget]
    cases r.code limits with
    | ok code => simp
    | error refusal' =>
      by_cases htold : refusal'.category ∈ Refusal.Category.told
      · simp only [if_pos htold, reduceCtorEq, Except.error.injEq, false_iff]
        rintro ⟨-, rfl, hlost⟩
        exact hlost htold
      · simp only [if_neg htold, Except.error.injEq, htarget, true_and]
        constructor
        · rintro rfl
          exact ⟨rfl, htold⟩
        · exact fun h ↦ h.1
  · simp [answerPostWith, htarget]

theorem exists_answered (h : r.target = submitPath → ∀ refusal, ¬ r.Breaks limits refusal) :
    ∃ a, answerPostWith run r limits = .ok a ∧ Answered run limits r a := by
  by_cases htarget : r.target = submitPath
  · have hwhole := h htarget
    have hanswer (run') : answerPostWith run' r limits = _ := answerPostWith_of_target run' htarget
    cases hcode : r.code limits with
    | error refusal =>
      have htold : refusal.category ∈ Refusal.Category.told := by
        by_contra hlost
        exact hwhole refusal (code_eq_lost_iff.1 ⟨hcode, hlost⟩)
      simp only [hcode, if_pos htold] at hanswer
      refine ⟨_, hanswer run, answered_refusal run htarget ?_ hanswer⟩
      intro ⟨code, hsubmits⟩
      rw [← code_eq_ok_iff hwhole, hcode] at hsubmits
      contradiction
    | ok code =>
      simp only [hcode] at hanswer
      refine ⟨_, hanswer run, answered_result run htarget fun code' ↦ ?_⟩
      rw [← code_eq_ok_iff hwhole, hcode, Except.ok.injEq]
  · exact answered_unknown run htarget

end Answers

def sending (text : List Char) (length : String) : Request where
  method := .post
  path := submitPath
  headers := [("Content-Length", length)]
  body := Utf8.encode text

def posting (code : Text) (length : String) : Request :=
  sending (write (.object [("code", .string code)])) length

theorem target_sending (text : List Char) (length : String) :
    (sending text length).target = submitPath := by
  have hpath : submitPath.toList = '/' :: 's' :: "ubmit-code".toList := by decide
  simp [Request.target, sending, hpath]

theorem header?_sending (text : List Char) {length : String}
    (h : ∀ c ∈ length.toList.head?, c.isDigit = true) :
    (sending text length).header? "Content-Length" = some length := by
  have hdrop : ([] ++ length.toList).dropWhile (fun c ↦ c = ' ' || c = '\t') = length.toList := by
    refine dropWhile_front (by simp) fun c hc ↦ ?_
    have hne (d : Char) (hd : d.isDigit = false) : c ≠ d := fun h' ↦ by simp [← h', h c hc] at hd
    simp [hne]
  rw [List.nil_append] at hdrop
  simp [Request.header?, sending, hdrop]

theorem Request.announces_of_header {r : Request} {text : String} {n : ℤ}
    (h : r.header? "Content-Length" = some text) (hn : IntegerLiteral text.toList n) :
    r.Announces n := by
  simp only [Request.Announces, h]
  exact .inr hn

theorem announces_sending (text : List Char) {n : ℕ} {length : String}
    (h : Decimal.digitChars n = length.toList) (hn : length.toList.length ≤ maxDigits) :
    (sending text length).Announces n := by
  refine Request.announces_of_header (header?_sending text fun c hc ↦ ?_) ?_
  · rw [← h] at hc
    exact Decimal.isDigit_of_mem_digitChars (List.mem_of_mem_head? hc)
  · rw [← h] at hn ⊢
    exact integerLiteral_digitChars hn

section Programs

variable {r : Request} {limits : Limits} {code : Text} {n : ℕ} (hcode : code.Plain)
  (hbody : r.body = Utf8.encode (write (.object [("code", .string code)]))) (hn : r.Announces n)
  (hlong : r.body.length ≤ n)

include hcode

theorem spells_program :
    Spells (.element (.object [("code", .string code)]))
      (write (.object [("code", .string code)])) := by
  have hspell : Spells (.value (.object [("code", .string code)]))
      (write (.object [("code", .string code)])) := by
    refine spells_write_object ?_
    simp only [List.forall_mem_cons, List.not_mem_nil, false_implies, implies_true, and_true]
    exact ⟨plain_ofChars _, .string (stringText_stringLiteral hcode)⟩
  have helement := Spells.element no_blanks hspell no_blanks
  rwa [List.nil_append, List.append_nil] at helement

include hbody hn hlong

theorem submits_program : r.Submits code := by
  refine ⟨n, hn, _, _, ?_, spells_program hcode, [], [], rfl, by simp⟩
  rw [List.take_of_length_le hlong, hbody]

theorem program_breaks_nothing (hlimit : n < limits.read) (hnesting : 0 < limits.nesting)
    (refusal : Refusal) : ¬ r.Breaks limits refusal := by
  intro h
  cases h with
  | overlong hn' hlimit' =>
    rw [hn.unique hn'] at hlimit
    exact Nat.not_le_of_lt hlimit hlimit'
  | overnested hn' _ htext hdeep =>
    rw [← hn.unique hn', List.take_of_length_le hlong, hbody] at htext
    rw [← Utf8.encode_injective htext] at hdeep
    exact (spells_program hcode).not_overnests hnesting hdeep

end Programs

theorem Holds.brace_mem {body : List UInt8} {code : Text} (h : Holds body code) : 0x7b ∈ body := by
  obtain ⟨text, members, rfl, hspell, -⟩ := h
  have hbrace : '{' ∈ text := by
    cases hspell with
    | element _ h _ =>
      cases h with
      | number h => cases h
      | emptyObject => simp
      | object => simp
  exact List.mem_flatMap.2 ⟨'{', hbrace, by decide⟩

theorem encode_replicate_bracket (k : ℕ) :
    Utf8.encode (List.replicate k '[') = List.replicate k 0x5b := by
  induction k with
  | zero => rfl
  | succ k ih =>
    rw [List.replicate_succ, Utf8.encode, List.flatMap_cons, ← Utf8.encode, ih]
    rfl

/-- A post is lost just if the host fails at it: it announces a length that no read can ask for, or
its text is nested deeper than JSON can be read. Any other post gets exactly one response, of the
class that its path, its announced length and its bytes decide. -/
theorem posts_are_answered_or_lost (cfg : Settings) (limits : Limits) (r : Request) :
    (∀ refusal, answerPost cfg r limits = .error refusal ↔
      r.target = submitPath ∧ r.Breaks limits refusal) ∧
    ((r.target = submitPath → ∀ refusal, ¬ r.Breaks limits refusal) →
      ∃ a, answerPost cfg r limits = .ok a ∧ Answered (runCode cfg) limits r a) := by
  rw [answerPost_eq]
  exact ⟨answerPostWith_eq_error_iff (runCode cfg), exists_answered (runCode cfg)⟩

/-- The smallest length that no read can ask for: the program is there, and yet no response. And
brackets that open more arrays than can be read: they are no program, and yet not refused. -/
theorem overlong_and_overnested_posts_are_lost :
    ((posting "(+ 1 2)" "9223372036854775808").target = submitPath ∧
      (posting "(+ 1 2)" "9223372036854775808").Submits "(+ 1 2)" ∧
      answerPost {} (posting "(+ 1 2)" "9223372036854775808") = .error (.overlong lengthLimit)) ∧
    ((sending (List.replicate 4001 '[') "4001").target = submitPath ∧
      (¬ ∃ code, (sending (List.replicate 4001 '[') "4001").Submits code) ∧
      answerPost {} (sending (List.replicate 4001 '[') "4001") =
        .error (.json (List.replicate 4001 '[') .tooDeep)) := by
  have hlong : (posting "(+ 1 2)" "9223372036854775808").Announces lengthLimit :=
    announces_sending _ (by decide +kernel) (by decide)
  have hdeep : (sending (List.replicate 4001 '[') "4001").Announces (4001 : ℕ) :=
    announces_sending _ (by decide +kernel) (by decide)
  refine ⟨⟨target_sending _ _, ?_, ?_⟩, target_sending _ _, ?_, ?_⟩
  · exact submits_program (plain_ofChars _) rfl hlong (by decide +kernel)
  · rw [answerPost_eq, answerPostWith_eq_error_iff]
    exact ⟨target_sending _ _, .overlong hlong (Nat.le_refl _)⟩
  · intro ⟨code, n, hn, hcode⟩
    have hmem := List.mem_of_mem_take hcode.brace_mem
    rw [sending, encode_replicate_bracket] at hmem
    exact absurd (List.eq_of_mem_replicate hmem) (by decide)
  · rw [answerPost_eq, answerPostWith_eq_error_iff]
    refine ⟨target_sending _ _, .overnested hdeep (by decide) ?_ ?_⟩
    · apply List.take_of_length_le
      rw [sending, encode_replicate_bracket, List.length_replicate]
    · exact ⟨[], _, rfl, no_blanks, nests_replicate (show 4000 < 4001 by decide)⟩

theorem small_post_is_answered :
    (posting "(+ 1 2)" "19").Announces 19 ∧ (posting "(+ 1 2)" "19").Submits "(+ 1 2)" ∧
    ∃ a, answerPost {} (posting "(+ 1 2)" "19") = .ok a ∧
      Answered (runCode {}) {} (posting "(+ 1 2)" "19") a ∧ a.response.status = 200 := by
  have hn : (posting "(+ 1 2)" "19").Announces (19 : ℕ) :=
    announces_sending _ (by decide +kernel) (by decide)
  have hlong : (posting "(+ 1 2)" "19").body.length ≤ 19 := by decide +kernel
  have hplain : Text.Plain "(+ 1 2)" := plain_ofChars _
  have hsubmits := submits_program hplain rfl hn hlong
  obtain ⟨a, hanswer, ha⟩ := (posts_are_answered_or_lost {} {} (posting "(+ 1 2)" "19")).2 fun _ ↦
    program_breaks_nothing hplain rfl hn hlong (by decide) (by decide)
  exact ⟨hn, hsubmits, a, hanswer, ha, ha.accepted.2 ⟨target_sending _ _, _, hsubmits⟩⟩

end Service

end LittleLisp

import LittleLisp.Proofs.Service.Posting
import LittleLisp.Proofs.Session.PlainText
import Mathlib.Data.Nat.Digits.Defs

namespace LittleLisp.Service

open Json Text

/-- The request posts a program as the only member of an object, and announces its exact length. -/
structure Request.Posts (r : Request) (code : Text) : Prop where
  method : r.method = .post
  target : r.target = submitPath
  body : r.body = Utf8.encode (write (.object [("code", .string code)]))
  length : r.header? "Content-Length" = some (toString r.body.length)

section Posts

variable {r : Request} {code : Text}

theorem toList_toString (n : ℕ) : (toString n).toList = Decimal.digitChars n := by
  simp [Decimal.digitChars]

theorem integerLiteral_toString {n : ℕ} (h : n < lengthLimit) :
    IntegerLiteral (toString n).toList n := by
  have hlimit : lengthLimit ≤ 10 ^ 19 := by decide
  have hdigits : (Decimal.digitChars n).length ≤ 19 :=
    Nat.toDigits_length 10 n 19 (by omega) (Nat.lt_of_lt_of_le h hlimit)
  rw [toList_toString]
  apply integerLiteral_digitChars
  exact hdigits.trans (by decide)

theorem Request.Posts.announces (h : r.Posts code) (hsmall : r.body.length < lengthLimit) :
    r.Announces r.body.length :=
  Request.announces_of_header h.length (integerLiteral_toString hsmall)

theorem posts_posting (code : Text) {length : String}
    (h : toString (posting code length).body.length = length) :
    (posting code length).Posts code where
  method := rfl
  target := target_sending _ length
  body := rfl
  length := by
    rw [h]
    refine header?_sending _ fun c hc ↦ ?_
    rw [← h, toList_toString] at hc
    exact Decimal.isDigit_of_mem_digitChars (List.mem_of_mem_head? hc)

end Posts

theorem plain_output (cfg : Settings) {code : Text} (hcode : code.Plain) :
    (runCode cfg code).1.output.Plain := by
  obtain ⟨hprinted, hfault⟩ := Session.plain_report_eval cfg Session.plain_start hcode
  unfold runCode
  generalize Session.start.eval cfg code = e at hprinted hfault ⊢
  obtain ⟨o, s⟩ := e
  dsimp only at hprinted hfault ⊢
  cases hreport : s.report o with
  | ok printed => exact hprinted printed hreport
  | error f => exact (hfault f hreport).diagnostic

def Submission.members (s : Submission) : List (Text × Json) :=
  [("output", .string s.output), ("success", .bool s.success)]

theorem toList_body_response (s : Submission) :
    s.response.body.toList = write (.object s.members) ++ ['\n'] := by
  simp [Submission.response, jsonResponse, Submission.members]

theorem parse_response {s : Submission} (h : s.output.Plain) :
    Json.parse s.response.body.toList = .ok (.object s.members) := by
  have hspell : Spells (.value (.object s.members)) (write (.object s.members)) := by
    refine spells_write_object ?_
    simp only [Submission.members, List.forall_mem_cons, List.not_mem_nil, false_implies,
      implies_true, and_true]
    exact ⟨⟨plain_ofString _, .string (stringText_stringLiteral h)⟩, plain_ofString _, .bool _⟩
  have hend : ∀ c ∈ ['\n'], Json.isBlank c = true := by
    simp [Json.isBlank]
  rw [parse_eq_ok_iff, toList_body_response]
  exact Spells.element no_blanks hspell hend

/-- A program that is posted is run, and the answer is in ASCII, ends in a line break and decodes to
an object with two members, the output and the success of the run. The bound on the length is not a
restriction on programs: no host holds as many bytes. -/
theorem post_tells_what_run_gives (cfg : Settings) {r : Request} {code : Text} (hcode : code.Plain)
    (hpost : r.Posts code) (hsmall : r.body.length < lengthLimit) :
    ∃ a, answer cfg r = .ok a ∧ a.response.status = 200 ∧ a.trace = (runCode cfg code).2 ∧
      Ascii a.response.body.toList ∧ a.response.body.toList.getLast? = some '\n' ∧
      Json.parse a.response.body.toList = .ok (.object
        [("output", .string (runCode cfg code).1.output),
          ("success", .bool (runCode cfg code).1.success)]) := by
  have hn := hpost.announces hsmall
  have hsubmits := submits_program hcode hpost.body hn (Nat.le_refl _)
  have hwhole : ∀ refusal, ¬ r.Breaks {} refusal :=
    program_breaks_nothing hcode hpost.body hn (Nat.le_refl _) hsmall (by decide)
  obtain ⟨a, hanswer, ha⟩ := exists_answered (runCode cfg) fun _ ↦ hwhole
  obtain ⟨hresponse, htrace⟩ := ha.result code hpost.target hsubmits
  refine ⟨a, ?_, ?_, htrace, ?_, ?_, ?_⟩
  · rw [answer, hpost.method, ← hanswer]
    exact answerPost_eq cfg r {}
  · exact ha.accepted.2 ⟨hpost.target, code, hsubmits⟩
  · rw [hresponse, toList_body_response]
    exact (ascii_write_submission _).append (by simp [Ascii])
  · rw [hresponse, toList_body_response, List.getLast?_concat]
  · rw [hresponse]
    exact parse_response (plain_output cfg hcode)

/-- A string with a character beyond the first plane, which takes two escapes. -/
theorem posted_string_tells_itself :
    (posting "\"é😀\"" "34").Posts "\"é😀\"" ∧
    ∃ a, answer {} (posting "\"é😀\"" "34") = .ok a ∧ a.response.status = 200 ∧
      Ascii a.response.body.toList ∧ a.response.body.toList.getLast? = some '\n' ∧
      Json.parse a.response.body.toList =
        .ok (.object [("output", .string "\"é😀\""), ("success", .bool true)]) := by
  have hlength : (posting "\"é😀\"" "34").body.length = 34 := by decide +kernel
  have hposts : (posting "\"é😀\"" "34").Posts "\"é😀\"" := by
    apply posts_posting
    rw [hlength]
    decide
  have hsmall : (posting "\"é😀\"" "34").body.length < lengthLimit := by
    rw [hlength]
    decide
  have hrun : (runCode {} "\"é😀\"").1.output = "\"é😀\"" ∧
      (runCode {} "\"é😀\"").1.success = true := by decide +kernel
  obtain ⟨a, hanswer, hstatus, -, hascii, hend, hparse⟩ :=
    post_tells_what_run_gives {} (plain_ofString _) hposts hsmall
  rw [hrun.1, hrun.2] at hparse
  exact ⟨hposts, a, hanswer, hstatus, hascii, hend, hparse⟩

end LittleLisp.Service

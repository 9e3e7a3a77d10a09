import LittleLisp.Proofs.Renaming.Reach
import LittleLisp.Proofs.Renaming.Session
import LittleLisp.Proofs.Session.Safety

namespace LittleLisp.Prompt

open Renaming

variable {R : Renaming} {s t : Session} {cfg : Settings}

section Lines

/-- What is added to a text so that its last line ends: nothing if it is empty or has ended. -/
def ending (t : Text) : Text :=
  if t.getLast?.all (· = .scalar '\n') then [] else [.scalar '\n']

theorem ending_cons (c : CodePoint) {t : Text} (ht : t ≠ []) : ending (c :: t) = ending t := by
  obtain ⟨b, t, rfl⟩ := List.exists_cons_of_ne_nil ht
  rw [ending, ending, List.getLast?_cons_cons]

theorem lines_ne_nil {t : Text} (ht : t ≠ []) : lines t ≠ [] := by
  obtain ⟨c, t, rfl⟩ := List.exists_cons_of_ne_nil ht
  rw [lines]
  split
  · exact List.cons_ne_nil _ _
  · split <;> exact List.cons_ne_nil _ _

theorem newline_notMem_lines (t : Text) : ∀ l ∈ lines t, .scalar '\n' ∉ l := by
  induction t with
  | nil => nofun
  | cons c t ih =>
    rw [lines]
    split
    case isTrue => exact List.forall_mem_cons.2 ⟨List.not_mem_nil, ih⟩
    case isFalse hc =>
      split
      case h_1 => simpa using Ne.symm hc
      case h_2 l ls hlines =>
        rw [hlines] at ih
        obtain ⟨hl, hls⟩ := List.forall_mem_cons.1 ih
        refine List.forall_mem_cons.2 ⟨?_, hls⟩
        exact List.not_mem_cons_of_ne_of_not_mem (Ne.symm hc) hl

theorem flatMap_lines (t : Text) : (lines t).flatMap (· ++ [.scalar '\n']) = t ++ ending t := by
  induction t with
  | nil => rfl
  | cons c t ih =>
    by_cases ht : t = []
    · subst ht
      by_cases hc : c = .scalar '\n' <;> simp [lines, ending, hc]
    · rw [ending_cons c ht, List.cons_append, ← ih, lines]
      split
      case isTrue hc => rw [hc, List.flatMap_cons, List.nil_append, List.singleton_append]
      case isFalse =>
        split
        case h_1 hnil => exact absurd hnil (lines_ne_nil ht)
        case h_2 l ls hlines => rw [hlines]; rfl

theorem lines_append (a b : Text) :
    lines (a ++ .scalar '\n' :: b) = lines (a ++ [.scalar '\n']) ++ lines b := by
  induction a with
  | nil => simp [lines]
  | cons c a ih =>
    rw [List.cons_append, List.cons_append, lines, lines, ih]
    split
    · rfl
    · obtain ⟨l, ls, hlines⟩ :=
        List.exists_cons_of_ne_nil (lines_ne_nil (List.append_ne_nil_of_right_ne_nil a
          (List.cons_ne_nil (CodePoint.scalar '\n') [])))
      rw [hlines]
      rfl

end Lines

theorem line_eq (s : Session) {text : Text} (h : ¬ text.isBlankText) :
    line cfg s text = (⟨some (Answer.of (s.eval cfg text)).shown, (s.eval cfg text).1.trace⟩,
      match (Answer.of (s.eval cfg text)).shown with
      | .ok _ => (s.eval cfg text).2
      | .error _ => (s.eval cfg text).2.restart) := by
  rw [line, if_neg h, Answer.of]
  generalize s.eval cfg text = r
  obtain ⟨o, s'⟩ := r
  cases hreport : s'.report o <;> simp [hreport]

theorem joins_eval (h : R.Joins s t) (cfg : Settings) (text : Text) :
    Answer.of (s.eval cfg text) = Answer.of (t.eval cfg text) ∧
      ∃ R' : Renaming, R'.Joins (s.eval cfg text).2 (t.eval cfg text).2 := by
  obtain ⟨hanswer, R', -, hafter⟩ := h.respond cfg (.eval text)
  exact ⟨Option.some.inj hanswer, R', hafter⟩

theorem joins_line (h : R.Joins s t) (cfg : Settings) (text : Text) :
    (line cfg s text).1 = (line cfg t text).1 ∧
      ∃ R' : Renaming, R'.Joins (line cfg s text).2 (line cfg t text).2 := by
  by_cases hblank : text.isBlankText
  · rw [line, line, if_pos hblank, if_pos hblank]
    exact ⟨rfl, R, h⟩
  · obtain ⟨hanswer, R', hafter⟩ := joins_eval h cfg text
    have htrace : (s.eval cfg text).1.trace = (t.eval cfg text).1.trace :=
      congrArg Answer.trace hanswer
    rw [line_eq s hblank, line_eq t hblank, hanswer, htrace]
    refine ⟨rfl, ?_⟩
    dsimp only
    split
    · exact ⟨R', hafter⟩
    · obtain ⟨-, R'', -, hrestart⟩ := hafter.respond cfg .reset
      exact ⟨R'', hrestart⟩

theorem replies_cons (s : Session) (text : Text) (texts : List Text) :
    replies cfg s (text :: texts) = (line cfg s text).1 :: replies cfg (line cfg s text).2 texts :=
  rfl

theorem joins_replies (h : R.Joins s t) (cfg : Settings) (texts : List Text) :
    replies cfg s texts = replies cfg t texts := by
  induction texts generalizing R s t with
  | nil => rfl
  | cons text texts ih =>
    obtain ⟨hreply, R', hafter⟩ := joins_line h cfg text
    rw [replies_cons, replies_cons, hreply, ih hafter]

/-- A session with a new root scope is a new one, whatever is left in its store. -/
theorem joins_addRoot {s : Store} (hs : s.WellFormed) :
    ∃ R : Renaming, R.Joins ⟨s.addRoot.2, s.addRoot.1⟩ .start := by
  obtain ⟨R, hadvances, hroot⟩ := (matches_none hs Store.wellFormed_empty).addRoot
  exact ⟨R, hadvances.after, hroot⟩

def newSession (cfg : Settings) (since : List Text) : Session :=
  since.foldl (fun s text ↦ (s.eval cfg text).2) .start

def outcome (cfg : Settings) (since : List Text) (text : Text) : Except Fault Text :=
  (Answer.of ((newSession cfg since).eval cfg text)).shown

/-- What is written for some lines: after the prompt nothing for a blank one, and for another one
its outcome in a new session that has evaluated the lines since the last failure. -/
def written (cfg : Settings) : List Text → List Text → Text
  | _, [] => []
  | since, text :: texts =>
    prompt ++
      if text.isBlankText then written cfg since texts
      else
        match outcome cfg since text with
        | .ok printed => printed ++ "\n" ++ written cfg (since ++ [text]) texts
        | .error f => "error: " ++ f.message ++ "\n" ++ written cfg [] texts

theorem newSession_concat (cfg : Settings) (since : List Text) (text : Text) :
    newSession cfg (since ++ [text]) = ((newSession cfg since).eval cfg text).2 := by
  rw [newSession, List.foldl_append]
  rfl

theorem flatMap_replies {since : List Text} (h : R.Joins s (newSession cfg since))
    (texts : List Text) :
    (replies cfg s texts).flatMap (prompt ++ ·.text) = written cfg since texts := by
  induction texts generalizing R s since with
  | nil => rfl
  | cons text texts ih =>
    rw [replies_cons, written, List.flatMap_cons, List.append_assoc]
    refine congrArg (prompt ++ ·) ?_
    by_cases hblank : text.isBlankText
    · rw [line, if_pos hblank, if_pos hblank, ih h]
      rfl
    · obtain ⟨hanswer, R', hafter⟩ := joins_eval h cfg text
      rw [line_eq s hblank, if_neg hblank, hanswer, outcome]
      cases (Answer.of ((newSession cfg since).eval cfg text)).shown with
      | ok printed =>
        rw [← newSession_concat] at hafter
        dsimp only
        rw [ih hafter]
        rfl
      | error f =>
        -- The store keeps what the failed line left in it; the new root reaches none of it.
        obtain ⟨R'', hrestart⟩ := joins_addRoot hafter.store.left
        have hnew : R''.Joins (s.eval cfg text).2.restart (newSession cfg []) := hrestart
        dsimp only
        rw [ih hnew]
        rfl

def after (cfg : Settings) (s : Session) (texts : List Text) : Session :=
  texts.foldl (fun s text ↦ (line cfg s text).2) s

theorem replies_append (s : Session) (texts texts' : List Text) :
    replies cfg s (texts ++ texts') =
      replies cfg s texts ++ replies cfg (after cfg s texts) texts' := by
  induction texts generalizing s with
  | nil => rfl
  | cons text texts ih =>
    rw [List.cons_append, replies_cons, replies_cons, ih]
    rfl

theorem sound_after (hs : s.Sound) (texts : List Text) : (after cfg s texts).Sound := by
  induction texts generalizing s with
  | nil => exact hs
  | cons text texts ih => exact ih (documented_line cfg hs text).2

def Reply.failed (r : Reply) : Bool :=
  match r.shown with
  | some (.error _) => true
  | _ => false

/-- After a line that has failed the session is a new one. -/
theorem joins_after (hs : s.Sound) {texts : List Text}
    (hfailed : (replies cfg s texts).getLast?.any Reply.failed = true) :
    ∃ R : Renaming, R.Joins (after cfg s texts) .start := by
  rcases List.eq_nil_or_concat texts with hnil | ⟨before, text, hconcat⟩
  · rw [hnil] at hfailed
    cases hfailed
  · rw [List.concat_eq_append] at hconcat
    rw [hconcat, replies_append, replies_cons, List.getLast?_append] at hfailed
    have hreply : (line cfg (after cfg s before) text).1.failed = true := hfailed
    have hafter : after cfg s texts = (line cfg (after cfg s before) text).2 := by
      rw [hconcat, after, List.foldl_append]
      rfl
    by_cases hblank : text.isBlankText
    · rw [line, if_pos hblank] at hreply
      cases hreply
    · rw [line_eq _ hblank] at hreply hafter
      cases hshown : (Answer.of ((after cfg s before).eval cfg text)).shown with
      | ok printed =>
        rw [hshown] at hreply
        cases hreply
      | error f =>
        rw [hafter, hshown]
        have hbefore : (after cfg s before).Sound := sound_after hs before
        exact joins_addRoot (hbefore.eval cfg text).1.built.whole.wellFormed

/-- The transcript of the prompt. The input is split at newlines only, and what is written for a
line is what a new session shows for it after the lines since the last one that failed. So after a
line that failed everything goes on as for a new prompt with the rest of the input. -/
theorem transcript_since_failure (cfg : Settings) :
    (∀ input, (∀ l ∈ lines input, .scalar '\n' ∉ l) ∧
      (lines input).flatMap (· ++ [.scalar '\n']) = input ++ ending input ∧
      transcript (converse cfg input) =
        banner ++ written cfg [] (lines input) ++ prompt ++ "\n") ∧
    ∀ input rest, (converse cfg (input ++ [.scalar '\n'])).getLast?.any Reply.failed = true →
      converse cfg (input ++ .scalar '\n' :: rest) =
        converse cfg (input ++ [.scalar '\n']) ++ converse cfg rest := by
  refine ⟨?_, ?_⟩
  · intro input
    obtain ⟨R, hstart⟩ := joins_addRoot Store.wellFormed_empty
    refine ⟨newline_notMem_lines input, flatMap_lines input, ?_⟩
    have hnew : R.Joins .start (newSession cfg []) := hstart
    rw [transcript, converse, flatMap_replies hnew]
  · intro input rest hfailed
    obtain ⟨R, hnew⟩ := joins_after Session.sound_start hfailed
    rw [converse, lines_append, replies_append, joins_replies hnew]
    rfl

/-- A name is defined, used, and lost when another line fails. -/
theorem transcript_lostName :
    let cfg : Settings := { evalDepth := 2 }
    let input : Text := "(def x #t)\n\nx\ny"
    (converse cfg (input ++ [.scalar '\n'])).getLast?.any Reply.failed = true ∧
    (converse cfg (input ++ .scalar '\n' :: "x") =
      converse cfg (input ++ [.scalar '\n']) ++ converse cfg "x") ∧
    transcript (converse cfg (input ++ .scalar '\n' :: "x")) =
      "Welcome to sprig!\n> x\n> > #t\n> error: Cannot lookup unbound symbol y\n" ++
        ("> error: Cannot lookup unbound symbol x\n> \n" : Text) := by
  intro cfg input
  have hfailed : (converse cfg (input ++ [.scalar '\n'])).getLast?.any Reply.failed = true := by
    decide +kernel
  obtain ⟨-, hrest⟩ := transcript_since_failure cfg
  exact ⟨hfailed, hrest input "x" hfailed, by decide +kernel⟩

end LittleLisp.Prompt

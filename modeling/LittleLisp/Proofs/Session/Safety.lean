import LittleLisp.Proofs.Session.Disciplines
import LittleLisp.Proofs.Store.Printing
import LittleLisp.Prompt
import LittleLisp.Service

namespace LittleLisp

open EvalM Store

def safety : Discipline where
  inv := Built
  code s c := s.Present (.cell c)
  value s c := s.Present (.cell c)
  scope s e := s.Present (.scope e)
  code_mono hg hc := hc.cell_extends hg
  value_mono hg hv := hv.cell_extends hg
  scope_mono hg he := he.scope_extends hg
  literal _ hc _ := hc
  quoted hi _ hcell := hi.whole.quoted hcell
  item hi _ _ hmem := hi.whole.item hmem
  lookup hi _ hv := hi.whole.lookup hv
  callable hi _ hf := hi.whole.callable hf
  first hi _ _ hsplit := (hi.whole.split hsplit).1
  addNumber _ hi := ⟨hi.addCell nofun nofun nofun, present_addCell nofun⟩
  addBool _ hi := ⟨hi.addCell nofun nofun nofun, present_addCell nofun⟩
  addClosure n ps hi he hbody := by
    refine ⟨hi.addCell nofun ?_ ?_, present_addCell nofun⟩
    · intro y hy
      cases hy with
      | captured => exact he
      | body => exact hbody
    · intro fn hfn
      cases hfn
      exact ⟨rfl, trivial, trivial⟩
  addList hi hv := hi.addList hv
  addRest hi _ _ hsplit := by
    refine ⟨hi.addListFrom ?_, present_addCell nofun⟩
    intro n hn
    exact (hi.whole.split hsplit).2 n hn
  push hi _ hcell hv := hi.push (hi.whole.handle hcell) hv
  define n hi he hv := hi.define n he hv
  addScope {s e} hi he := by
    refine ⟨hi.addScope ?_, _, (writes_addScope s (some e)).here, nofun⟩
    intro e' h
    cases h
    exact he

theorem stores_safety : safety.Stores := fun hi hd ↦ hi.load hd

/-- A fault that the language documents. A split of an empty list and a value that cannot be printed
are none, and neither is a token of an unknown kind, though it would be called malformed. -/
def Fault.Documented (f : Fault) : Prop :=
  f.category.documented = true ∧ ∀ kind text, f ≠ .unknownToken kind text

theorem Fault.documented_of_ordinary {f : Fault} (h : f.ordinary = true) : f.Documented := by
  cases f with
  | unknownToken | listExpected | splitOfEmpty | notPrintable | unhashable | missingArgument =>
    cases h
  | _ => exact ⟨rfl, nofun⟩

def Answered (r : Outcome × Session) : Prop :=
  (∃ c text, r.1.result = .ok c ∧ r.2.store.cell c ≠ .absent ∧ r.2.report r.1 = .ok text) ∨
    ∃ f, r.1.result = .error f ∧ r.2.report r.1 = .error f ∧ f.Documented

namespace Session

variable {cfg : Settings} {es : List Call} {s : Session}

structure Sound (s : Session) : Prop where
  built : s.store.Built
  root : s.store.Present (.scope s.root)

theorem sound_start : Sound .start := ⟨Built.empty.addRoot.1, Built.empty.addRoot.2⟩

theorem Sound.restart (h : s.Sound) : s.restart.Sound := ⟨h.built.addRoot.1, h.built.addRoot.2⟩

theorem Sound.run (h : s.Sound) {x : ScopeId → EvalM CellId}
    (hx : safety.Follows ⟨s.store, #[]⟩ (x s.root) (x s.root) safety.value) :
    (s.run x).2.Sound ∧ Answered (s.run x) := by
  obtain ⟨-, hbuilt, hgrows, hvalue, hfault⟩ := hx
  refine ⟨⟨hbuilt, h.root.scope_extends hgrows⟩, ?_⟩
  simp only [Answered, Session.run, Session.report]
  generalize (x s.root).execute ⟨s.store, #[]⟩ = r at hbuilt hvalue hfault
  obtain ⟨result, m⟩ := r
  cases result with
  | ok c =>
    have hc : m.store.Present (.cell c) := hvalue rfl
    exact .inl ⟨c, _, rfl, Present.cell_iff.1 hc, print_tree hbuilt.whole hc⟩
  | error f => exact .inr ⟨f, rfl, rfl, Fault.documented_of_ordinary (hfault rfl)⟩

theorem Sound.eval (h : s.Sound) (cfg : Settings) (code : Text) :
    (s.eval cfg code).2.Sound ∧ Answered (s.eval cfg code) :=
  h.run (Discipline.follows_eval stores_safety cfg h.built h.root code)

theorem Sound.load (h : s.Sound) (cfg : Settings) (code : Text) :
    (s.load cfg code).2.Sound ∧ Answered (s.load cfg code) :=
  h.run (Discipline.follows_load stores_safety cfg h.built h.root code)

theorem sound_invariant (cfg : Settings) :
    HistoryInvariant cfg fun es s ↦ s.Sound ∧ ∀ q ∈ es, q.machine.store.Present (.cell q.cell) where
  start := ⟨sound_start, nofun⟩
  restart h := ⟨h.1.restart, h.2⟩
  emptyList {es s} h := by
    have hgrows := (appends_addList [] s.store).toExtends
    have hnil : ∀ v ∈ ([] : List CellId), s.store.Present (.cell v) := nofun
    exact ⟨⟨(h.1.built.addList hnil).1, h.1.root.scope_extends hgrows⟩, h.2⟩
  store {es s d} trace h hd := by
    obtain ⟨hbuilt, hcell⟩ := h.1.built.load hd
    have hgrows := (Datum.storesWell hd s.store).1.toExtends
    refine ⟨⟨hbuilt, h.1.root.scope_extends hgrows⟩, ?_⟩
    intro q hq
    rcases List.mem_append.1 hq with hq | hq
    · exact h.2 q hq
    · rw [List.mem_singleton.1 hq]
      exact hcell
  eval {es q} hq h := by
    have hfollows := Discipline.evaluators_evalDepth safety cfg cfg.evalDepth h.1.built (h.2 q hq)
      h.1.root
    exact ⟨⟨hfollows.inv, h.1.root.scope_extends hfollows.grows⟩, h.2⟩

theorem Reaches.sound (h : s.Reaches cfg es) : s.Sound := ((sound_invariant cfg).reaches h).1

theorem Begins.safe {q p : Call} {depth : Nat} (h : Begins cfg es q) (hp : q.Hands cfg depth p) :
    safety.Admits p := by
  obtain ⟨hsound, hcells⟩ := (sound_invariant cfg).begins h
  have hq : safety.Admits q := ⟨hsound.built, hcells q h.mem, hsound.root⟩
  exact hq.hands hp

/-- The store can be built at every moment. -/
theorem Moment.built {s : Store} (h : Moment cfg es s) : s.Built := by
  cases h with
  | between reached => exact reached.sound.built
  | called begins hands => exact (begins.safe hands).inv
  | returned begins hands => exact ((begins.safe hands).follows cfg _).inv
  | pushing begins hands pushes => exact ((begins.safe hands).pushes pushes).1
  | pushed begins hands pushes =>
    obtain ⟨hi, hv, l, -, hcell⟩ := (begins.safe hands).pushes pushes
    exact hi.push (hi.whole.handle hcell) hv

end Session

namespace Prompt

variable {s : Session}

def Reply.Documented (r : Reply) : Prop := ∀ f, r.shown = some (.error f) → f.Documented

theorem documented_line (cfg : Settings) (hs : s.Sound) (text : Text) :
    (line cfg s text).1.Documented ∧ (line cfg s text).2.Sound := by
  obtain ⟨hsound, hanswered⟩ := hs.eval cfg text
  unfold line
  split
  case isTrue => exact ⟨nofun, hs⟩
  case isFalse =>
    rcases hanswered with ⟨c, printed, -, -, hreport⟩ | ⟨f, -, hreport, hf⟩
    · simp only [hreport]
      exact ⟨nofun, hsound⟩
    · simp only [hreport]
      refine ⟨?_, hsound.restart⟩
      intro g hg
      cases hg
      exact hf

theorem documented_replies (cfg : Settings) (hs : s.Sound) (texts : List Text) :
    (replies cfg s texts).length = texts.length ∧ ∀ r ∈ replies cfg s texts, r.Documented := by
  induction texts generalizing s with
  | nil => exact ⟨rfl, nofun⟩
  | cons text texts ih =>
    obtain ⟨hreply, hsound⟩ := documented_line cfg hs text
    obtain ⟨hlength, hrest⟩ := ih hsound
    exact ⟨congrArg (· + 1) hlength, List.forall_mem_cons.2 ⟨hreply, hrest⟩⟩

end Prompt

theorem runCode_documented (cfg : Settings) (code : Text) :
    (∃ text, (Service.runCode cfg code).1 = ⟨text, true⟩) ∨
      ∃ f : Fault, (Service.runCode cfg code).1 = ⟨f.diagnostic, false⟩ ∧ f.Documented := by
  obtain ⟨-, hanswered⟩ := Session.sound_start.eval cfg code
  unfold Service.runCode
  rcases hanswered with ⟨c, printed, -, -, hreport⟩ | ⟨f, -, hreport, hf⟩
  · simp only [hreport]
    exact .inl ⟨printed, rfl⟩
  · simp only [hreport]
    exact .inr ⟨f, rfl, hf⟩

/-- Only documented faults escape. After any commands, evaluating or loading any text gives a value
that is there and its text, or a documented fault; the lexer fails only in a string that is not
closed, and its tokens have known kinds. So a submitted program is answered with what it prints or
with a documented diagnostic, and the prompt replies to every line. -/
theorem only_documented_faults (cfg : Settings) :
    (∀ es s, Session.Reaches cfg es s → ∀ code,
      Answered (s.eval cfg code) ∧ Answered (s.load cfg code)) ∧
    (∀ code, (∀ t ∈ (lex code).tokens, t.Known) ∧ ∀ f, (lex code).fault = some f →
      ∃ opened, f = .unterminatedString opened ∧ code[opened]? = some (.scalar '"')) ∧
    (∀ code, (∃ text, (Service.runCode cfg code).1 = ⟨text, true⟩) ∨
      ∃ f : Fault, (Service.runCode cfg code).1 = ⟨f.diagnostic, false⟩ ∧ f.Documented) ∧
    ∀ input, (Prompt.converse cfg input).length = (Prompt.lines input).length ∧
      ∀ r ∈ Prompt.converse cfg input, r.Documented := by
  refine ⟨?_, ?_, runCode_documented cfg, ?_⟩
  · intro es s hs code
    exact ⟨(hs.sound.eval cfg code).2, (hs.sound.load cfg code).2⟩
  · exact fun code ↦ ⟨fun t ↦ known_of_mem_lex, fun f ↦ fault_lex⟩
  · exact fun input ↦ Prompt.documented_replies cfg Session.sound_start (Prompt.lines input)

def afterFailure (cfg : Settings) : Session :=
  Session.start.perform cfg (.load "(def x (list #t)) (push x x) (car #t)")

theorem reaches_afterFailure (cfg : Settings) : ∃ es, Session.Reaches cfg es (afterFailure cfg) :=
  ⟨_, .step (.load "(def x (list #t)) (push x x) (car #t)") .start⟩

/-- The list can still be printed, and what fails does so in a documented way. -/
theorem documented_afterFailure :
    let cfg : Settings := { evalDepth := 3 }
    let r := (afterFailure cfg).eval cfg "x"
    (∃ es, Session.Reaches cfg es (afterFailure cfg)) ∧
      Answered r ∧ (r.2.report r.1).toOption = some ("(#t (...))" : Text) ∧
      Answered ((afterFailure cfg).load cfg "(push x x) (car \"") ∧
      (lex "(\"").fault = some (.unterminatedString 1) ∧
      (∃ opened, Fault.unterminatedString 1 = .unterminatedString opened ∧
        ("(\"" : Text)[opened]? = some (.scalar '"')) ∧
      (Prompt.converse cfg "(car #t)\n\nx").length = 3 := by
  intro cfg r
  obtain ⟨hsession, hlex, -, hprompt⟩ := only_documented_faults cfg
  obtain ⟨es, hreaches⟩ := reaches_afterFailure cfg
  have hfault : (lex "(\"").fault = some (.unterminatedString 1) := rfl
  exact ⟨⟨es, hreaches⟩, (hsession es _ hreaches "x").1, by decide +kernel,
    (hsession es _ hreaches _).2, hfault, (hlex _).2 _ hfault, (hprompt "(car #t)\n\nx").1⟩

end LittleLisp

import LittleLisp.Proofs.Session.LambdaScope
import LittleLisp.Proofs.Session.Safety
import LittleLisp.Proofs.Session.Stretches
import LittleLisp.Proofs.Store.Since

/-!
The scopes of a session. Between two restarts a session uses only what has come to be since the
first of them; so every scope that it can get at lies inside its current root scope, and a name that
has once been found there is found again.
-/

namespace LittleLisp

open Relation Store

section Names

variable {s s' : Store}

theorem mem_names_bind (n : Text) (c : CellId) (l : List (Text × CellId)) :
    n ∈ (bind n c l).map Prod.fst := by
  induction l with
  | nil => exact List.mem_cons_self
  | cons b l ih =>
    rw [bind]
    split
    case isTrue h =>
      rw [← h]
      exact List.mem_cons_self
    case isFalse => exact List.mem_cons_of_mem _ ih

theorem names_addOperators {e : Nat} {x : Scope} (hx : s.scopes[e]? = some x)
    (fns : List FunctionValue) :
    ∃ y, (fns.foldl (addOperator e) s).scopes[e]? = some y ∧ y.outer = x.outer ∧
      x.bindings.map Prod.fst <+: y.bindings.map Prod.fst ∧
      ∀ fn ∈ fns, fn.name ∈ y.bindings.map Prod.fst := by
  induction fns generalizing s x with
  | nil => exact ⟨x, hx, rfl, List.prefix_refl _, nofun⟩
  | cons fn fns ih =>
    have hread : (addOperator e s fn).scopes[e]? =
        some { x with bindings := bind fn.name s.cells.size x.bindings } := by
      simp [addOperator, addCell, Store.define, Array.getElem?_modify, hx]
    obtain ⟨y, hy, houter, hbegins, hnames⟩ := ih hread
    refine ⟨y, hy, houter, (names_bind _ _ _).trans hbegins, ?_⟩
    exact List.forall_mem_cons.2 ⟨hbegins.subset (mem_names_bind _ _ _), hnames⟩

theorem names_addRoot (b : Store) :
    ∃ y, b.addRoot.2.scopes[b.scopes.size]? = some y ∧ y.outer = none ∧
      ∀ fn ∈ rootFunctions, fn.name ∈ y.bindings.map Prod.fst := by
  have hread : (b.addScope none).2.scopes[b.scopes.size]? = some ⟨[], none⟩ := by
    simp [addScope]
  obtain ⟨y, hy, houter, -, hnames⟩ := names_addOperators hread rootFunctions
  exact ⟨y, hy, houter, hnames⟩

theorem isSome_lookup_iff {n : Text} {l : List (Text × CellId)} :
    (l.lookup n).isSome ↔ n ∈ l.map Prod.fst := by
  rw [List.lookup_isSome_iff, List.mem_map]
  simp only [beq_iff_eq, @eq_comm _ n]

theorem Store.KeepsNames.lookup? (h : KeepsNames s s') (hs : s.WellFormed) (hs' : s'.WellFormed)
    {e : Nat} {n : Text} {v : CellId} (hv : s.lookup? e n = some v) :
    ∃ v', s'.lookup? e n = some v' := by
  induction e using Nat.strongRecOn with
  | ind e ih =>
    obtain ⟨x, hx⟩ := exists_scope_of_lookup? hv
    obtain ⟨y, hy, houter, hnames⟩ := h.scope hx
    rw [lookup?_eq hs hx] at hv
    rw [lookup?_eq hs' hy, houter]
    cases hbound : x.bindings.lookup n with
    | some w =>
      have hmem : n ∈ x.bindings.map Prod.fst := isSome_lookup_iff.1 (by rw [hbound]; rfl)
      obtain ⟨w', hw'⟩ := Option.isSome_iff_exists.1 (isSome_lookup_iff.2 (hnames.subset hmem))
      exact ⟨w', by rw [hw', Option.some_or]⟩
    | none =>
      rw [hbound, Option.none_or] at hv
      obtain ⟨o, ho, hv⟩ := Option.bind_eq_some_iff.1 hv
      obtain ⟨v', hv'⟩ := ih o (hs.outer_lt hx ho) hv
      rw [ho]
      cases y.bindings.lookup n with
      | some w => exact ⟨w, rfl⟩
      | none => exact ⟨v', hv'⟩

end Names

/-- What is evaluated, what is a value and what is used as a scope has come to be since `b`. -/
def since (b : Store) : Discipline where
  inv s := s.Built ∧ Since b s
  code s c := New b s (.cell c)
  value s c := New b s (.cell c)
  scope s e := New b s (.scope e)
  code_mono hg hc := ⟨hc.present.cell_extends hg, hc.unknown⟩
  value_mono hg hv := ⟨hv.present.cell_extends hg, hv.unknown⟩
  scope_mono hg he := ⟨he.present.scope_extends hg, he.unknown⟩
  literal _ hc _ := hc
  quoted hi hc hcell :=
    ⟨hi.1.whole.quoted hcell, hi.2.inward hc.unknown ⟨_, content?_of_cell hcell nofun, .inner _⟩⟩
  item hi hc hcell hmem :=
    ⟨hi.1.whole.item hmem,
      hi.2.item hi.1.whole.wellFormed.linked (hi.2.handle hc.unknown hcell) hmem⟩
  lookup hi he hv := ⟨hi.1.whole.lookup hv, hi.2.lookup hi.1.whole.wellFormed he.unknown hv⟩
  callable {s f fn} hi hf hcell := by
    have hcontent := content?_of_cell hcell nofun
    have hcallable := hi.1.whole.callable hcell
    obtain ⟨name, kind, executor⟩ := fn
    cases executor with
    | operator op => cases op <;> exact hcallable
    | closure captured params body =>
      obtain ⟨hkind, hscope, hcode⟩ := hcallable
      exact ⟨hkind, ⟨hscope, hi.2.inward hf.unknown ⟨_, hcontent, .captured _ _ _ _ _⟩⟩,
        ⟨hcode, hi.2.inward hf.unknown ⟨_, hcontent, .body _ _ _ _ _⟩⟩⟩
  first hi hl hcell hsplit := by
    obtain ⟨n, rest, hchain, rfl, -⟩ := chain_of_split? hsplit
    refine ⟨(hi.1.whole.split hsplit).1, ?_⟩
    exact hi.2.item hi.1.whole.wellFormed.linked (hi.2.handle hl.unknown hcell)
      (List.mem_map_of_mem (hchain ▸ List.mem_cons_self))
  addNumber _ hi := ⟨⟨hi.1.addCell nofun nofun nofun, hi.2.addCell nofun⟩,
    ⟨present_addCell nofun, hi.2.unknown content?_new_cell⟩⟩
  addBool _ hi := ⟨⟨hi.1.addCell nofun nofun nofun, hi.2.addCell nofun⟩,
    ⟨present_addCell nofun, hi.2.unknown content?_new_cell⟩⟩
  addClosure n ps hi he hbody := by
    refine ⟨⟨(safety.addClosure n ps hi.1 he.present hbody.present).1, hi.2.addCell ?_⟩,
      ⟨present_addCell nofun, hi.2.unknown content?_new_cell⟩⟩
    intro y hy
    cases hy with
    | captured => exact he.unknown
    | body => exact hbody.unknown
  addList hi hv := by
    obtain ⟨hbuilt, hpresent⟩ := hi.1.addList fun v h ↦ (hv v h).present
    obtain ⟨hsince, hunknown⟩ := hi.2.addList fun v h ↦ (hv v h).unknown
    exact ⟨⟨hbuilt, hsince⟩, ⟨hpresent, hunknown⟩⟩
  addRest {s l v h n} hi hl hcell hsplit := by
    obtain ⟨hbuilt, hpresent⟩ := safety.addRest hi.1 hl.present hcell hsplit
    obtain ⟨first, rest, hchain, -, hn⟩ := chain_of_split? hsplit
    have hmem : n ∈ s.chain h := hchain ▸ List.mem_cons_of_mem _ (List.mem_of_head? hn.symm)
    have hnode := hi.2.chain hi.1.whole.wellFormed.linked (hi.2.handle hl.unknown hcell) n hmem
    refine ⟨⟨hbuilt, hi.2.addListFrom fun k hk ↦ ?_⟩, ⟨hpresent, hi.2.unknown content?_new_cell⟩⟩
    cases hk
    exact hnode
  push hi _ hcell hv := by
    have hhandle := hi.1.whole.handle hcell
    exact ⟨hi.1.push hhandle hv.present, hi.2.push hhandle hv.unknown⟩
  define n hi he hv := ⟨hi.1.define n he.present hv.present, hi.2.define n he.present hv.unknown⟩
  addScope {s e} hi he := by
    obtain ⟨hbuilt, hpresent⟩ := safety.addScope hi.1 he.present
    refine ⟨⟨hbuilt, hi.2.addScope (fun e' h ↦ ?_) nofun⟩,
      ⟨hpresent, hi.2.unknown content?_new_scope⟩⟩
    cases h
    exact he.unknown

theorem stores_since (b : Store) : (since b).Stores := by
  intro s d hi hd
  obtain ⟨hbuilt, hpresent⟩ := hi.1.load hd
  obtain ⟨hsince, hunknown⟩ := hi.2.load hd
  exact ⟨⟨hbuilt, hsince⟩, ⟨hpresent, hunknown⟩⟩

namespace Session

variable {cfg : Settings} {b st : Store} {s : Session} {cs : List Command}

inductive Fresh (cfg : Settings) : Session → Prop
  | start : Fresh cfg .start
  | restart {es : List Call} {s : Session} (reached : s.Reaches cfg es) : Fresh cfg s.restart

/-- What a session has in hand while it performs commands: its root scope, the scopes in which it
evaluates, and the values that evaluations and commands yield. -/
inductive InHand (cfg : Settings) : Session → List Command → Item → Prop
  | root (s : Session) (cs : List Command) : InHand cfg s cs (.scope s.root)
  | frame {s : Session} {c : Command} {q p : Call} {depth : Nat} (cs : List Command)
      (begins : q ∈ s.calls cfg c) (hands : q.Hands cfg depth p) :
      InHand cfg s (c :: cs) (.scope p.scope)
  | value {s : Session} {c : Command} {q p : Call} {depth : Nat} {v : CellId} (cs : List Command)
      (begins : q ∈ s.calls cfg c) (hands : q.Hands cfg depth p)
      (yields : (p.run (evalDepth cfg depth)).1 = .ok v) : InHand cfg s (c :: cs) (.cell v)
  | evaluated {s : Session} {code : Text} {v : CellId} (cs : List Command)
      (yields : (s.eval cfg code).1.result = .ok v) : InHand cfg s (.eval code :: cs) (.cell v)
  | loaded {s : Session} {code : Text} {v : CellId} (cs : List Command)
      (yields : (s.load cfg code).1.result = .ok v) : InHand cfg s (.load code :: cs) (.cell v)
  | later {s : Session} {c : Command} {cs : List Command} {x : Item}
      (inHand : InHand cfg (s.perform cfg c) cs x) : InHand cfg s (c :: cs) x

/-- The session uses only what has come to be since `b`, and its root is the first of it. -/
structure LivesSince (b : Store) (s : Session) : Prop where
  inv : (since b).inv s.store
  scope : (since b).scope s.store s.root
  root : s.root = b.scopes.size

theorem livesSince_addRoot (hb : b.Built) : LivesSince b ⟨b.addRoot.2, b.addRoot.1⟩ where
  inv := ⟨hb.addRoot.1, Since.addRoot b⟩
  scope := ⟨hb.addRoot.2, content?_new_scope⟩
  root := rfl

theorem Fresh.exists_base (h : Fresh cfg s) :
    ∃ b : Store, b.Built ∧ s = ⟨b.addRoot.2, b.addRoot.1⟩ := by
  cases h with
  | start => exact ⟨.empty, .empty, rfl⟩
  | restart reached => exact ⟨_, reached.sound.built, rfl⟩

namespace LivesSince

theorem perform (h : LivesSince b s) {c : Command} (hc : c ≠ .reset) :
    LivesSince b (s.perform cfg c) := by
  cases c with
  | eval code =>
    obtain ⟨-, hinv, hgrows, -⟩ := Discipline.follows_eval (stores_since b) cfg h.inv h.scope code
    exact ⟨hinv, (since b).scope_mono hgrows h.scope, h.root⟩
  | load code =>
    obtain ⟨-, hinv, hgrows, -⟩ := Discipline.follows_load (stores_since b) cfg h.inv h.scope code
    exact ⟨hinv, (since b).scope_mono hgrows h.scope, h.root⟩
  | reset => exact absurd rfl hc

theorem admits (h : LivesSince b s) {c : Command} {q p : Call} {depth : Nat}
    (hq : q ∈ s.calls cfg c) (hp : q.Hands cfg depth p) : (since b).Admits p :=
  (Discipline.admits_calls (stores_since b) cfg h.inv h.scope hq).hands hp

theorem passes (h : LivesSince b s) (hp : Passes cfg s cs st) (hcs : .reset ∉ cs) :
    (since b).inv st := by
  induction hp with
  | between s cs => exact h.inv
  | called cs begins hands => exact (h.admits begins hands).inv
  | returned cs begins hands => exact ((h.admits begins hands).follows cfg _).inv
  | later _ ih =>
    have hc := List.ne_of_not_mem_cons hcs
    exact ih (h.perform hc.symm) (List.not_mem_of_not_mem_cons hcs)

theorem inHand (h : LivesSince b s) {x : Item} (hx : InHand cfg s cs x) (hcs : .reset ∉ cs) :
    b.content? x = none := by
  induction hx with
  | root => exact h.scope.unknown
  | frame cs begins hands => exact (h.admits begins hands).scope.unknown
  | value cs begins hands yields =>
    have hvalue : (since b).value _ _ := ((h.admits begins hands).follows cfg _).result yields
    exact hvalue.unknown
  | evaluated cs yields =>
    have hvalue : (since b).value _ _ :=
      (Discipline.follows_eval (stores_since b) cfg h.inv h.scope _).result yields
    exact hvalue.unknown
  | loaded cs yields =>
    have hvalue : (since b).value _ _ :=
      (Discipline.follows_load (stores_since b) cfg h.inv h.scope _).result yields
    exact hvalue.unknown
  | later _ ih =>
    have hc := List.ne_of_not_mem_cons hcs
    exact ih (h.perform hc.symm) (List.not_mem_of_not_mem_cons hcs)

end LivesSince

theorem stretches_of_hands {q p : Call} {depth : Nat} (h : q.Hands cfg depth p) :
    ReflTransGen (Stretch cfg) q.machine.store p.machine.store := by
  induction h with
  | self => exact .refl
  | part _ makes ih => exact ih.tail (.enter makes)

theorem Passes.stretches (h : Passes cfg s cs st) :
    ReflTransGen (Stretch cfg) s.store st := by
  induction h with
  | between => exact .refl
  | called cs begins hands => exact .head (.begin begins) (stretches_of_hands hands)
  | returned cs begins hands =>
    exact .head (.begin begins) ((stretches_of_hands hands).tail (.run _ _))
  | @later s c cs st _ ih => exact .head (.command s c) ih

theorem keepsNames_of_stretches {st' : Store} (h : ReflTransGen (Stretch cfg) st st') :
    KeepsNames st st' :=
  definesHere.rel_stretches .refl .trans KeepsBindings.keepsNames h

/-- Every session that is reached has been fresh and has performed commands since then. -/
theorem Reaches.exists_fresh {es : List Call} (h : s.Reaches cfg es) :
    ∃ (s₀ : Session) (cs : List Command), s₀.Fresh cfg ∧ .reset ∉ cs ∧
      cs.foldl (fun s c ↦ s.perform cfg c) s₀ = s := by
  induction h with
  | start => exact ⟨.start, [], .start, List.not_mem_nil, rfl⟩
  | @step es s c before ih =>
    by_cases hc : c = .reset
    · subst hc
      exact ⟨s.restart, [], .restart before, List.not_mem_nil, rfl⟩
    · obtain ⟨s₀, cs, hfresh, hcs, rfl⟩ := ih
      refine ⟨s₀, cs ++ [c], hfresh, ?_, by rw [List.foldl_append]; rfl⟩
      simpa [hcs] using Ne.symm hc

end Session

/-- Between two restarts every scope that a session can get at, from its root, from a scope that it
evaluates in or from a value, leads outwards to the current root; the root binds the operators of
the language, whatever they are bound to. Walks outwards end there, also with more steps allowed.
No scope ever changes the scope around it or loses a name, so what has been found is found later. -/
theorem scopes_lead_to_current_root (cfg : Settings) :
    ((rootFunctions.map FunctionValue.name).Nodup ∧ rootFunctions.length = 14) ∧
    (∀ (es : List Call) (s : Session), s.Reaches cfg es →
      ∃ (s₀ : Session) (cs : List Command), s₀.Fresh cfg ∧ .reset ∉ cs ∧
        cs.foldl (fun s c ↦ s.perform cfg c) s₀ = s) ∧
    ∀ (s₀ : Session) (cs : List Command), s₀.Fresh cfg → .reset ∉ cs →
      ∀ st : Store, s₀.Passes cfg cs st →
      (∃ x : Scope, st.scopes[s₀.root]? = some x ∧ x.outer = none ∧
        ∀ fn ∈ rootFunctions, fn.name ∈ x.bindings.map Prod.fst) ∧
      (∀ (x : Item) (e : ScopeId), s₀.InHand cfg cs x → ReflTransGen st.Refers x (.scope e) →
        e < st.scopes.size → ReflTransGen st.Outer e s₀.root ∧
          (st.scopeChain e).getLast?.map Prod.fst = some s₀.root ∧
          ∀ fuel ≥ st.scopes.size, st.scopeChainFrom fuel (some e) = st.scopeChain e) ∧
      ∀ st' : Store, ReflTransGen (Session.Stretch cfg) st st' → s₀.Passes cfg cs st' →
        (∀ (e : ScopeId) (x : Scope), st.scopes[e]? = some x → ∃ y : Scope,
          st'.scopes[e]? = some y ∧ y.outer = x.outer ∧
            x.bindings.map Prod.fst <+: y.bindings.map Prod.fst) ∧
        ∀ (e : ScopeId) (n : Text) (v : CellId), st.lookup? e n = some v →
          ∃ v', st'.lookup? e n = some v' := by
  refine ⟨⟨by decide, rfl⟩, fun es s h ↦ h.exists_fresh, ?_⟩
  intro s₀ cs hfresh hcs st hpasses
  obtain ⟨b, hb, rfl⟩ := hfresh.exists_base
  have hlives := Session.livesSince_addRoot hb
  obtain ⟨hbuilt, hsince⟩ := hlives.passes hpasses hcs
  refine ⟨?_, ?_, ?_⟩
  · obtain ⟨x, hx, hnone, hnames⟩ := names_addRoot b
    obtain ⟨y, hy, houter, hbegins⟩ :=
      (Session.keepsNames_of_stretches hpasses.stretches).scope hx
    exact ⟨y, hy, houter.trans hnone, fun fn hfn ↦ hbegins.subset (hnames fn hfn)⟩
  · intro x e hx hreach he
    have hnew := hsince.reachable (hlives.inHand hx hcs) hreach
    obtain ⟨_, -, -, hlast, hpath⟩ := hsince.scopeChain hbuilt.whole.wellFormed hnew he
    refine ⟨hpath, by rw [hlast]; rfl, fun fuel hf ↦ ?_⟩
    exact scopeChainFrom_fuel hbuilt.whole.wellFormed (Nat.lt_of_lt_of_le he hf) he
  · intro st' hlater hpasses'
    have hkeeps := Session.keepsNames_of_stretches hlater
    obtain ⟨hbuilt', -⟩ := hlives.passes hpasses' hcs
    refine ⟨fun e x hx ↦ hkeeps.scope hx, fun e n v hv ↦ ?_⟩
    exact hkeeps.lookup? hbuilt.whole.wellFormed hbuilt'.whole.wellFormed hv

theorem facts_madeAfterRestart :
    (Session.start.restart.eval { evalDepth := 3 } "(lambda (x) (f x))").1.result.toOption =
        some 36 ∧
      let s := Session.start.restart.perform { evalDepth := 3 } (.eval "(lambda (x) (f x))")
      s.store.scopes.size = 3 ∧ s.store.lookup? 2 "car" = some 21 ∧
        s.store.cell 36 = .function ⟨"lambda", .normal, .closure 2 ["x"] 34⟩ := by
  decide +kernel

/-- A function made after the restart captures the scope 2. This lies inside the new root, not the
old one, and a name found there is found also after the program has bound it to something else. -/
theorem scopes_lead_madeAfterRestart :
    let s₀ := Session.start.restart
    let s := s₀.perform { evalDepth := 3 } (.eval "(lambda (x) (f x))")
    s₀.root = 1 ∧ s.store.cell 36 = .function ⟨"lambda", .normal, .closure 2 ["x"] 34⟩ ∧
      ReflTransGen s.store.Outer 2 s₀.root ∧ s.store.lookup? 2 "car" = some 21 ∧
      ∃ v, (s.perform { evalDepth := 3 } (.eval "(def car 1)")).store.lookup? 2 "car" = some v := by
  have hroot : Session.start.restart.root = 1 := by decide +kernel
  have hfresh : Session.start.restart.Fresh { evalDepth := 3 } := .restart .start
  obtain ⟨hresult, hsize, hcar, hcell⟩ := facts_madeAfterRestart
  -- Nothing else about the session is used, so it is not unfolded from here on.
  generalize Session.start.restart = s₀ at hroot hfresh hresult hsize hcar hcell ⊢
  have hyields : (s₀.eval { evalDepth := 3 } "(lambda (x) (f x))").1.result = .ok 36 := by
    generalize (s₀.eval { evalDepth := 3 } "(lambda (x) (f x))").1.result = r at hresult
    cases r with
    | error => cases hresult
    | ok v => exact congrArg Except.ok (Option.some.inj hresult)
  have hcs : Command.reset ∉ [.eval "(lambda (x) (f x))", .eval "(def car 1)"] := by simp
  obtain ⟨-, hscopes, hlater⟩ := (scopes_lead_to_current_root { evalDepth := 3 }).2.2 s₀ _ hfresh
    hcs _ (.later (.between _ _))
  refine ⟨hroot, hcell, ?_, hcar, ?_⟩
  · refine (hscopes (.cell 36) 2 (.evaluated _ hyields) ?_ (by rw [hsize]; decide)).1
    exact .single ⟨_, content?_of_cell hcell nofun, .captured _ _ _ _ _⟩
  · exact (hlater _ (.single (.command _ _)) (.later (.later (.between _ _)))).2 2 "car" 21 hcar

end LittleLisp

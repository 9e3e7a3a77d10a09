import LittleLisp.Proofs.Evaluator.Effects

namespace LittleLisp

open EvalM

namespace Store

theorem names_bind (n : Text) (c : CellId) (l : List (Text × CellId)) :
    l.map Prod.fst <+: (bind n c l).map Prod.fst := by
  induction l with
  | nil => exact List.nil_prefix
  | cons b l ih =>
    rw [bind]
    split
    · exact List.prefix_refl _
    · exact (List.prefix_cons_inj b.1).2 ih

/-- The scopes of `s` are there in `s'` with the scopes around them and, apart from `e`, with their
bindings; `e` has at least its names. -/
structure KeepsBindings (e : ScopeId) (s s' : Store) : Prop where
  scopes_le : s.scopes.size ≤ s'.scopes.size
  scope : ∀ {a : Nat} {x : Scope}, s.scopes[a]? = some x → ∃ y, s'.scopes[a]? = some y ∧
    y.outer = x.outer ∧ (a ≠ e → y.bindings = x.bindings) ∧
      x.bindings.map Prod.fst <+: y.bindings.map Prod.fst

namespace KeepsBindings

variable {e frame : ScopeId} {s s' s'' : Store}

theorem of_scopes (h : s'.scopes = s.scopes) : KeepsBindings e s s' where
  scopes_le := Nat.le_of_eq (by rw [h])
  scope {a x} hx := ⟨x, h ▸ hx, rfl, fun _ ↦ rfl, List.prefix_refl _⟩

theorem inner (h : KeepsBindings e s s') (hf : frame = e ∨ s.scopes.size ≤ frame)
    (h' : KeepsBindings frame s' s'') : KeepsBindings e s s'' where
  scopes_le := Nat.le_trans h.scopes_le h'.scopes_le
  scope {a x} hx := by
    obtain ⟨y, hy, houter, hkeep, hnames⟩ := h.scope hx
    obtain ⟨z, hz, houter', hkeep', hnames'⟩ := h'.scope hy
    refine ⟨z, hz, houter'.trans houter, fun ha ↦ ?_, hnames.trans hnames'⟩
    have hne : a ≠ frame := by
      rcases hf with rfl | hf
      · exact ha
      · exact Nat.ne_of_lt (Nat.lt_of_lt_of_le (Array.getElem?_eq_some_iff.1 hx).1 hf)
    exact (hkeep' hne).trans (hkeep ha)

theorem scope_eq (h : KeepsBindings e s s') {a : Nat} {x : Scope} (hx : s.scopes[a]? = some x)
    (ha : a ≠ e) : s'.scopes[a]? = some x := by
  obtain ⟨⟨bindings, outer⟩, hy, houter, hkeep, -⟩ := h.scope hx
  obtain ⟨bindings', outer'⟩ := x
  cases houter
  cases hkeep ha
  exact hy

theorem addScope (e : ScopeId) (s : Store) (outer : Option ScopeId) :
    KeepsBindings e s (s.addScope outer).2 where
  scopes_le := (extends_addScope outer s).scopes
  scope {_ x} hx := ⟨x, getElem?_push_of_some hx, rfl, fun _ ↦ rfl, List.prefix_refl _⟩

theorem define (e : ScopeId) (s : Store) (n : Text) (v : CellId) :
    KeepsBindings e s (s.define e n v) where
  scopes_le := (extends_define e n v s).scopes
  scope {a x} hx := by
    by_cases ha : e = a
    · subst ha
      refine ⟨{ x with bindings := bind n v x.bindings }, ?_, rfl, fun h ↦ absurd rfl h, ?_⟩
      · simp [Store.define, Array.getElem?_modify, hx]
      · exact names_bind n v x.bindings
    · refine ⟨x, ?_, rfl, fun _ ↦ rfl, List.prefix_refl _⟩
      simp [Store.define, Array.getElem?_modify, ha, hx]

end KeepsBindings

/-- What holds of every stretch, whatever the scope: names are never taken away. -/
structure KeepsNames (s s' : Store) : Prop where
  scope : ∀ {a : Nat} {x : Scope}, s.scopes[a]? = some x → ∃ y, s'.scopes[a]? = some y ∧
    y.outer = x.outer ∧ x.bindings.map Prod.fst <+: y.bindings.map Prod.fst

namespace KeepsNames

variable {s s' s'' : Store}

theorem refl (s : Store) : KeepsNames s s where
  scope {_ x} hx := ⟨x, hx, rfl, List.prefix_refl _⟩

theorem trans (h : KeepsNames s s') (h' : KeepsNames s' s'') : KeepsNames s s'' where
  scope hx := by
    obtain ⟨y, hy, houter, hnames⟩ := h.scope hx
    obtain ⟨z, hz, houter', hnames'⟩ := h'.scope hy
    exact ⟨z, hz, houter'.trans houter, hnames.trans hnames'⟩

theorem eq_of_empty (h : KeepsNames s s') {a : Nat} {x : Scope} {o : Option ScopeId}
    (hx : s.scopes[a]? = some x) (hend : s'.scopes[a]? = some ⟨[], o⟩) : x = ⟨[], o⟩ := by
  obtain ⟨y, hy, houter, hnames⟩ := h.scope hx
  obtain ⟨bindings, outer⟩ := x
  cases hy.symm.trans hend
  cases houter
  have hnil : bindings = [] := by simpa using hnames
  rw [hnil]

end KeepsNames

theorem KeepsBindings.keepsNames {e : ScopeId} {s s' : Store} (h : KeepsBindings e s s') :
    KeepsNames s s' where
  scope hx := by
    obtain ⟨y, hy, houter, -, hnames⟩ := h.scope hx
    exact ⟨y, hy, houter, hnames⟩

def definesHere : Effect where
  rel := KeepsBindings
  refl _ _ := .of_scopes rfl
  trans h h' := h.inner (.inl rfl) h'
  scopes_le h := h.scopes_le
  inner h hf h' := h.inner (.inr hf) h'
  addCell _ _ _ := .of_scopes rfl
  addList _ s vs := .of_scopes (addList_scopes vs s)
  addRest _ _ := .of_scopes rfl
  push _ s h v := .of_scopes (push_scopes s h v)
  addScope := .addScope
  define := .define

end Store

open Store

theorem invoke_closure_scope (cfg : Settings) (eval : Evaluate) {fn : FunctionValue}
    {captured : ScopeId} {params : List Text} {body : CellId}
    (hx : fn.executor = .closure captured params body) (e e' : ScopeId) (args : List CellId) :
    invoke cfg eval fn e args = invoke cfg eval fn e' args := by
  simp only [invoke, hx]

theorem scopes_invoke_closure (cfg : Settings) (depth : Nat) {fn : FunctionValue}
    {captured : ScopeId} {params : List Text} {body : CellId}
    (hx : fn.executor = .closure captured params body) (e : ScopeId) (args : List CellId)
    (m : Machine) {a : Nat} {x : Scope} (ha : m.store.scopes[a]? = some x) :
    ((invoke cfg (evalDepth cfg depth) fn e args).execute m).2.store.scopes[a]? = some x := by
  -- The call might as well be made in a scope that does not exist yet.
  rw [invoke_closure_scope cfg _ hx e m.store.scopes.size]
  have hsame : Effect.AgreeOff ⟨0, 0, m⟩ (evalDepth cfg depth) (evalDepth cfg depth) :=
    fun _ _ ↦ rfl
  have hne : a ≠ m.store.scopes.size := Nat.ne_of_lt (Array.getElem?_eq_some_iff.1 ha).1
  exact (Effect.tracks_invoke (definesHere.sound_evalDepth cfg depth) hsame cfg fn).effect.scope_eq
    ha hne

/-- A call never changes an existing binding. Evaluating a cell in a scope, whatever the outcome,
leaves every scope that was there with the scope around it; apart from the current scope all have
the same bindings, and the current scope has its names and perhaps more. Calling a closure, from
any scope and with any arguments, leaves every scope that was there exactly as it was. -/
theorem evaluation_keeps_bindings (cfg : Settings) :
    (∀ (q : Call) (a : ScopeId) (x : Scope), q.machine.store.scopes[a]? = some x →
      ∃ y, (q.run (evaluate cfg)).2.store.scopes[a]? = some y ∧ y.outer = x.outer ∧
        (a ≠ q.scope → y.bindings = x.bindings) ∧
        x.bindings.map Prod.fst <+: y.bindings.map Prod.fst) ∧
    ∀ (depth : Nat) (fn : FunctionValue) (captured : ScopeId) (params : List Text)
      (body : CellId) (site : ScopeId) (args : List CellId) (m : Machine),
      fn.executor = .closure captured params body →
      ∀ (a : ScopeId) (x : Scope), m.store.scopes[a]? = some x →
        ((invoke cfg (evalDepth cfg depth) fn site args).execute m).2.store.scopes[a]? =
          some x := by
  refine ⟨?_, ?_⟩
  · intro q a x hx
    exact (definesHere.sound_evalDepth cfg cfg.evalDepth q).scope hx
  · intro depth fn captured params body site args m hfn a x hx
    exact scopes_invoke_closure cfg depth hfn site args m hx

def shadowing : Call :=
  let s := (Store.empty.addRoot.2.addScope (some 0)).2
  let (c, s) := Store.load (.list [.atom "def", .atom "car", .bool true]) s
  ⟨c, 1, ⟨s, #[]⟩⟩

def threeDeep : Settings := { evalDepth := 3 }

/-- The definition is made in the inner scope; made by a closure, it is made in neither. -/
theorem shadowing_keeps_root :
    ∃ root y, shadowing.machine.store.scopes[0]? = some root ∧
      shadowing.machine.store.scopes[1]? = some ⟨[], some 0⟩ ∧
      (shadowing.run (evaluate threeDeep)).2.store.names 1 = [("car" : Text)] ∧
      (shadowing.run (evaluate threeDeep)).2.store.scopes[0]? = some y ∧
      y.outer = none ∧ y.bindings = root.bindings ∧
      ((invoke threeDeep (evalDepth threeDeep 2) ⟨"f", .normal, .closure 1 [] shadowing.cell⟩ 1
        []).execute shadowing.machine).2.store.scopes[1]? = some ⟨[], some 0⟩ := by
  obtain ⟨hevaluate, hinvoke⟩ := evaluation_keeps_bindings threeDeep
  have hinner : shadowing.machine.store.scopes[1]? = some ⟨[], some 0⟩ := by decide +kernel
  have hroot : shadowing.machine.store.scopes[0]? =
      some ⟨shadowing.machine.store.bindings 0, none⟩ := by decide +kernel
  obtain ⟨y, hy, houter, hkeep, -⟩ := hevaluate shadowing 0 _ hroot
  exact ⟨_, y, hroot, hinner, by decide +kernel, hy, houter, hkeep (by decide),
    hinvoke 2 _ 1 [] shadowing.cell 1 [] shadowing.machine rfl 1 _ hinner⟩

end LittleLisp

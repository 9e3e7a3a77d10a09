import LittleLisp.Proofs.Evaluator.Bindings
import LittleLisp.Proofs.Session.Chains
import LittleLisp.Proofs.Session.Safety
import LittleLisp.Proofs.Store.Lookup

namespace LittleLisp

open Relation Store

section Bindings

variable (n : Text) (bound : List (Text × CellId))

def bindAll : List (Text × CellId) := bound.foldl (fun l p ↦ bind p.1 p.2 l) []

theorem bindAll_concat (p : Text × CellId) :
    bindAll (bound ++ [p]) = bind p.1 p.2 (bindAll bound) :=
  List.foldl_concat ..

theorem lookup_bindAll : (bindAll bound).lookup n = bound.reverse.lookup n := by
  induction bound using List.reverseRecOn with
  | nil => rfl
  | append_singleton bound p ih =>
    rw [bindAll_concat, lookup_bind, ih, List.reverse_concat, lookup_cons_eq]

theorem map_fst_bindAll : (bindAll bound).map Prod.fst = (bound.map Prod.fst).eraseDups := by
  induction bound using List.reverseRecOn with
  | nil => rfl
  | append_singleton bound p ih =>
    rw [bindAll_concat, map_fst_bind, ih, List.map_append, List.eraseDups_append]
    by_cases hp : p.1 ∈ bound.map Prod.fst
    · simp [hp, List.removeAll]
    · simp [hp, List.removeAll, List.eraseDups_cons]

variable {n} {ps : List Text} {vs : List CellId}

theorem lookup_reverse_zip_of_notMem (hn : n ∉ ps) : (ps.zip vs).reverse.lookup n = none := by
  rw [lookup_eq_none_iff_notMem, List.map_reverse, List.mem_reverse]
  intro hmem
  obtain ⟨b, hb, rfl⟩ := List.mem_map.1 hmem
  exact hn (List.of_mem_zip hb).1

/-- The argument at the last position of a name is found. -/
theorem lookup_reverse_zip {i : Nat} {v : CellId} (hn : ps[i]? = some n) (hv : vs[i]? = some v)
    (hlast : ∀ j, i < j → ps[j]? ≠ some n) : (ps.zip vs).reverse.lookup n = some v := by
  induction ps generalizing vs i with
  | nil => cases hn
  | cons p ps ih =>
    cases vs with
    | nil => cases hv
    | cons w vs =>
      rw [List.zip_cons_cons, List.reverse_cons, List.lookup_append]
      cases i with
      | zero =>
        obtain rfl : p = n := Option.some.inj hn
        obtain rfl : w = v := Option.some.inj hv
        have hnew : p ∉ ps := by
          intro hmem
          obtain ⟨j, hj⟩ := List.mem_iff_getElem?.1 hmem
          exact hlast (j + 1) (Nat.succ_pos j) hj
        rw [lookup_reverse_zip_of_notMem hnew, Option.none_or, lookup_cons_eq, if_pos rfl]
      | succ i =>
        have hrest := ih hn hv fun j hj ↦ hlast (j + 1) (Nat.succ_lt_succ hj)
        rw [hrest, Option.some_or]

end Bindings

namespace Store

variable {s s' : Store} {captured f : ScopeId} {es : List ScopeId} {n : Text}

theorem define_last (s : Store) (x : Scope) (n : Text) (v : CellId) :
    { s with scopes := s.scopes.push x }.define s.scopes.size n v =
      { s with scopes := s.scopes.push { x with bindings := bind n v x.bindings } } := by
  rw [Store.define]
  congr 1
  refine Array.ext_getElem? fun a ↦ ?_
  rw [Array.getElem?_modify, Array.getElem?_push, Array.getElem?_push]
  split
  case isTrue ha => rw [if_pos ha.symm, if_pos ha.symm]; rfl
  case isFalse ha => rw [if_neg (Ne.symm ha), if_neg (Ne.symm ha)]

theorem addFrame_eq (captured : ScopeId) (bound : List (Text × CellId)) (s : Store) :
    s.addFrame captured bound =
      (s.scopes.size, { s with scopes := s.scopes.push ⟨bindAll bound, some captured⟩ }) := by
  rw [addFrame]
  refine Prod.ext rfl ?_
  show bound.foldl (fun t p ↦ t.define s.scopes.size p.1 p.2) (s.addScope (some captured)).2 = _
  induction bound using List.reverseRecOn with
  | nil => rfl
  | append_singleton bound p ih =>
    rw [List.foldl_concat, ih, define_last, bindAll_concat]

theorem Outward.lookup?_of_notMem (h : s.Outward (some f) (f :: es))
    (h' : s.Outward (some captured) es) (hn : n ∉ s.names f) :
    s.lookup? f n = s.lookup? captured n := by
  rw [h.lookup?_eq, h'.lookup?_eq, List.findSome?_cons, (lookup_eq_none_iff_notMem n _).2 hn]

theorem Step.keepsNames (h : Step s s') : KeepsNames s s' := by
  cases h with
  | addCell x => exact (definesHere.addCell 0 s x).keepsNames
  | addList vs => exact (definesHere.addList 0 s vs).keepsNames
  | addRest split => exact (definesHere.addRest 0 split).keepsNames
  | push h v => exact (definesHere.push 0 s h v).keepsNames
  | addScope outer => exact (definesHere.addScope 0 s outer).keepsNames
  | define e n v => exact (definesHere.define e s n v).keepsNames

theorem Run.keepsNames (h : Run s s') : KeepsNames s s' := by
  induction h with
  | refl => exact .refl s
  | tail _ step ih => exact ih.trans step.keepsNames

theorem Outward.run {o : Option ScopeId} (h : s.Outward o es) (hrun : Run s s') :
    s'.Outward o es := by
  refine h.keep fun hx ↦ ?_
  obtain ⟨y, hy, houter, -⟩ := hrun.keepsNames.scope hx
  exact ⟨y, hy, houter⟩

/-- The scope `frame` is what a call makes of the store `s`, which becomes `s'`. The last field is
about every later store. -/
structure FrameFor (s s' : Store) (captured : ScopeId) (params : List Text) (args : List CellId)
    (frame : ScopeId) : Prop where
  new : frame = s.scopes.size
  only : s'.scopes.size = s.scopes.size + 1
  others : ∀ a < s.scopes.size, s'.scopes[a]? = s.scopes[a]?
  names : s'.names frame = params.eraseDups
  bound : ∀ (i : Nat) (n : Text) (v : CellId), params[i]? = some n → args[i]? = some v →
    (∀ j, i < j → params[j]? ≠ some n) → s'.lookup frame n = .ok v
  free : ∀ t, Run s' t → ∀ n, n ∉ t.names frame → t.lookup frame n = t.lookup captured n

theorem Outward.frameFor (h : s.Outward (some captured) es) {params : List Text}
    {args : List CellId} (hlen : params.length = args.length) :
    FrameFor s (s.addFrame captured (params.zip args)).2 captured params args
      (s.addFrame captured (params.zip args)).1 := by
  rw [addFrame_eq]
  generalize hs' : { s with scopes := s.scopes.push ⟨bindAll (params.zip args), some captured⟩ } = s'
  have hread : s'.scopes[s.scopes.size]? = some ⟨bindAll (params.zip args), some captured⟩ := by
    rw [← hs', Array.getElem?_push, if_pos rfl]
  have hbindings : s'.bindings s.scopes.size = bindAll (params.zip args) := by
    rw [bindings, hread]
  have hcaptured : s'.Outward (some captured) es := by
    refine h.keep fun {a x} hx ↦ ⟨x, ?_, rfl⟩
    rw [← hs']
    exact getElem?_push_of_some hx
  have hframe : s'.Outward (some s.scopes.size) (s.scopes.size :: es) := .cons hread hcaptured
  refine ⟨rfl, ?_, fun a ha ↦ ?_, ?_, fun i n v hn hv hlast ↦ ?_, fun t hrun n hn ↦ ?_⟩
  · rw [← hs', Array.size_push]
  · rw [← hs', Array.getElem?_push, if_neg (Nat.ne_of_lt ha)]
  · rw [names, hbindings, map_fst_bindAll, List.map_fst_zip (Nat.le_of_eq hlen)]
  · apply lookup_of_lookup?
    rw [hframe.lookup?_eq, List.findSome?_cons, hbindings, lookup_bindAll,
      lookup_reverse_zip hn hv hlast]
  · exact lookup_congr ((hframe.run hrun).lookup?_of_notMem (hcaptured.run hrun) hn)

end Store

/-- Names inside a call. With the wrong number of arguments a call fails and leaves everything as it
is. Otherwise it makes one new scope and changes no other. There a parameter means the argument at
its last position, the names are the parameters in the order of their first positions, and every
name that the new scope does not bind means what it means in the captured scope, then and in all that
follows. What follows is a run of single operations, whatever a session and its host do; at every
moment of a session each scope has its way outwards. -/
theorem frames_resolve_names :
    (∀ s s' : Store, ReflTransGen Happens s s' → Run s s') ∧
    (∀ cfg es s, Session.Moment cfg es s → ∀ f < s.scopes.size, ∃ es, s.Outward (some f) es) ∧
    ∀ (captured : ScopeId) (params : List Text) (args : List CellId) (m : Machine),
      (params.length ≠ args.length →
        (bindArguments captured params args).execute m =
          (.error (.argumentCount params args.length), m) ∧
        (Fault.argumentCount params args.length).category = .arity) ∧
      (params.length = args.length → ∀ es, m.store.Outward (some captured) es → ∃ frame s',
        (bindArguments captured params args).execute m = (.ok frame, { m with store := s' }) ∧
          FrameFor m.store s' captured params args frame) := by
  refine ⟨fun s s' ↦ run_of_happens, fun cfg es s h f ↦ h.built.whole.wellFormed.exists_outward, ?_⟩
  intro captured params args m
  refine ⟨fun hlen ↦ ?_, fun hlen es hes ↦ ?_⟩
  · refine ⟨?_, rfl⟩
    rw [bindArguments, if_neg hlen]
    rfl
  · refine ⟨_, _, ?_, hes.frameFor hlen⟩
    rw [bindArguments, if_pos hlen]
    rfl

def repeatedParams : List Text := ["x", "z", "x"]

def repeatedCall : Store := (twiceBound.addFrame 2 (repeatedParams.zip [5, 6, 7])).2

/-- Of the repeated parameter the last argument counts. A name that is rebound in an outer scope
after the call is seen with its new value, and a call with one argument fails. -/
theorem frames_resolve_repeatedCall :
    twiceBound.Outward (some 2) [2, 1, 0] ∧ twiceBound.lookup 2 "x" = .ok 3 ∧
      (bindArguments 2 repeatedParams [5, 6, 7]).execute ⟨twiceBound, #[]⟩ =
        (.ok 4, ⟨repeatedCall, #[]⟩) ∧
      repeatedCall.names 4 = [("x" : Text), ("z" : Text)] ∧ repeatedCall.lookup 4 "x" = .ok 7 ∧
      (repeatedCall.define 0 "y" 9).lookup 4 "y" = .ok 9 ∧
      (bindArguments 2 repeatedParams [5]).execute ⟨twiceBound, #[]⟩ =
        (.error (.argumentCount repeatedParams 1), ⟨twiceBound, #[]⟩) := by
  obtain ⟨-, -, hbind⟩ := frames_resolve_names
  have hway : twiceBound.Outward (some 2) [2, 1, 0] := .cons rfl (.cons rfl (.cons rfl .nil))
  have hfail := (hbind 2 repeatedParams [5] ⟨twiceBound, #[]⟩).1 (by decide)
  have hcall : (bindArguments 2 repeatedParams [5, 6, 7]).execute ⟨twiceBound, #[]⟩ =
      (.ok 4, ⟨repeatedCall, #[]⟩) := rfl
  obtain ⟨frame, s', hrun, hframe⟩ :=
    (hbind 2 repeatedParams [5, 6, 7] ⟨twiceBound, #[]⟩).2 rfl _ hway
  obtain ⟨hscope, hmachine⟩ := Prod.mk.inj (hcall.symm.trans hrun)
  obtain rfl : 4 = frame := Except.ok.inj hscope
  obtain rfl : repeatedCall = s' := congrArg Machine.store hmachine
  refine ⟨hway, rfl, hcall, hframe.names, ?_, ?_, hfail.1⟩
  · refine hframe.bound 2 "x" 7 rfl rfl fun j hj ↦ ?_
    rw [List.getElem?_eq_none hj]
    exact (Option.some_ne_none _).symm
  · have hdefined : Run repeatedCall (repeatedCall.define 0 "y" 9) := .single (.define _ 0 "y" 9)
    exact hframe.free _ hdefined "y" (by decide)

end LittleLisp

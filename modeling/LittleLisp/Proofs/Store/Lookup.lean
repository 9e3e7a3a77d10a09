import LittleLisp.Proofs.Evaluator.Execution
import LittleLisp.Proofs.Store.WellFormed

namespace LittleLisp

section Bindings

variable (n m : Text) (v : CellId) (l : List (Text × CellId))

theorem lookup_cons_eq (b : Text × CellId) :
    (b :: l).lookup n = if n = b.1 then some b.2 else l.lookup n := by
  rw [List.lookup_cons]
  by_cases h : n = b.1
  · rw [h, beq_self_eq_true, if_pos rfl]
  · rw [beq_eq_false_iff_ne.2 h, if_neg h]

theorem lookup_bind : (bind n v l).lookup m = if m = n then some v else l.lookup m := by
  induction l with
  | nil => exact lookup_cons_eq m [] (n, v)
  | cons b l ih =>
    rw [bind]
    split
    case isTrue hb =>
      rw [lookup_cons_eq, lookup_cons_eq, hb]
      split <;> rfl
    case isFalse hb =>
      rw [lookup_cons_eq, lookup_cons_eq, ih]
      by_cases hm : m = n
      · have hne : m ≠ b.1 := fun h ↦ hb (h.symm.trans hm)
        simp only [if_neg hne, if_pos hm]
      · simp only [if_neg hm]

theorem map_fst_bind :
    (bind n v l).map Prod.fst =
      if n ∈ l.map Prod.fst then l.map Prod.fst else l.map Prod.fst ++ [n] := by
  induction l with
  | nil => rfl
  | cons b l ih =>
    rw [bind]
    by_cases hb : b.1 = n
    · simp [hb]
    · have hne : n ≠ b.1 := Ne.symm hb
      simp only [hb, if_false, List.map_cons, ih, List.mem_cons, hne, false_or]
      split <;> rfl

theorem lookup_eq_none_iff_notMem : l.lookup n = none ↔ n ∉ l.map Prod.fst := by
  rw [List.lookup_eq_none_iff, List.mem_map, not_exists]
  refine forall_congr' fun b ↦ ?_
  rw [not_and, bne_iff_ne]
  exact ⟨fun h hb heq ↦ h hb heq.symm, fun h hb heq ↦ h hb heq.symm⟩

end Bindings

namespace Store

variable {s s' : Store} {e f : ScopeId} {o : Option ScopeId} {es es' : List ScopeId} {n : Text}

/-- The scopes from `o` to the outermost one. -/
inductive Outward (s : Store) : Option ScopeId → List ScopeId → Prop
  | nil : Outward s none []
  | cons {e : Nat} {x : Scope} {es : List ScopeId} (read : s.scopes[e]? = some x)
      (rest : Outward s x.outer es) : Outward s (some e) (e :: es)

namespace Outward

theorem unique (h : s.Outward o es) (h' : s.Outward o es') : es = es' := by
  induction h generalizing es' with
  | nil => cases h'; rfl
  | cons read rest ih =>
    cases h' with
    | cons read' rest' =>
      cases read.symm.trans read'
      rw [ih rest']

theorem mem_lt (h : s.Outward o es) (he : e ∈ es) : e < s.scopes.size := by
  induction h with
  | nil => cases he
  | cons read rest ih =>
    rcases List.mem_cons.1 he with rfl | he
    · exact (Array.getElem?_eq_some_iff.1 read).1
    · exact ih he

theorem from_mem (h : s.Outward o es) (he : e ∈ es) :
    ∃ es', s.Outward (some e) es' ∧ es'.length ≤ es.length := by
  induction h with
  | nil => cases he
  | cons read rest ih =>
    rcases List.mem_cons.1 he with rfl | he
    · exact ⟨_, .cons read rest, Nat.le_refl _⟩
    · obtain ⟨es', hes', hle⟩ := ih he
      exact ⟨es', hes', Nat.le_succ_of_le hle⟩

/-- No scope lies around itself: it would be followed by all that follows it twice. -/
theorem nodup (h : s.Outward o es) : es.Nodup := by
  induction h with
  | nil => exact List.nodup_nil
  | @cons e x es read rest ih =>
    refine List.nodup_cons.2 ⟨fun he ↦ ?_, ih⟩
    obtain ⟨es', hes', hle⟩ := rest.from_mem he
    rw [← (Outward.cons read rest).unique hes'] at hle
    exact Nat.not_succ_le_self _ hle

theorem length_le (h : s.Outward o es) : es.length ≤ s.scopes.size := by
  cases h with
  | nil => exact Nat.zero_le _
  | cons read rest =>
    have hwhole := Outward.cons read rest
    exact length_lt_of_nodup hwhole.nodup fun _ ↦ hwhole.mem_lt

theorem keep (h : s.Outward o es) (hkeep : ∀ {a : Nat} {x : Scope}, s.scopes[a]? = some x →
    ∃ y, s'.scopes[a]? = some y ∧ y.outer = x.outer) : s'.Outward o es := by
  induction h with
  | nil => exact .nil
  | cons read rest ih =>
    obtain ⟨y, hy, houter⟩ := hkeep read
    exact .cons hy (houter ▸ ih)

theorem findSome?_scopeChainFrom (h : s.Outward o es) {fuel : Nat} (hf : es.length ≤ fuel) :
    ((s.scopeChainFrom fuel o).findSome? fun p ↦ p.2.bindings.lookup n) =
      es.findSome? fun a ↦ (s.bindings a).lookup n := by
  induction h generalizing fuel with
  | nil => cases fuel <;> rfl
  | cons read rest ih =>
    cases fuel with
    | zero => cases hf
    | succ fuel =>
      simp only [scopeChainFrom, read, List.findSome?_cons, bindings,
        ih (Nat.le_of_succ_le_succ hf)]

theorem lookup?_eq (h : s.Outward (some f) es) (n : Text) :
    s.lookup? f n = es.findSome? fun a ↦ (s.bindings a).lookup n :=
  h.findSome?_scopeChainFrom h.length_le

end Outward

theorem WellFormed.exists_outward (hs : s.WellFormed) {f : Nat} (hf : f < s.scopes.size) :
    ∃ es, s.Outward (some f) es := by
  induction f using Nat.strongRecOn with
  | ind f ih =>
    have hread : s.scopes[f]? = some s.scopes[f] := Array.getElem?_eq_getElem hf
    cases houter : s.scopes[f].outer with
    | none => exact ⟨[f], .cons hread (houter ▸ .nil)⟩
    | some o =>
      have ho : o < f := hs.outer_lt hread houter
      obtain ⟨es, hes⟩ := ih o ho (Nat.lt_trans ho hf)
      exact ⟨f :: es, .cons hread (houter ▸ hes)⟩

def lookup (s : Store) (e : ScopeId) (name : Text) : Except Fault CellId :=
  match s.lookup? e name with
  | some c => .ok c
  | none => .error (.unbound name)

theorem lookup_of_lookup? {v : CellId} (h : s.lookup? e n = some v) : s.lookup e n = .ok v := by
  rw [lookup, h]

theorem lookup_congr (h : s.lookup? e n = s'.lookup? f n) : s.lookup e n = s'.lookup f n := by
  rw [lookup, lookup, h]

theorem execute_atom (cfg : Settings) (eval : Evaluate) {m : Machine} {c : CellId}
    (hc : m.store.cell c = .atom n) :
    ∃ trace, (evalStep cfg eval c e).execute m =
      (m.store.lookup e n, { m with trace := trace }) := by
  have hevent : (pure (.lookup n) : EvalM Event).execute m = (.ok (.lookup n), m) := rfl
  obtain ⟨trace, htrace⟩ := EvalM.execute_traceEvent cfg hevent
  refine ⟨trace, ?_⟩
  rw [evalStep, EvalM.execute_bind_ok (EvalM.execute_cell c)]
  simp only [hc]
  rw [EvalM.execute_bind_ok htrace, EvalM.execute_bind_ok EvalM.execute_getStore, lookup]
  cases m.store.lookup? e n <;> rfl

/-- Among the scopes `es`, from the innermost outwards, is `e`, and none before it binds the
name. -/
def Unshadowed (s : Store) (es : List ScopeId) (e : ScopeId) (n : Text) : Prop :=
  ∃ before after, es = before ++ e :: after ∧ ∀ a ∈ before, n ∉ s.names a

section Definitions

variable (n : Text) (v : CellId)

theorem getElem?_scopes_define (e a : ScopeId) :
    (s.define e n v).scopes[a]? =
      if e = a then s.scopes[a]?.map fun x ↦ { x with bindings := bind n v x.bindings }
      else s.scopes[a]? :=
  Array.getElem?_modify ..

theorem bindings_define_self (he : e < s.scopes.size) :
    (s.define e n v).bindings e = bind n v (s.bindings e) := by
  rw [bindings, bindings, getElem?_scopes_define, if_pos rfl, Array.getElem?_eq_getElem he]
  rfl

theorem bindings_define_of_ne {a : ScopeId} (ha : a ≠ e) :
    (s.define e n v).bindings a = s.bindings a := by
  rw [bindings, bindings, getElem?_scopes_define, if_neg ha.symm]

theorem names_define (he : e < s.scopes.size) :
    (s.define e n v).names e = if n ∈ s.names e then s.names e else s.names e ++ [n] := by
  rw [names, bindings_define_self n v he, map_fst_bind]
  rfl

theorem findSome?_define (he : e < s.scopes.size) {m : Text} (hes : m = n → e ∉ es) :
    (es.findSome? fun a ↦ ((s.define e n v).bindings a).lookup m) =
      es.findSome? fun a ↦ (s.bindings a).lookup m := by
  induction es with
  | nil => rfl
  | cons a es ih =>
    have hfirst : ((s.define e n v).bindings a).lookup m = (s.bindings a).lookup m := by
      by_cases ha : a = e
      · subst ha
        rw [bindings_define_self n v he, lookup_bind, if_neg fun hm ↦ hes hm List.mem_cons_self]
      · rw [bindings_define_of_ne n v ha]
    rw [List.findSome?_cons, List.findSome?_cons, hfirst,
      ih fun hm hmem ↦ hes hm (List.mem_cons_of_mem a hmem)]

namespace Outward

theorem define (h : s.Outward o es) (e : ScopeId) : (s.define e n v).Outward o es := by
  refine h.keep fun {a x} hx ↦ ?_
  rw [getElem?_scopes_define, hx]
  split
  · exact ⟨_, rfl, rfl⟩
  · exact ⟨x, rfl, rfl⟩

theorem lookup?_define_of_unshadowed (h : s.Outward (some f) es) (hes : s.Unshadowed es e n) :
    (s.define e n v).lookup? f n = some v := by
  obtain ⟨before, after, rfl, hbefore⟩ := hes
  have he : e < s.scopes.size := h.mem_lt (by simp)
  have hnone : (before.findSome? fun a ↦ ((s.define e n v).bindings a).lookup n) = none := by
    refine List.findSome?_eq_none_iff.2 fun a ha ↦ ?_
    have hne : a ≠ e := (List.nodup_append.1 h.nodup).2.2 a ha e List.mem_cons_self
    rw [bindings_define_of_ne n v hne]
    exact (lookup_eq_none_iff_notMem n _).2 (hbefore a ha)
  rw [(h.define n v e).lookup?_eq, List.findSome?_append, hnone, List.findSome?_cons,
    bindings_define_self n v he, lookup_bind, if_pos rfl]
  rfl

/-- Where another scope binds the name first, or the name is another one, nothing changes. -/
theorem lookup?_define_of_shadowed (h : s.Outward (some f) es) (he : e < s.scopes.size) {m : Text}
    (hes : ¬ (m = n ∧ s.Unshadowed es e n)) : (s.define e n v).lookup? f m = s.lookup? f m := by
  rw [(h.define n v e).lookup?_eq, h.lookup?_eq]
  by_cases hm : m = n ∧ e ∈ es
  · obtain ⟨rfl, hmem⟩ := hm
    obtain ⟨before, after, rfl⟩ := List.append_of_mem hmem
    have hbound : (before.findSome? fun a ↦ (s.bindings a).lookup m).isSome := by
      refine Option.isSome_iff_ne_none.2 fun hnone ↦ hes ⟨rfl, before, after, rfl, fun a ha ↦ ?_⟩
      exact (lookup_eq_none_iff_notMem m _).1 (List.findSome?_eq_none_iff.1 hnone a ha)
    have hbefore : e ∉ before := fun ha ↦
      (List.nodup_append.1 h.nodup).2.2 e ha e List.mem_cons_self rfl
    rw [List.findSome?_append, List.findSome?_append, findSome?_define m v he fun _ ↦ hbefore,
      Option.or_of_isSome hbound, Option.or_of_isSome hbound]
  · exact findSome?_define n v he fun heq hmem ↦ hm ⟨heq, hmem⟩

end Outward

end Definitions

end Store

open Store

/-- Which lookups a definition changes, whatever the scopes bind and however deep they lie inside
each other. From a scope the new value is found if the scope of the definition is on the way
outwards and nothing nearer binds the name; every other lookup has the outcome that it had, a cell or
that the name is unbound. The names of the scope keep their order, and a new one comes last. Every
scope of a well-formed store has its way outwards, and a name evaluates to what looking it up comes
to. -/
theorem definition_seen_where_unshadowed :
    (∀ s : Store, s.WellFormed → ∀ f < s.scopes.size, ∃ es, s.Outward (some f) es) ∧
    (∀ (cfg : Settings) (eval : Evaluate) (m : Machine) (c : CellId) (f : ScopeId) (n : Text),
      m.store.cell c = .atom n → ((evalStep cfg eval c f).execute m).1 = m.store.lookup f n) ∧
    ∀ (s : Store) (e : ScopeId) (n : Text) (v : CellId), e < s.scopes.size →
      (∀ (f : ScopeId) (es : List ScopeId) (m : Text), s.Outward (some f) es →
        (m = n ∧ s.Unshadowed es e n → (s.define e n v).lookup f m = .ok v) ∧
        (¬ (m = n ∧ s.Unshadowed es e n) → (s.define e n v).lookup f m = s.lookup f m)) ∧
      (s.define e n v).names e = if n ∈ s.names e then s.names e else s.names e ++ [n] := by
  refine ⟨fun s hs f ↦ hs.exists_outward, fun cfg eval m c f n hc ↦ ?_, ?_⟩
  · obtain ⟨trace, hrun⟩ := execute_atom cfg eval hc
    rw [hrun]
  · intro s e n v he
    refine ⟨fun f es m hes ↦ ⟨?_, fun hshadowed ↦ ?_⟩, names_define n v he⟩
    · rintro ⟨rfl, hfree⟩
      exact lookup_of_lookup? (hes.lookup?_define_of_unshadowed m v hfree)
    · exact lookup_congr (hes.lookup?_define_of_shadowed n v he hshadowed)

/-- The scope 0 binds `x` and `y`; of the scopes inside it, 1 binds `x` as well, 2 lies inside 1, and
3 binds nothing. The cell 1 is the name `x`. -/
def twiceBound : Store :=
  let s := (Store.empty.addCell (.atom "x")).2
  let s := ((s.addScope none).2.define 0 "x" 1).define 0 "y" 2
  let s := (s.addScope (some 0)).2.define 1 "x" 3
  ((s.addScope (some 1)).2.addScope (some 0)).2

theorem wellFormed_twiceBound : twiceBound.WellFormed := by
  have hroot : (addScope none _).2.WellFormed :=
    (wellFormed_empty.addCell (x := .atom "x") nofun).addScope nofun
  have hinner : (addScope (some 0) _).2.WellFormed :=
    ((hroot.define 0 "x" 1).define 0 "y" 2).addScope (by simp [addScope, Store.define])
  have hnested : (addScope (some 1) _).2.WellFormed :=
    (hinner.define 1 "x" 3).addScope (by simp [addScope, Store.define])
  exact hnested.addScope (by simp [addScope, Store.define])

/-- Another definition of `x` in the scope 0 is seen from 3 and not from 2, where 1 is nearer. -/
theorem definition_seen_twiceBound :
    twiceBound.WellFormed ∧ (∃ es, twiceBound.Outward (some 2) es) ∧
      twiceBound.Outward (some 2) [2, 1, 0] ∧ twiceBound.Outward (some 3) [3, 0] ∧
      twiceBound.Unshadowed [3, 0] 0 "x" ∧ ¬ twiceBound.Unshadowed [2, 1, 0] 0 "x" ∧
      (twiceBound.define 0 "x" 4).lookup 3 "x" = .ok 4 ∧
      (twiceBound.define 0 "x" 4).lookup 2 "x" = .ok 3 ∧
      (twiceBound.define 0 "x" 4).lookup 2 "z" = .error (.unbound "z") ∧
      (twiceBound.define 0 "x" 4).names 0 = [("x" : Text), ("y" : Text)] ∧
      twiceBound.cell 1 = .atom "x" ∧
      ((evalDepth {} 1 1 2).execute ⟨twiceBound, #[]⟩).1 = .ok 3 := by
  obtain ⟨hways, hatoms, hdefine⟩ := definition_seen_where_unshadowed
  obtain ⟨hlookup, hnames⟩ := hdefine twiceBound 0 "x" 4 (by decide)
  have hnear : twiceBound.Outward (some 2) [2, 1, 0] := .cons rfl (.cons rfl (.cons rfl .nil))
  have hfar : twiceBound.Outward (some 3) [3, 0] := .cons rfl (.cons rfl .nil)
  have hseen : twiceBound.Unshadowed [3, 0] 0 "x" := ⟨[3], [], rfl, by decide⟩
  have hunseen : ¬ twiceBound.Unshadowed [2, 1, 0] 0 "x" := by
    rintro ⟨before, after, heq, hbefore⟩
    rcases before with _ | ⟨a, _ | ⟨b, before⟩⟩
    · cases heq
    · cases heq
    · obtain ⟨rfl, hrest⟩ := List.cons.inj heq
      obtain ⟨rfl, -⟩ := List.cons.inj hrest
      exact hbefore 1 (by simp) (by decide)
  refine ⟨wellFormed_twiceBound, hways _ wellFormed_twiceBound 2 (by decide), hnear, hfar, hseen,
    hunseen, (hlookup 3 _ "x" hfar).1 ⟨rfl, hseen⟩, ?_, ?_, hnames, rfl, ?_⟩
  · exact (hlookup 2 _ "x" hnear).2 fun h ↦ hunseen h.2
  · exact (hlookup 2 _ "z" hnear).2 fun h ↦ absurd h.1 (by decide)
  · exact hatoms {} (evalDepth {} 0) ⟨twiceBound, #[]⟩ 1 2 "x" rfl

end LittleLisp

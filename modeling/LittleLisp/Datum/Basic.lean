import LittleLisp.Number.Binary64
import LittleLisp.Text.CodePoint

/-!
Data: the finite trees that the reader produces and the printers write. A list of the running
program is a graph; its unfolding is a datum as well, in which marks stand for what a tree cannot
hold.
-/

namespace LittleLisp

/-- Leaves that are shown but never read. -/
inductive Mark where
  | function (name : Text)
  /-- A list inside itself. -/
  | elided
  /-- No value. -/
  | absent
deriving DecidableEq

inductive Datum where
  | atom (name : Text)
  | number (value : Binary64)
  | str (text : Text)
  | bool (flag : Bool)
  | quoted (inner : Datum)
  | list (items : List Datum)
  | mark (leaf : Mark)

instance : Inhabited Datum := ⟨.mark .absent⟩

namespace Datum

@[elab_as_elim] theorem induction {motive : Datum → Prop} (atom : ∀ name, motive (.atom name))
    (number : ∀ value, motive (.number value)) (str : ∀ text, motive (.str text))
    (bool : ∀ flag, motive (.bool flag)) (quoted : ∀ inner, motive inner → motive (.quoted inner))
    (list : ∀ items, (∀ d ∈ items, motive d) → motive (.list items))
    (mark : ∀ leaf, motive (.mark leaf)) (d : Datum) : motive d :=
  @Datum.rec motive (fun ds ↦ ∀ d ∈ ds, motive d) atom number str bool quoted list mark nofun
    (fun _ _ hd hds _ hmem ↦ (List.mem_cons.1 hmem).elim (· ▸ hd) (hds _)) d

mutual

/-- Whether every leaf holds a value. -/
def complete : Datum → Bool
  | .quoted inner => inner.complete
  | .list items => allComplete items
  | .mark .absent => false
  | _ => true

def allComplete : List Datum → Bool
  | [] => true
  | d :: ds => d.complete && allComplete ds

end

end Datum

end LittleLisp

import LittleLisp.Store.Basic

/-!
Chains of nodes behind list handles. Nodes are only ever appended, at the tail of a chain; what is
pushed through one handle is seen through every other handle that reaches the same tail.
-/

namespace LittleLisp.Store

def head (s : Store) (h : HandleId) : Option NodeId := s.handles[h]?.join

/-- The nodes from `n` on. A later node of a chain is a later node of the store, so as many steps
as there are nodes reach its end. -/
def chainFrom (s : Store) : Nat → Option NodeId → List NodeId
  | fuel + 1, some n =>
    match s.nodes[n]? with
    | some node => n :: chainFrom s fuel node.next
    | none => []
  | _, _ => []

def chain (s : Store) (h : HandleId) : List NodeId := s.chainFrom s.nodes.size (s.head h)

def nodeValue (s : Store) (n : NodeId) : CellId :=
  match s.nodes[n]? with
  | some node => node.value
  | none => absentId

def items (s : Store) (h : HandleId) : List CellId := (s.chain h).map s.nodeValue

def addHandle (head : Option NodeId) (s : Store) : HandleId × Store :=
  (s.handles.size, { s with handles := s.handles.push head })

def addChain : List CellId → Store → Option NodeId × Store
  | [], s => (none, s)
  | v :: vs, s =>
    let n := s.nodes.size
    let next := if vs.isEmpty then none else some (n + 1)
    (some n, (addChain vs { s with nodes := s.nodes.push ⟨v, next⟩ }).2)

def addListFrom (head : Option NodeId) (s : Store) : CellId × Store :=
  let (h, s) := s.addHandle head
  s.addCell (.list h)

def addList (values : List CellId) (s : Store) : CellId × Store :=
  let (head, s) := addChain values s
  s.addListFrom head

def push (h : HandleId) (v : CellId) (s : Store) : Store :=
  let n := s.nodes.size
  let nodes := s.nodes.push ⟨v, none⟩
  match (s.chain h).getLast? with
  | none => { s with nodes, handles := s.handles.setIfInBounds h (some n) }
  | some tail => { s with nodes := nodes.modify tail ({ · with next := some n }) }

def split? (s : Store) (h : HandleId) : Option (CellId × Option NodeId) :=
  match s.chain h with
  | [] => none
  | n :: rest => some (s.nodeValue n, rest.head?)

end LittleLisp.Store

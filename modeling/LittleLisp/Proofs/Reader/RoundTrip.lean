import LittleLisp.Proofs.Reader.Rereading
import LittleLisp.Proofs.Store.Holding

namespace LittleLisp

namespace Datum

mutual

/-- The same shape and the same leaves, where numbers are compared by value. -/
def same : Datum → Datum → Bool
  | .atom m, .atom n => m == n
  | .number x, .number y => x.equal y
  | .str t, .str u => t == u
  | .bool p, .bool q => p == q
  | .quoted d, .quoted e => d.same e
  | .list ds, .list es => sameItems ds es
  | _, _ => false

def sameItems : List Datum → List Datum → Bool
  | [], [] => true
  | d :: ds, e :: es => d.same e && sameItems ds es
  | _, _ => false

end

mutual

/-- Every name is a single symbol token that stands for a name, and every number is finite. -/
def Legible : Datum → Prop
  | .atom name => lex name = ⟨[⟨.symbol, name⟩], none⟩ ∧ ofSymbol name = .atom name
  | .number value => ∃ negative x, value = .finite negative x
  | .str _ | .bool _ => True
  | .quoted inner => inner.Legible
  | .list items => AllLegible items
  | .mark _ => False

def AllLegible : List Datum → Prop
  | [] => True
  | d :: ds => d.Legible ∧ AllLegible ds

end

@[simp] theorem allLegible_iff {ds : List Datum} : AllLegible ds ↔ ∀ d ∈ ds, d.Legible := by
  induction ds with
  | nil => simp [AllLegible]
  | cons d ds ih => simp [AllLegible, ih]

theorem Legible.readable {d : Datum} (h : d.Legible) : d.Readable := by
  induction d using induction with
  | atom name =>
    have hmem : (⟨.symbol, name⟩ : Token) ∈ (lex name).tokens := by
      rw [h.1]
      exact List.mem_singleton_self _
    exact ⟨Lexer.isSymbol_of_mem_lex hmem rfl, h.2⟩
  | number value =>
    obtain ⟨negative, x, rfl⟩ := h
    nofun
  | str | bool => exact trivial
  | quoted inner ih => exact ih h
  | list items ih => exact allReadable_iff.2 fun d hd ↦ ih d hd (allLegible_iff.1 h d hd)
  | mark => cases h

theorem sameItems_map {f : Datum → Datum} {ds : List Datum} (h : ∀ d ∈ ds, (f d).same d = true) :
    sameItems (ds.map f) ds = true := by
  induction ds with
  | nil => rfl
  | cons d ds ih =>
    rw [List.map_cons, sameItems, h d List.mem_cons_self,
      ih fun e he ↦ h e (List.mem_cons_of_mem d he), Bool.and_self]

theorem same_reread {d : Datum} (h : d.Legible) : d.reread.same d = true := by
  induction d using induction with
  | atom | str | bool => simp [reread, same]
  | number value =>
    obtain ⟨negative, x, rfl⟩ := h
    obtain ⟨n, hn, heq⟩ := Binary64.ofChars?_print negative x
    rw [reread, ofSymbol_numeral hn, same, heq]
  | quoted inner ih =>
    rw [reread, same, ih h]
  | list items ih =>
    rw [reread, same, rereadItems_eq_map]
    exact sameItems_map fun d hd ↦ ih d hd (allLegible_iff.1 h d hd)
  | mark => cases h

end Datum

/-- A legible tree is printed as a text that reads as the same tree. -/
theorem parse_printed_tree (s : Store) (c : CellId) (t : Datum) (hc : s.Holds t c)
    (ht : t.Legible) :
    ∃ text t', s.print c = .ok text ∧ Program.parse text = .ok ⟨text, some t'⟩ ∧
      t'.same t = true := by
  refine ⟨t.print, t.reread, Store.print_of_holds hc, ?_, Datum.same_reread ht⟩
  exact Program.parse_of_reads (Datum.reads_print ht.readable) (Datum.solid_print ht.readable)

def crowdedTree : Datum :=
  .list [.atom "-", .quoted (.list [.str "a \"(b);\\\n", .number (.zero true), .list []]),
    .bool false, .number (.finite false ⟨7205759403792794, -56, by decide⟩)]

theorem parse_printed_crowdedTree :
    (Store.load crowdedTree .empty).2.Holds crowdedTree (Store.load crowdedTree .empty).1 ∧
      crowdedTree.Legible ∧ ∃ text t',
        (Store.load crowdedTree .empty).2.print (Store.load crowdedTree .empty).1 = .ok text ∧
        Program.parse text = .ok ⟨text, some t'⟩ ∧ t'.same crowdedTree = true := by
  have hstorable : crowdedTree.Storable := by
    simp [crowdedTree, Datum.Storable]
  have hlegible : crowdedTree.Legible :=
    ⟨⟨rfl, rfl⟩, ⟨trivial, ⟨true, .zero, rfl⟩, trivial, trivial⟩, trivial, ⟨_, _, rfl⟩, trivial⟩
  have hholds := Store.holds_of_stored (Datum.storesWell hstorable .empty).2
  exact ⟨hholds, hlegible, parse_printed_tree _ _ crowdedTree hholds hlegible⟩

end LittleLisp

import LittleLisp.Text.Blank
import Mathlib.Data.List.Basic

namespace LittleLisp

namespace Text

def Plain (t : Text) : Prop := ∀ p ∈ t, ∃ c, p = .scalar c

variable {t u : Text}

@[simp] theorem plain_nil : Plain [] := by
  simp [Plain]

@[simp] theorem plain_cons {p : CodePoint} : Plain (p :: t) ↔ (∃ c, p = .scalar c) ∧ t.Plain :=
  List.forall_mem_cons

@[simp] theorem plain_append : Plain (t ++ u) ↔ t.Plain ∧ u.Plain :=
  List.forall_mem_append

@[simp] theorem plain_ofChars (cs : List Char) : (ofChars cs).Plain := by
  intro p hp
  obtain ⟨c, -, rfl⟩ := List.mem_map.1 hp
  exact ⟨c, rfl⟩

@[simp] theorem plain_ofString (s : String) : (ofString s).Plain :=
  plain_ofChars s.toList

theorem Plain.of_subset (ht : t.Plain) (h : ∀ p ∈ u, p ∈ t) : u.Plain := fun p hp ↦ ht p (h p hp)

theorem Plain.trim (ht : t.Plain) : t.trim.Plain := by
  refine ht.of_subset fun p hp ↦ ?_
  rw [Text.trim, trimWith, List.mem_reverse] at hp
  exact List.dropWhile_subset _ (List.mem_reverse.1 (List.dropWhile_subset _ hp))

end Text

end LittleLisp

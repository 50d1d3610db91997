import Mathlib.Logic.Relation
import Mathlib.Order.WellFoundedSet

/-!
# BlogStuff.Graph.Acyclic

A graph in which only finitely many nodes have an edge and no node leads back to itself can be
recursed over along its edges.
-/

namespace BlogStuff.Graph

variable {α : Type}

/-- **Without cycles the edges are well founded**, if finitely many nodes have one: a path
that goes on for ever would come to one of them twice. -/
theorem wellFounded_of_acyclic {r : α → α → Prop} (hfin : {x | ∃ y, r x y}.Finite)
    (hcycle : ∀ x, ¬ Relation.TransGen r x x) : WellFounded fun y x => r x y := by
  let below : α → α → Prop := fun y x => Relation.TransGen r x y
  have hstrict : IsStrictOrder α below :=
    { irrefl := hcycle
      trans := fun x y z hxy hyz => Relation.TransGen.trans hyz hxy }
  have hwf := Set.wellFoundedOn_iff.mp (Set.Finite.wellFoundedOn hfin (r := below))
  refine ⟨fun x => ?_⟩
  induction x using hwf.induction with
  | _ x ih =>
      refine ⟨x, fun y hxy => ?_⟩
      by_cases hy : ∃ z, r y z
      · exact ih y ⟨.single hxy, hy, y, hxy⟩
      · exact ⟨y, fun z hyz => absurd ⟨z, hyz⟩ hy⟩

end BlogStuff.Graph

import DotDoc.Dot.Outline
import DotDoc.Proofs.Order.Placement
import Mathlib.Data.List.Perm.Basic

set_option autoImplicit false

/-!
# Every source has its turn

The edge lines of a block are written source by source. The order of the sources holds each of them
once (`Source.linearize_perm`), so up to order the edge lines are those of all links of all sources
(`Source.edges_perm`).
-/

namespace DotDoc

variable {ρ : Type}

namespace Source

/-- **The order of the edge lines leaves out no source and repeats none.** -/
theorem linearize_perm (ss : List (Source ρ)) : (linearize ss).Perm ss := by
  have h := (orderedPositions_perm (targetPositions ss)).map ss.get
  rwa [List.map_get_finRange] at h

theorem edgeSources_perm (ss : List (Source ρ)) : (edgeSources ss).Perm ss := by
  refine List.Perm.trans ?_ (linearize_perm ss)
  have h := List.filter_append_perm isGraph (linearize ss)
  exact List.perm_append_comm.trans h

theorem mem_edgeSources {ss : List (Source ρ)} {s : Source ρ} : s ∈ edgeSources ss ↔ s ∈ ss :=
  (edgeSources_perm ss).mem_iff

theorem edges_perm (ss : List (Source ρ)) :
    (edges ss).Perm (ss.flatMap fun s => s.links.map fun l => (s, l)) :=
  (edgeSources_perm ss).flatMap_right _

theorem mem_edges_iff {ss : List (Source ρ)} {s : Source ρ} {l : Link ρ} :
    (s, l) ∈ edges ss ↔ s ∈ ss ∧ l ∈ s.links := by
  refine ⟨mem_edges, fun ⟨hs, hl⟩ => ?_⟩
  exact List.mem_flatMap.2 ⟨s, mem_edgeSources.2 hs, List.mem_map_of_mem hl⟩

end Source

end DotDoc

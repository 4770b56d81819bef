/-
Module: PathQueryIndex.Proofs.Labeling.Equivariance
Layer: Proofs
Purpose: The search for a canonical order under a renaming of the nodes. If the neighbours are renamed, and
  so are the cells, one by one and in any order inside each, then every step gives renamed cells again:
  sightings name cells and no nodes, so runs of them correspond. Hence every leaf has a counterpart
  with the same renumbered graph, and the least graph is the same.
Imports: PathQueryIndex.Proofs.Labeling.Leaves, PathQueryIndex.Proofs.Renaming
Main exports: Cells.Image, Neighbours.Renamed, Neighbours.Renamed.image_refine,
  Neighbours.Renamed.exists_reaches,
  Neighbours.Renamed.symm, Neighbours.Renamed.graph_eq_of_search
-/
import PathQueryIndex.Proofs.Labeling.Leaves
import PathQueryIndex.Proofs.Renaming

namespace PathQueryIndex

/-! ### Renamed cells -/

/-- The cells of the second list have the images of the nodes of the first, place by place. -/
def Cells.Image (σ : Nat → Nat) : Cells → Cells → Prop :=
  List.Forall₂ fun cell other => other.Perm (cell.map σ)

namespace Cells

variable {σ : Nat → Nat} {n i u v : Nat} {cells others before after : Cells} {cell other : List Nat}

namespace Image

theorem length_eq (h : Image σ cells others) : cells.length = others.length :=
  List.Forall₂.length_eq h

theorem append {cells' others' : Cells} (h : Image σ cells others) (h' : Image σ cells' others') :
    Image σ (cells ++ cells') (others ++ others') := by
  induction h with
  | nil => exact h'
  | cons hcell _ ih => exact .cons hcell ih

theorem getElem? (h : Image σ cells others) (hi : cells[i]? = some cell) :
    ∃ other, others[i]? = some other ∧ other.Perm (cell.map σ) := by
  induction h generalizing i with
  | nil => cases hi
  | cons hcell _ ih =>
      cases i with
      | zero =>
          cases hi
          exact ⟨_, rfl, hcell⟩
      | succ i => exact ih hi

theorem flatten_perm (h : Image σ cells others) : others.flatten.Perm (cells.flatten.map σ) := by
  induction h with
  | nil => exact .refl _
  | cons hcell _ ih =>
      rw [List.flatten_cons, List.flatten_cons, List.map_append]
      exact hcell.append ih

/-- Renamed cells cover the nodes if the cells do. -/
theorem covers (h : Image σ cells others) (hσ : Renaming n σ) (hcells : cells.Covers n) :
    others.Covers n := by
  constructor
  · exact h.flatten_perm.trans ((hcells.1.map σ).trans hσ.perm_map_range)
  · have hne := hcells.2
    clear hcells
    induction h with
    | nil => exact fun _ hother => nomatch hother
    | cons hcell _ ih =>
        intro other hother
        rcases List.mem_cons.1 hother with rfl | hother
        · intro hnil
          rw [hnil] at hcell
          exact hne _ (List.mem_cons_self ..) (List.map_eq_nil_iff.1 hcell.nil_eq.symm)
        · exact ih (fun c hc => hne c (List.mem_cons_of_mem _ hc)) other hother

/-- A node and its image stand in cells with the same number. -/
theorem getD_index (h : Image σ cells others) (hσ : Renaming n σ) (hcells : cells.Covers n)
    (hu : u < n) : (others.index n).getD (σ u) 0 = (cells.index n).getD u 0 := by
  have hmem : u ∈ cells.flatten := hcells.1.symm.subset (List.mem_range.2 hu)
  obtain ⟨cell, hcell, hucell⟩ := List.mem_flatten.1 hmem
  obtain ⟨i, hi⟩ := List.mem_iff_getElem?.1 hcell
  obtain ⟨other, hother, hperm⟩ := h.getElem? hi
  have huother : σ u ∈ other := hperm.symm.subset (List.mem_map_of_mem hucell)
  rw [Cells.getD_index hcells.nodup hi hucell hu,
    Cells.getD_index (h.covers hσ hcells).nodup hother huother (hσ.lt u hu)]

/-- If no cell has several nodes, the renamed cells are in the order of the cells. -/
theorem flatten_eq (h : Image σ cells others) (htarget : cells.target? = none) :
    others.flatten = cells.flatten.map σ := by
  induction h with
  | nil => rfl
  | @cons cell other cells others hcell _ ih =>
      unfold Cells.target? at htarget
      split at htarget
      · cases htarget
      · rename_i hlen
        rw [List.flatten_cons, List.flatten_cons, List.map_append,
          ih (Option.map_eq_none_iff.1 htarget)]
        cases cell with
        | nil =>
            rw [hcell.eq_nil]
            rfl
        | cons v rest =>
            cases rest with
            | nil =>
                rw [List.perm_singleton.1 hcell]
                rfl
            | cons w rest => exact absurd (by simp) hlen

/-- The first larger cells correspond. -/
theorem target?_eq_none (h : Image σ cells others) (htarget : cells.target? = none) :
    others.target? = none := by
  induction h with
  | nil => rfl
  | cons hcell _ ih =>
      unfold Cells.target? at htarget ⊢
      rw [hcell.length_eq, List.length_map]
      split at htarget
      · cases htarget
      · rename_i hlen
        rw [if_neg hlen, ih (Option.map_eq_none_iff.1 htarget)]
        rfl

theorem target?_eq_some (h : Image σ cells others)
    (htarget : cells.target? = some (before, cell, after)) :
    ∃ before' other after', others.target? = some (before', other, after') ∧
      Image σ before before' ∧ other.Perm (cell.map σ) ∧ Image σ after after' := by
  induction h generalizing before with
  | nil => cases htarget
  | @cons c d cells others hcell hrest ih =>
      unfold Cells.target? at htarget ⊢
      rw [hcell.length_eq, List.length_map]
      split at htarget
      · rename_i hlen
        cases htarget
        rw [if_pos hlen]
        exact ⟨[], d, others, rfl, .nil, hcell, hrest⟩
      · rename_i hlen
        obtain ⟨⟨b, x, a⟩, hx, heq⟩ := Option.map_eq_some_iff.1 htarget
        cases heq
        obtain ⟨before', other, after', hother, hbefore, hperm, hafter⟩ := ih hx
        refine ⟨d :: before', other, after', ?_, .cons hcell hbefore, hperm, hafter⟩
        rw [if_neg hlen, hother]
        rfl

/-- Putting a node in front of its cell, and its image in front of the renamed cell. -/
theorem individualize {before' after' : Cells} (hbefore : Image σ before before')
    (hcell : other.Perm (cell.map σ)) (hafter : Image σ after after') (hσ : Renaming n σ)
    (hlt : ∀ u ∈ cell, u < n) (hv : v ∈ cell) :
    Image σ (Cells.individualize before cell after v)
      (Cells.individualize before' other after' (σ v)) := by
  have hrest : (other.filter (· != σ v)).Perm ((cell.filter (· != v)).map σ) := by
    have hfilter := hcell.filter (· != σ v)
    rw [List.filter_map] at hfilter
    have hsame : cell.filter ((· != σ v) ∘ σ) = cell.filter (· != v) := by
      apply List.filter_congr
      intro u hu
      apply Bool.eq_iff_iff.2
      rw [Function.comp_apply, bne_iff_ne, bne_iff_ne]
      constructor
      · intro hne heq
        exact hne (congrArg σ heq)
      · intro hne heq
        exact hne (hσ.inj u (hlt u hu) v (hlt v hv) heq)
    rw [hsame] at hfilter
    exact hfilter
  exact hbefore.append (.cons (.refl _) (.cons hrest hafter))

end Image

end Cells

/-! ### Renamed neighbours -/

namespace Neighbours

variable {σ τ : Nat → Nat} {g h : Neighbours} {cellOf cellOf' : Array Nat} {cells others : Cells}
  {cell other : List Nat} {v : Nat} {leaf leaf' : Leaf}

/-- The nodes of the second graph are those of the first, renamed; the neighbours of a node may stand in
    another order. -/
structure Renamed (σ : Nat → Nat) (g h : Neighbours) : Prop where
  size_eq : h.out.size = g.out.size
  renames : Renaming g.out.size σ
  out_perm : ∀ v < g.out.size, (h.out.getD (σ v) []).Perm ((g.out.getD v []).map σ)
  into_perm : ∀ v < g.out.size, (h.into.getD (σ v) []).Perm ((g.into.getD v []).map σ)
  out_lt : ∀ v < g.out.size, ∀ u ∈ g.out.getD v [], u < g.out.size
  into_lt : ∀ v < g.out.size, ∀ u ∈ g.into.getD v [], u < g.out.size

/-- Numbers of renamed neighbours, if a node and its image have the same number. -/
theorem sorted_map_renamed {n : Nat} {row row' : List Nat} {number number' : Array Nat}
    (hperm : row'.Perm (row.map σ)) (hlt : ∀ u ∈ row, u < n)
    (hnumber : ∀ u < n, number'.getD (σ u) 0 = number.getD u 0) :
    sorted (row'.map fun u => number'.getD u 0) = sorted (row.map fun u => number.getD u 0) := by
  have hmap := hperm.map fun u => number'.getD u 0
  rw [List.map_map] at hmap
  have hsame : row.map ((fun u => number'.getD u 0) ∘ σ) = row.map fun u => number.getD u 0 := by
    apply List.map_congr_left
    intro u hu
    exact hnumber u (hlt u hu)
  rw [hsame] at hmap
  exact sorted_eq_of_perm hmap

theorem refine_of_lt (hlt : cells.length < (g.splitAll cells).length) :
    g.refine cells = g.refine (g.splitAll cells) := by
  rw [Neighbours.refine]
  exact if_pos hlt

theorem refine_of_not_lt (hge : ¬ cells.length < (g.splitAll cells).length) :
    g.refine cells = g.splitAll cells := by
  rw [Neighbours.refine]
  exact if_neg hge

namespace Renamed

/-- An image sees what the node sees. -/
theorem sighting_eq (hren : Renamed σ g h)
    (hcell : ∀ u < g.out.size, cellOf'.getD (σ u) 0 = cellOf.getD u 0) (hv : v < g.out.size) :
    h.sighting cellOf' (σ v) = { g.sighting cellOf v with node := σ v } := by
  unfold sighting
  rw [sorted_map_renamed (hren.out_perm v hv) (hren.out_lt v hv) hcell,
    sorted_map_renamed (hren.into_perm v hv) (hren.into_lt v hv) hcell]

/-- The parts of a renamed cell are the renamed parts. -/
theorem image_split (hren : Renamed σ g h)
    (hcellOf : ∀ u < g.out.size, cellOf'.getD (σ u) 0 = cellOf.getD u 0)
    (hcell : other.Perm (cell.map σ)) (hlt : ∀ u ∈ cell, u < g.out.size) :
    Cells.Image σ (g.split cellOf cell) (h.split cellOf' other) := by
  let rename : Sighting → Sighting := fun s => { s with node := σ s.node }
  have hsightings : (other.map (h.sighting cellOf')).Perm
      ((cell.map (g.sighting cellOf)).map rename) := by
    have hmap := hcell.map (h.sighting cellOf')
    rw [List.map_map] at hmap
    rw [List.map_map]
    have hsame : cell.map (h.sighting cellOf' ∘ σ) = cell.map (rename ∘ g.sighting cellOf) := by
      apply List.map_congr_left
      intro u hu
      exact hren.sighting_eq hcellOf (hlt u hu)
    rw [hsame] at hmap
    exact hmap
  -- Renaming keeps what is seen, so the renamed sightings are cut at the same places.
  have hruns : List.Forall₂ List.Perm
      (runs Sighting.same ((sorted (cell.map (g.sighting cellOf))).map rename))
      (runs Sighting.same (sorted (other.map (h.sighting cellOf')))) := by
    rw [Sighting.same_eq]
    apply forall₂_perm_runs
    · apply List.pairwise_map.2
      exact Sighting.pairwise_compareSeen _
    · exact Sighting.pairwise_compareSeen _
    · exact ((sorted_perm _).map rename).trans (hsightings.symm.trans (sorted_perm _).symm)
  rw [runs_map] at hruns
  rw [split_eq, split_eq]
  apply List.forall₂_map_left_iff.2
  apply List.forall₂_map_right_iff.2
  apply (List.forall₂_map_left_iff.1 hruns).imp
  intro part part' hpart
  have hnodes := hpart.symm.map Sighting.node
  rw [List.map_map] at hnodes
  rw [List.map_map]
  exact hnodes

theorem image_flatMap_split (hren : Renamed σ g h)
    (hcellOf : ∀ u < g.out.size, cellOf'.getD (σ u) 0 = cellOf.getD u 0)
    (hcells : Cells.Image σ cells others) (hlt : ∀ cell ∈ cells, ∀ u ∈ cell, u < g.out.size) :
    Cells.Image σ (cells.flatMap (g.split cellOf)) (others.flatMap (h.split cellOf')) := by
  induction hcells with
  | nil => exact .nil
  | cons hcell _ ih =>
      rw [List.flatMap_cons, List.flatMap_cons]
      have hfirst := hren.image_split hcellOf hcell (hlt _ (List.mem_cons_self ..))
      exact hfirst.append (ih fun c hc => hlt c (List.mem_cons_of_mem _ hc))

/-- One round of splitting keeps renamed cells renamed. -/
theorem image_splitAll (hren : Renamed σ g h) (hcells : Cells.Image σ cells others)
    (hcovers : cells.Covers g.out.size) : Cells.Image σ (g.splitAll cells) (h.splitAll others) := by
  unfold splitAll
  rw [hren.size_eq]
  apply hren.image_flatMap_split _ hcells
  · intro cell hcell u hu
    exact hcovers.lt_of_mem hcell hu
  · intro u hu
    exact hcells.getD_index hren.renames hcovers hu

theorem image_refine (hren : Renamed σ g h) (hcells : Cells.Image σ cells others)
    (hcovers : cells.Covers g.out.size) : Cells.Image σ (g.refine cells) (h.refine others) := by
  revert others
  fun_induction Neighbours.refine g cells with
  | case1 cells next hlt ih =>
      intro others hcells
      have hnext := hren.image_splitAll hcells hcovers
      have hlt' : others.length < (h.splitAll others).length := by
        rw [← hcells.length_eq, ← hnext.length_eq]
        exact hlt
      rw [refine_of_lt hlt']
      exact ih (hcovers.of_refines (g.refines_flatMap_split _ hcovers.2)) hnext
  | case2 cells next hge =>
      intro others hcells
      have hnext := hren.image_splitAll hcells hcovers
      have hge' : ¬ others.length < (h.splitAll others).length := by
        rw [← hcells.length_eq, ← hnext.length_eq]
        exact hge
      rw [refine_of_not_lt hge']
      exact hnext

/-- Renumbering by the renamed order gives the same graph. -/
theorem renumbered_map (hren : Renamed σ g h) {order : List Nat}
    (horder : order.Perm (List.range g.out.size)) :
    h.renumbered (order.map σ) = g.renumbered order := by
  have hlt : ∀ v ∈ order, v < g.out.size := fun v hv => List.mem_range.1 (horder.subset hv)
  have hnodup : order.Nodup := horder.nodup_iff.2 List.nodup_range
  have hnodup' : (order.map σ).Nodup := by
    apply List.Nodup.map_on _ hnodup
    intro v hv w hw heq
    exact hren.renames.inj v (hlt v hv) w (hlt w hw) heq
  have hplace : ∀ u < g.out.size, (placesOf g.out.size (order.map σ)).getD (σ u) 0 =
      (placesOf g.out.size order).getD u 0 := by
    intro u hu
    obtain ⟨i, hi⟩ := List.mem_iff_getElem?.1 (horder.symm.subset (List.mem_range.2 hu))
    have hi' : (order.map σ)[i]? = some (σ u) := by
      rw [List.getElem?_map, hi]
      rfl
    rw [getD_placesOf hnodup hi hu, getD_placesOf hnodup' hi' (hren.renames.lt u hu)]
  unfold renumbered
  rw [hren.size_eq, List.map_map]
  apply List.map_congr_left
  intro v hv
  exact sorted_map_renamed (hren.out_perm v (hlt v hv)) (hren.out_lt v (hlt v hv)) hplace

/-- Every leaf has a counterpart with the same graph. -/
theorem exists_reaches (hren : Renamed σ g h) (hleaf : g.Reaches cells leaf)
    (hcells : Cells.Image σ cells others) (hcovers : cells.Covers g.out.size) :
    ∃ leaf', h.Reaches others leaf' ∧ leaf'.graph = leaf.graph := by
  induction hleaf generalizing others with
  | @leaf cells htarget =>
      have hrefined := hren.image_refine hcells hcovers
      refine ⟨_, .leaf (hrefined.target?_eq_none htarget), ?_⟩
      change h.renumbered (h.refine others).flatten = _
      rw [hrefined.flatten_eq htarget]
      exact hren.renumbered_map (hcovers.of_refines (refines_refine hcovers.2)).1
  | @branch cells before after cell v leaf htarget hv hbelow ih =>
      have hrefined := hren.image_refine hcells hcovers
      obtain ⟨before', other, after', htarget', hbefore, hcell, hafter⟩ :=
        hrefined.target?_eq_some htarget
      have hlt : ∀ u ∈ cell, u < g.out.size := by
        intro u hu
        apply (hcovers.of_refines (refines_refine (g := g) hcovers.2)).lt_of_mem _ hu
        rw [(Cells.eq_of_target? htarget).1]
        exact List.mem_append.2 (.inr (List.mem_cons_self ..))
      have hfront := hbefore.individualize hcell hafter hren.renames hlt hv
      obtain ⟨leaf', hleaf', hgraph⟩ :=
        ih hfront (hcovers.of_refines (refines_branch hcovers htarget hv))
      exact ⟨leaf', .branch htarget' (hcell.symm.subset (List.mem_map_of_mem hv)) hleaf', hgraph⟩

/-! ### The way back -/

theorem perm_map_inverse {n : Nat} {row row' : List Nat} (hτ : ∀ v < n, τ (σ v) = v)
    (hperm : row'.Perm (row.map σ)) (hlt : ∀ u ∈ row, u < n) : row.Perm (row'.map τ) := by
  have hmap := hperm.map τ
  rw [List.map_map] at hmap
  have hsame : row.map (τ ∘ σ) = row.map id := by
    apply List.map_congr_left
    intro u hu
    exact hτ u (hlt u hu)
  rw [hsame, List.map_id] at hmap
  exact hmap.symm

theorem lt_of_perm_map {n : Nat} {row row' : List Nat} (hσ : Renaming n σ)
    (hperm : row'.Perm (row.map σ)) (hlt : ∀ u ∈ row, u < n) : ∀ u ∈ row', u < n := by
  intro u hu
  obtain ⟨w, hw, rfl⟩ := List.mem_map.1 (hperm.subset hu)
  exact hσ.lt w (hlt w hw)

/-- What undoes the renaming renames the second graph to the first. -/
theorem symm (hren : Renamed σ g h) (hτ : ∀ v < g.out.size, τ (σ v) = v) : Renamed τ h g where
  size_eq := hren.size_eq.symm
  renames := hren.size_eq ▸ hren.renames.inverse hτ
  out_perm := fun w hw => by
    obtain ⟨v, hv, rfl⟩ := hren.renames.exists_eq (hren.size_eq ▸ hw)
    rw [hτ v hv]
    exact perm_map_inverse hτ (hren.out_perm v hv) (hren.out_lt v hv)
  into_perm := fun w hw => by
    obtain ⟨v, hv, rfl⟩ := hren.renames.exists_eq (hren.size_eq ▸ hw)
    rw [hτ v hv]
    exact perm_map_inverse hτ (hren.into_perm v hv) (hren.into_lt v hv)
  out_lt := fun w hw => by
    obtain ⟨v, hv, rfl⟩ := hren.renames.exists_eq (hren.size_eq ▸ hw)
    rw [hren.size_eq]
    exact lt_of_perm_map hren.renames (hren.out_perm v hv) (hren.out_lt v hv)
  into_lt := fun w hw => by
    obtain ⟨v, hv, rfl⟩ := hren.renames.exists_eq (hren.size_eq ▸ hw)
    rw [hren.size_eq]
    exact lt_of_perm_map hren.renames (hren.into_perm v hv) (hren.into_lt v hv)

theorem image_symm {n : Nat} (hτ : ∀ v < n, τ (σ v) = v) (h : Cells.Image σ cells others)
    (hlt : ∀ cell ∈ cells, ∀ u ∈ cell, u < n) : Cells.Image τ others cells := by
  induction h with
  | nil => exact .nil
  | cons hcell _ ih =>
      have hfirst := perm_map_inverse hτ hcell (hlt _ (List.mem_cons_self ..))
      exact .cons hfirst (ih fun c hc => hlt c (List.mem_cons_of_mem _ hc))

/-- The search answers with the same graph for renamed neighbours and renamed cells. -/
theorem graph_eq_of_search (hren : Renamed σ g h) (hcells : Cells.Image σ cells others)
    (hcovers : cells.Covers g.out.size) (hleaf : g.search none cells = some leaf)
    (hleaf' : h.search none others = some leaf') : leaf'.graph = leaf.graph := by
  obtain ⟨τ, hτ⟩ := hren.renames.exists_inverse
  have hback : Cells.Image τ others cells :=
    image_symm hτ hcells fun cell hcell u hu => hcovers.lt_of_mem hcell hu
  have hcovers' : others.Covers h.out.size :=
    hren.size_eq ▸ hcells.covers hren.renames hcovers
  obtain ⟨there, hthere, hgraph⟩ := hren.exists_reaches (reaches_of_search hleaf) hcells hcovers
  obtain ⟨back, hbackReach, hgraph'⟩ :=
    (hren.symm hτ).exists_reaches (reaches_of_search hleaf') hback hcovers'
  -- Each graph is the least of its side, and has a counterpart on the other.
  have hle := isLE_of_search hleaf' hthere
  have hge := isLE_of_search hleaf hbackReach
  rw [hgraph] at hle
  rw [hgraph'] at hge
  exact Std.LawfulEqCmp.eq_of_compare (Std.OrientedCmp.isLE_antisymm hle hge)

end Renamed

end Neighbours

end PathQueryIndex

/-
Module: PathQueryIndex.Proofs.Labeling.Requests
Layer: Proofs
Purpose: Requests for a canonical order. The neighbours against the edges are counted from the rows, so two
  requests whose rows are renamed have renamed neighbours; if their classes are renamed too, the orders
  that come back give the same renumbered graph. An order lists the nodes of the classes class by class.
Imports: PathQueryIndex.Proofs.Labeling.ClassCode, PathQueryIndex.Proofs.Labeling.Equivariance
Main exports: LabelingRequest.count_into, LabelingRequest.Renamed, canonicalOrder_eq_ok,
  exists_canonicalOrder, exists_parts_of_canonicalOrder, LabelingRequest.Renamed.renumbered_eq
-/
import PathQueryIndex.Proofs.Labeling.ClassCode
import PathQueryIndex.Proofs.Labeling.Equivariance

namespace PathQueryIndex

namespace LabelingRequest

variable {r s : LabelingRequest} {σ : Nat → Nat} {u v w k : Nat} {row : List Nat}
  {rows : List (List Nat)} {a : Array (List Nat)}

/-! ### Neighbours against the edges -/

/-- Note a node at each of its neighbours. -/
def noteRow (a : Array (List Nat)) (row : List Nat) (v : Nat) : Array (List Nat) :=
  row.foldl (fun a u => a.modify u (v :: ·)) a

theorem size_noteRow : (noteRow a row v).size = a.size := by
  induction row generalizing a with
  | nil => rfl
  | cons u row ih => exact ih.trans Array.size_modify

theorem getD_modify_cons (hu : u < a.size) :
    (a.modify w (v :: ·)).getD u [] = if w = u then v :: a.getD u [] else a.getD u [] := by
  rw [Array.getD_eq_getD_getElem?, Array.getD_eq_getD_getElem?, Array.getElem?_modify,
    Array.getElem?_eq_getElem hu]
  split <;> rfl

/-- The node is noted as often as a neighbour stands in its row. -/
theorem count_noteRow (hu : u < a.size) : ((noteRow a row v).getD u []).count w =
    (if v = w then row.count u else 0) + (a.getD u []).count w := by
  induction row generalizing a with
  | nil =>
      change (a.getD u []).count w = _
      rw [List.count_nil, ite_self, Nat.zero_add]
  | cons x row ih =>
      change ((noteRow (a.modify x (v :: ·)) row v).getD u []).count w = _
      rw [ih (Array.size_modify.symm ▸ hu), getD_modify_cons hu, List.count_cons]
      by_cases hx : x = u
      · subst hx
        rw [if_pos rfl, List.count_cons, beq_self_eq_true, if_pos rfl]
        by_cases hv : v = w
        · subst hv
          rw [if_pos rfl, if_pos rfl, beq_self_eq_true, if_pos rfl]
          omega
        · rw [if_neg hv, if_neg hv, if_neg fun h => hv (beq_iff_eq.1 h)]
          rfl
      · rw [if_neg hx, if_neg fun h => hx (beq_iff_eq.1 h)]
        rfl

/-- Note the nodes of some rows, counted from `k`, at their neighbours. -/
def noteRows (a : Array (List Nat)) (rows : List (List Nat)) (k : Nat) : Array (List Nat) :=
  (rows.zipIdx k).foldl (fun a (row, v) => noteRow a row v) a

theorem count_noteRows (hu : u < a.size) : ((noteRows a rows k).getD u []).count w =
    (if k ≤ w then (rows.getD (w - k) []).count u else 0) + (a.getD u []).count w := by
  induction rows generalizing a k with
  | nil =>
      change (a.getD u []).count w = _
      rw [List.getD_nil, List.count_nil, ite_self, Nat.zero_add]
  | cons row rows ih =>
      change ((noteRows (noteRow a row k) rows (k + 1)).getD u []).count w = _
      rw [ih (size_noteRow.symm ▸ hu), count_noteRow hu]
      rcases Nat.lt_trichotomy k w with hlt | rfl | hgt
      · have hw : w - k = (w - (k + 1)) + 1 := by omega
        rw [if_pos (Nat.succ_le_of_lt hlt), if_pos (Nat.le_of_lt hlt), if_neg (Nat.ne_of_lt hlt), hw,
          List.getD_cons_succ, Nat.zero_add]
      · rw [if_neg (Nat.not_succ_le_self k), if_pos rfl, if_pos (Nat.le_refl k), Nat.sub_self,
          List.getD_cons_zero, Nat.zero_add]
      · have hge := Nat.not_le_of_gt hgt
        rw [if_neg fun hle => hge (Nat.le_of_succ_le hle), if_neg (Nat.ne_of_gt hgt), if_neg hge,
          Nat.zero_add]

/-- A node is a neighbour against the edges as often as it points there. -/
theorem count_into (hu : u < r.rows.length) :
    (r.neighbours.into.getD u []).count w = (r.rows.getD w []).count u := by
  change ((noteRows (Array.replicate r.rows.length []) r.rows 0).getD u []).count w = _
  have hsize : u < (Array.replicate r.rows.length ([] : List Nat)).size :=
    Array.size_replicate.symm ▸ hu
  rw [count_noteRows hsize, if_pos (Nat.zero_le _), Nat.sub_zero, Array.getD_eq_getD_getElem?,
    Array.getElem?_replicate, if_pos hu]
  rfl

theorem getD_out : r.neighbours.out.getD v [] = r.rows.getD v [] := by
  change r.rows.toArray.getD v [] = _
  rw [Array.getD_eq_getD_getElem?, List.getElem?_toArray, List.getD_eq_getElem?_getD]

theorem getD_mem_rows (hv : v < r.rows.length) : r.rows.getD v [] ∈ r.rows := by
  rw [List.getD_eq_getElem?_getD, List.getElem?_eq_getElem hv]
  exact List.getElem_mem hv

/-! ### Renamed requests -/

/-- The rows of the second request are those of the first, with all nodes renamed; a row may list its
    nodes in another order. -/
structure Renamed (σ : Nat → Nat) (r s : LabelingRequest) : Prop where
  length_eq : s.rows.length = r.rows.length
  renames : Renaming r.rows.length σ
  row_perm : ∀ v < r.rows.length, (s.rows.getD (σ v) []).Perm ((r.rows.getD v []).map σ)
  row_lt : ∀ v < r.rows.length, ∀ u ∈ r.rows.getD v [], u < r.rows.length

theorem count_map_renaming {n : Nat} (hσ : Renaming n σ) (hlt : ∀ u ∈ row, u < n) (hv : v < n) :
    (row.map σ).count (σ v) = row.count v := by
  rw [List.count_eq_countP, List.count_eq_countP, List.countP_map]
  apply List.countP_congr
  intro u hu
  rw [Function.comp_apply, beq_iff_eq, beq_iff_eq]
  constructor
  · intro heq
    exact hσ.inj u (hlt u hu) v hv heq
  · intro heq
    rw [heq]

/-- What stands against the edges is a node. -/
theorem into_lt (hu : u < r.rows.length) (hw : w ∈ r.neighbours.into.getD u []) :
    w < r.rows.length := by
  have hcount := List.count_pos_iff.2 hw
  rw [count_into hu] at hcount
  apply Nat.lt_of_not_le
  intro hle
  rw [List.getD_eq_getElem?_getD, List.getElem?_eq_none hle] at hcount
  exact absurd hcount (Nat.lt_irrefl 0)

theorem Renamed.neighbours (hren : Renamed σ r s) :
    Neighbours.Renamed σ r.neighbours s.neighbours where
  size_eq := hren.length_eq
  renames := hren.renames
  out_perm := fun v hv => by
    rw [getD_out, getD_out]
    exact hren.row_perm v hv
  into_perm := fun v hv => by
    have hv : v < r.rows.length := hv
    have hσv : σ v < s.rows.length := hren.length_eq ▸ hren.renames.lt v hv
    apply List.perm_iff_count.2
    intro x
    rw [count_into hσv]
    by_cases hx : x < r.rows.length
    · obtain ⟨w, hw, rfl⟩ := hren.renames.exists_eq hx
      rw [(hren.row_perm w hw).count_eq, count_map_renaming hren.renames (hren.row_lt w hw) hv,
        count_map_renaming hren.renames (fun _ => into_lt hv) hw, count_into hv]
    · have hrow : s.rows.getD x [] = [] := by
        rw [List.getD_eq_getElem?_getD, List.getElem?_eq_none (hren.length_eq ▸ Nat.le_of_not_lt hx)]
        rfl
      rw [hrow, List.count_nil]
      apply (List.count_eq_zero.2 _).symm
      intro hmem
      obtain ⟨w, hw, rfl⟩ := List.mem_map.1 hmem
      exact hx (hren.renames.lt w (into_lt hv hw))
  out_lt := fun v hv u hu => by
    rw [getD_out] at hu
    exact hren.row_lt v hv u hu
  into_lt := fun _ hv _ => into_lt hv

end LabelingRequest

/-! ### Orders that come back -/

section Order

variable {r s : LabelingRequest} {σ : Nat → Nat} {cells cells' : Cells} {order order' : List Nat}
  {leaf : Leaf}

/-- An order that comes back is that of the leaf that the search answers with. -/
theorem canonicalOrder_eq_ok (h : canonicalOrder r false = .ok order) :
    ∃ cells leaf, decodeClasses r.rows.length r.colors = .ok cells ∧
      r.neighbours.search none cells = some leaf ∧ leaf.order = order := by
  obtain ⟨cells, hcells, hrest⟩ := bind_eq_ok.1 h
  refine ⟨cells, ?_⟩
  dsimp only at hrest
  split at hrest
  · cases hrest
  · rw [if_neg Bool.false_ne_true] at hrest
    split at hrest
    · rename_i leaf hleaf
      exact ⟨leaf, hcells, hleaf, pure_eq_ok.1 hrest⟩
    · cases hrest

/-- A request is not refused for a neighbour if all neighbours are nodes. -/
theorem LabelingRequest.strayNeighbour?_eq_none (h : ∀ row ∈ r.rows, ∀ u ∈ row, u < r.rows.length) :
    r.strayNeighbour? = none := by
  apply List.findSome?_eq_none_iff.2
  intro x hx
  apply Option.map_eq_none_iff.2
  apply List.find?_eq_none.2
  intro u hu
  rw [decide_eq_true_iff, Nat.not_le]
  exact h x.1 (List.fst_mem_of_mem_zipIdx hx) u hu

/-- An order comes back if the classes are read and all neighbours are nodes. -/
theorem exists_canonicalOrder (hcells : decodeClasses r.rows.length r.colors = .ok cells)
    (hstray : r.strayNeighbour? = none) : ∃ order, canonicalOrder r false = .ok order := by
  obtain ⟨leaf, hleaf⟩ := r.neighbours.exists_search cells
  refine ⟨leaf.order, bind_eq_ok.2 ⟨cells, hcells, ?_⟩⟩
  rw [hstray, hleaf]
  rfl

/-- Where refining leaves no larger cell, the order of the refined cells comes back. -/
theorem canonicalOrder_of_target?_eq_none (hcells : decodeClasses r.rows.length r.colors = .ok cells)
    (hstray : r.strayNeighbour? = none) (h : (r.neighbours.refine cells).target? = none) :
    canonicalOrder r false = .ok (r.neighbours.refine cells).flatten := by
  apply bind_eq_ok.2
  refine ⟨cells, hcells, ?_⟩
  rw [hstray, Neighbours.search_of_target?_eq_none h]
  rfl

/-- An order that comes back lists the nodes of each class together, class after class. -/
theorem exists_parts_of_canonicalOrder (h : canonicalOrder r false = .ok order)
    (hcells : decodeClasses r.rows.length r.colors = .ok cells) :
    order.Perm (List.range r.rows.length) ∧
      ∃ parts : Cells, parts.flatten = order ∧ List.Forall₂ List.Perm parts cells := by
  obtain ⟨cells', leaf, hcells', hleaf, rfl⟩ := canonicalOrder_eq_ok h
  rw [hcells] at hcells'
  cases hcells'
  have hcovers := covers_of_decodeClasses hcells
  obtain ⟨_, fine, hfine, horder⟩ := (Neighbours.reaches_of_search hleaf).refines hcovers
  obtain ⟨parts, hparts, hperm⟩ := Cells.exists_parts hfine
  rw [horder] at hparts
  refine ⟨?_, parts, hparts, hperm⟩
  rw [← horder]
  exact (hcovers.of_refines hfine).1

/-- Renamed requests with renamed classes get orders that renumber them to the same graph. -/
theorem LabelingRequest.Renamed.renumbered_eq (hren : Renamed σ r s)
    (hcells : decodeClasses r.rows.length r.colors = .ok cells)
    (hcells' : decodeClasses s.rows.length s.colors = .ok cells')
    (himage : Cells.Image σ cells cells') (h : canonicalOrder r false = .ok order)
    (h' : canonicalOrder s false = .ok order') :
    s.neighbours.renumbered order' = r.neighbours.renumbered order := by
  obtain ⟨_, leaf, hc, hleaf, rfl⟩ := canonicalOrder_eq_ok h
  obtain ⟨_, leaf', hc', hleaf', rfl⟩ := canonicalOrder_eq_ok h'
  rw [hcells] at hc
  rw [hcells'] at hc'
  cases hc
  cases hc'
  have hcovers := covers_of_decodeClasses hcells
  rw [← ((Neighbours.reaches_of_search hleaf).refines hcovers).1,
    ← ((Neighbours.reaches_of_search hleaf').refines (covers_of_decodeClasses hcells')).1]
  exact hren.neighbours.graph_eq_of_search himage hcovers hleaf hleaf'

end Order

end PathQueryIndex

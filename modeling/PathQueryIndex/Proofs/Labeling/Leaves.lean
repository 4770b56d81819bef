/-
Module: PathQueryIndex.Proofs.Labeling.Leaves
Layer: Proofs
Purpose: The leaves of the search for a canonical order. The search comes to a leaf where refined cells
  have one node each, and it branches on the nodes of a cell before that. It answers with a leaf of the
  least graph, and the order of a leaf lists the nodes of every class in the place of the class.
Imports: PathQueryIndex.Proofs.Labeling.Cells
Main exports: Neighbours.Reaches, Leaf.Chosen, Neighbours.chosen_search, Neighbours.reaches_of_search,
  Neighbours.isLE_of_search, Neighbours.exists_search, Neighbours.Reaches.refines
-/
import PathQueryIndex.Proofs.Labeling.Cells

namespace PathQueryIndex

open Std

/-- The leaves below some cells: that of the refined cells if each has one node at most, and otherwise
    those below the cells with some node of the first larger cell in front. -/
inductive Neighbours.Reaches (g : Neighbours) : Cells → Leaf → Prop where
  | leaf {cells : Cells} :
      (g.refine cells).target? = none →
        g.Reaches cells ⟨g.renumbered (g.refine cells).flatten, (g.refine cells).flatten⟩
  | branch {cells before after : Cells} {cell : List Nat} {v : Nat} {leaf : Leaf} :
      (g.refine cells).target? = some (before, cell, after) → v ∈ cell →
        g.Reaches (Cells.individualize before cell after v) leaf → g.Reaches cells leaf

namespace Leaf

variable {best result : Option Leaf} {leaf : Leaf} {P Q : Leaf → Prop}

/-- The result is the best leaf so far or one of the leaves `P`, and none of these has a lesser graph. -/
structure Chosen (best : Option Leaf) (P : Leaf → Prop) (result : Option Leaf) : Prop where
  sound : ∀ leaf, result = some leaf → best = some leaf ∨ P leaf
  least : ∀ leaf, best = some leaf ∨ P leaf →
    ∃ m, result = some m ∧ (compare m.graph leaf.graph).isLE = true

theorem isLE_graph_self (leaf : Leaf) : (compare leaf.graph leaf.graph).isLE = true := by
  have hself : compare leaf.graph leaf.graph = .eq := ReflCmp.compare_self
  rw [hself]
  rfl

theorem chosen_none (best : Option Leaf) : Chosen best (fun _ => False) best where
  sound := fun _ h => .inl h
  least := fun leaf h => by
    refine ⟨leaf, h.resolve_right id, ?_⟩
    exact isLE_graph_self leaf

theorem chosen_lesser (best : Option Leaf) (leaf : Leaf) :
    Chosen best (fun l => l = leaf) (lesser best leaf) := by
  cases best with
  | none =>
      constructor
      · intro l hl
        exact .inr (Option.some.inj hl).symm
      · intro l hl
        rcases hl with hl | rfl
        · cases hl
        · exact ⟨l, rfl, isLE_graph_self l⟩
  | some b =>
      change Chosen (some b) _ (if compare leaf.graph b.graph = .lt then some leaf else some b)
      split
      · rename_i hlt
        constructor
        · intro l hl
          exact .inr (Option.some.inj hl).symm
        · intro l hl
          refine ⟨leaf, rfl, ?_⟩
          rcases hl with hl | rfl
          · cases hl
            rw [hlt]
            rfl
          · exact isLE_graph_self l
      · rename_i hge
        constructor
        · intro l hl
          exact .inl hl
        · intro l hl
          refine ⟨b, rfl, ?_⟩
          rcases hl with hl | rfl
          · cases hl
            exact isLE_graph_self b
          · cases hc : compare b.graph l.graph with
            | lt => rfl
            | eq => rfl
            | gt => exact absurd (OrientedCmp.lt_of_gt hc) hge

/-- One choice after the other is a choice among all. -/
theorem Chosen.trans {middle : Option Leaf} (h : Chosen best P middle) (h' : Chosen middle Q result) :
    Chosen best (fun l => P l ∨ Q l) result where
  sound := fun l hl => by
    rcases h'.sound l hl with hl | hl
    · rcases h.sound l hl with hl | hl
      · exact .inl hl
      · exact .inr (.inl hl)
    · exact .inr (.inr hl)
  least := fun l hl => by
    have hcases : (best = some l ∨ P l) ∨ Q l := by
      rcases hl with hl | hl | hl
      · exact .inl (.inl hl)
      · exact .inl (.inr hl)
      · exact .inr hl
    rcases hcases with hl | hl
    · obtain ⟨m, hm, hle⟩ := h.least l hl
      obtain ⟨k, hk, hle'⟩ := h'.least m (.inl hm)
      exact ⟨k, hk, TransCmp.isLE_trans hle' hle⟩
    · exact h'.least l (.inr hl)

theorem Chosen.congr (h : Chosen best P result) (hPQ : ∀ l, P l ↔ Q l) : Chosen best Q result where
  sound := fun l hl => (h.sound l hl).imp_right (hPQ l).1
  least := fun l hl => h.least l (hl.imp_right (hPQ l).2)

/-- A fold of choices is a choice among what all its steps choose from. -/
theorem chosen_foldl {α : Type} {step : Option Leaf → α → Option Leaf} {P : α → Leaf → Prop}
    {xs : List α} (h : ∀ x ∈ xs, ∀ best, Chosen best (P x) (step best x)) :
    Chosen best (fun leaf => ∃ x ∈ xs, P x leaf) (xs.foldl step best) := by
  induction xs generalizing best with
  | nil =>
      apply (chosen_none best).congr
      intro l
      constructor
      · intro hl
        cases hl
      · intro hl
        obtain ⟨x, hx, _⟩ := hl
        cases hx
  | cons x xs ih =>
      have hfirst := h x (List.mem_cons_self ..) best
      have hrest : Chosen (step best x) (fun leaf => ∃ y ∈ xs, P y leaf)
          (xs.foldl step (step best x)) := ih fun y hy => h y (List.mem_cons_of_mem _ hy)
      apply (hfirst.trans hrest).congr
      intro l
      constructor
      · intro hl
        rcases hl with hl | ⟨y, hy, hl⟩
        · exact ⟨x, List.mem_cons_self .., hl⟩
        · exact ⟨y, List.mem_cons_of_mem _ hy, hl⟩
      · intro hl
        obtain ⟨y, hy, hl⟩ := hl
        rcases List.mem_cons.1 hy with rfl | hy
        · exact .inl hl
        · exact .inr ⟨y, hy, hl⟩

end Leaf

namespace Neighbours

variable {g : Neighbours} {cells : Cells} {leaf : Leaf} {n : Nat}

/-- The search chooses among the leaves below the cells. -/
theorem chosen_search (g : Neighbours) (best : Option Leaf) (cells : Cells) :
    Leaf.Chosen best (g.Reaches cells) (g.search best cells) := by
  fun_induction search with
  | case1 best cells refined htarget =>
      apply (Leaf.chosen_lesser best _).congr
      intro l
      constructor
      · intro hl
        rw [hl]
        exact .leaf htarget
      · intro hl
        cases hl with
        | leaf _ => rfl
        | branch h _ _ =>
            rw [htarget] at h
            cases h
  | case2 best cells refined before cell after htarget ih =>
      have hfold : Leaf.Chosen best
          (fun leaf => ∃ x ∈ cell.attach,
            g.Reaches (Cells.individualize before cell after x.1) leaf)
          (cell.attach.foldl
            (fun best x => g.search best (Cells.individualize before cell after x.1)) best) :=
        Leaf.chosen_foldl fun x _ best => ih best x.1 x.2
      apply hfold.congr
      intro l
      constructor
      · intro hl
        obtain ⟨x, _, hl⟩ := hl
        exact .branch htarget x.2 hl
      · intro hl
        cases hl with
        | leaf h =>
            rw [htarget] at h
            cases h
        | branch h hv hl =>
            rw [htarget] at h
            cases h
            exact ⟨⟨_, hv⟩, List.mem_attach _ _, hl⟩

/-- The answer of the search is a leaf. -/
theorem reaches_of_search (h : g.search none cells = some leaf) : g.Reaches cells leaf := by
  rcases (g.chosen_search none cells).sound leaf h with hnone | hreach
  · cases hnone
  · exact hreach

/-- No leaf has a lesser graph than the answer of the search. -/
theorem isLE_of_search (h : g.search none cells = some leaf) {other : Leaf}
    (hother : g.Reaches cells other) : (compare leaf.graph other.graph).isLE = true := by
  obtain ⟨m, hm, hle⟩ := (g.chosen_search none cells).least other (.inr hother)
  rw [h] at hm
  cases hm
  exact hle

/-- There are leaves below any cells: a larger cell has a node to be put in front. -/
theorem exists_reaches (g : Neighbours) (cells : Cells) : ∃ leaf, g.Reaches cells leaf := by
  refine search.induct g (motive := fun _ cells => ∃ leaf, g.Reaches cells leaf) ?_ ?_ none cells
  · intro _ cells _ htarget
    exact ⟨_, .leaf htarget⟩
  · intro best cells _ before cell after htarget ih
    have hlen := (Cells.eq_of_target? htarget).2
    obtain ⟨v, hv⟩ := List.exists_mem_of_length_pos (Nat.lt_trans Nat.zero_lt_one hlen)
    obtain ⟨leaf, hleaf⟩ := ih best v hv
    exact ⟨leaf, .branch htarget hv hleaf⟩

/-- The search has an answer. -/
theorem exists_search (g : Neighbours) (cells : Cells) : ∃ leaf, g.search none cells = some leaf := by
  obtain ⟨leaf, hleaf⟩ := g.exists_reaches cells
  obtain ⟨m, hm, _⟩ := (g.chosen_search none cells).least leaf (.inr hleaf)
  exact ⟨m, hm⟩

/-- Where refining leaves no larger cell, the search answers with the refined cells. -/
theorem search_of_target?_eq_none (h : (g.refine cells).target? = none) :
    g.search none cells =
      some ⟨g.renumbered (g.refine cells).flatten, (g.refine cells).flatten⟩ := by
  rw [search]
  dsimp only
  split
  · rfl
  · rename_i hsome
    rw [h] at hsome
    cases hsome

/-- A node put in front of the refined cells that hold it cuts the cells in place. -/
theorem refines_branch (hcells : cells.Covers n) {before after : Cells} {cell : List Nat} {v : Nat}
    (h : (g.refine cells).target? = some (before, cell, after)) (hv : v ∈ cell) :
    (Cells.individualize before cell after v).Refines cells := by
  have hrefine := refines_refine (g := g) hcells.2
  obtain ⟨heq, hlen⟩ := Cells.eq_of_target? h
  have hcovers : (before ++ cell :: after : Cells).Covers n := heq ▸ hcells.of_refines hrefine
  have hcell : cell ∈ before ++ cell :: after :=
    List.mem_append.2 (.inr (List.mem_cons_self ..))
  have hfront := Cells.refines_individualize hcovers.2 (hcovers.nodup_of_mem hcell) hv hlen
  rw [← heq] at hfront
  exact hfront.trans hrefine

/-- The order of a leaf comes from cells that are cut in place, and its graph is renumbered by it. -/
theorem Reaches.refines (h : g.Reaches cells leaf) (hcells : cells.Covers n) :
    leaf.graph = g.renumbered leaf.order ∧
      ∃ fine : Cells, fine.Refines cells ∧ fine.flatten = leaf.order := by
  induction h with
  | leaf _ => exact ⟨rfl, _, refines_refine hcells.2, rfl⟩
  | branch htarget hv _ ih =>
      have hbranch := refines_branch hcells htarget hv
      obtain ⟨hgraph, fine, hfine, horder⟩ := ih (hcells.of_refines hbranch)
      exact ⟨hgraph, fine, hfine.trans hbranch, horder⟩

end Neighbours

end PathQueryIndex

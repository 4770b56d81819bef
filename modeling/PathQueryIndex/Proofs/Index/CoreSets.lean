/-
Module: PathQueryIndex.Proofs.Index.CoreSets
Layer: Proofs
Purpose: What happens to a set of cores while it is filled. Everything is put in core by core: a batch of
  queries gives one core for each, with the code of a form of its pattern, and the windows in which the
  forms are resolved leave no trace but the number of requests. So whatever all the given cores have in
  common the whole set has in common, and the code of every given core is there afterwards.
Imports: PathQueryIndex.Index.Closure, PathQueryIndex.Proofs.Outcome
Main exports: CoreSet.Takes, CoreSet.takes_foldl_insert, Canonicalizer.Gives, CoreSet.absorb_eq_ok,
  CoreSet.exists_absorb, CoreSet.all_of_absorb
-/
import PathQueryIndex.Index.Closure
import PathQueryIndex.Proofs.Outcome

namespace PathQueryIndex

open Std

variable {c : Canonicalizer}

/-! ### One core after the other -/

namespace CoreSet

variable {set set' set'' : CoreSet} {cores : List Core}

/-- The codes of a set are those of its cores. -/
def Coherent (set : CoreSet) : Prop :=
  ∀ h, h ∈ set.hashes ↔ ∃ core ∈ set.cores.toList, core.hash = h

/-- Some cores were put into a set: it keeps what it had, in front, whatever is new is one of them and has a new
    code, and all their codes are there now. -/
structure Takes (cores : List Core) (set set' : CoreSet) : Prop where
  before : set.cores.toList <+: set'.cores.toList
  kept : ∀ h ∈ set.hashes, h ∈ set'.hashes
  new : ∀ i core, set.cores.size ≤ i → set'.cores.toList[i]? = some core →
    core ∈ cores ∧ core.hash ∉ set.hashes
  found : ∀ core ∈ cores, core.hash ∈ set'.hashes
  coherent : set.Coherent → set'.Coherent

theorem coherent_empty (requests : Nat) : (empty requests).Coherent := by
  intro h
  constructor
  · intro hh
    cases hh
  · intro hh
    obtain ⟨_, hcore, _⟩ := hh
    cases hcore

theorem lt_size_of_getElem? {i : Nat} {core : Core} (h : set.cores.toList[i]? = some core) :
    i < set.cores.size := by
  rw [← Array.length_toList]
  exact (List.getElem?_eq_some_iff.1 h).1

namespace Takes

theorem nil (set : CoreSet) : Takes [] set set where
  before := List.prefix_rfl
  kept := fun _ h => h
  new := fun _ _ hi hcore => absurd (lt_size_of_getElem? hcore) (Nat.not_lt.2 hi)
  found := fun _ h => nomatch h
  coherent := id

theorem append {more : List Core} (h : Takes cores set set') (h' : Takes more set' set'') :
    Takes (cores ++ more) set set'' where
  before := h.before.trans h'.before
  kept := fun hash hmem => h'.kept hash (h.kept hash hmem)
  new := fun i core hi hcore => by
    rcases Nat.lt_or_ge i set'.cores.size with hlt | hge
    · rw [← Array.length_toList] at hlt
      obtain ⟨rest, hrest⟩ := h'.before
      rw [← hrest, List.getElem?_append_left hlt] at hcore
      exact (h.new i core hi hcore).imp_left (List.mem_append_left _)
    · obtain ⟨hmem, hfresh⟩ := h'.new i core hge hcore
      exact ⟨List.mem_append_right _ hmem, fun hold => hfresh (h.kept _ hold)⟩
  found := fun core hcore => by
    rcases List.mem_append.1 hcore with hcore | hcore
    · exact h'.kept _ (h.found core hcore)
    · exact h'.found core hcore
  coherent := fun hset => h'.coherent (h.coherent hset)

/-- The number of requests does not matter. -/
theorem requests {n : Nat} (h : Takes cores set set') :
    Takes cores set { set' with requests := n } where
  before := h.before
  kept := h.kept
  new := h.new
  found := h.found
  coherent := h.coherent

/-- Every core was there or is one of those put in. -/
theorem origin (h : Takes cores set set') : ∀ core ∈ set'.cores.toList,
    core ∈ set.cores.toList ∨ core ∈ cores := by
  intro core hcore
  obtain ⟨i, hi⟩ := List.mem_iff_getElem?.1 hcore
  rcases Nat.lt_or_ge i set.cores.size with hlt | hge
  · rw [← Array.length_toList] at hlt
    obtain ⟨rest, hrest⟩ := h.before
    rw [← hrest, List.getElem?_append_left hlt] at hi
    exact .inl (List.mem_of_getElem? hi)
  · exact .inr (h.new i core hge hi).1

/-- What the cores of a set and the new cores have in common, all cores have in common afterwards. -/
theorem all {P : Core → Prop} (h : Takes cores set set') (hset : ∀ core ∈ set.cores.toList, P core)
    (hcores : ∀ core ∈ cores, P core) : ∀ core ∈ set'.cores.toList, P core := by
  intro core hcore
  rcases h.origin core hcore with hcore | hcore
  · exact hset core hcore
  · exact hcores core hcore

end Takes

/-- The step: one core. -/
theorem takes_insert (set : CoreSet) (core : Core) : Takes [core] set (set.insert core) := by
  unfold insert
  by_cases hmem : set.hashes.contains core.hash = true
  · rw [if_pos hmem]
    refine ⟨List.prefix_rfl, fun _ h => h, fun _ _ hi hx => ?_, fun x hx => ?_, id⟩
    · exact absurd (lt_size_of_getElem? hx) (Nat.not_lt.2 hi)
    · rw [List.mem_singleton.1 hx]
      exact OrderedSet.contains_iff.1 hmem
  · rw [if_neg hmem]
    refine ⟨?_, fun h hh => ?_, fun i x hi hx => ?_, fun x hx => ?_, fun hset h => ?_⟩
    · rw [Array.toList_push]
      exact List.prefix_append ..
    · exact OrderedSet.mem_insert.2 (.inr hh)
    · rw [← Array.length_toList] at hi
      rw [Array.toList_push, List.getElem?_append_right hi] at hx
      rw [List.mem_singleton.1 (List.mem_of_getElem? hx)]
      exact ⟨List.mem_singleton_self _, fun hold => hmem (OrderedSet.contains_iff.2 hold)⟩
    · rw [List.mem_singleton.1 hx]
      exact OrderedSet.mem_insert.2 (.inl rfl)
    · simp only [OrderedSet.mem_insert, Array.toList_push, List.mem_append, List.mem_singleton, hset h]
      constructor
      · intro hh
        rcases hh with rfl | ⟨x, hx, hxh⟩
        · exact ⟨core, .inr rfl, rfl⟩
        · exact ⟨x, .inl hx, hxh⟩
      · intro hh
        obtain ⟨x, hx | rfl, hxh⟩ := hh
        · exact .inr ⟨x, hx, hxh⟩
        · exact .inl hxh.symm

/-- The run: any number of cores. -/
theorem takes_foldl_insert (set : CoreSet) (cores : List Core) :
    Takes cores set (cores.foldl insert set) := by
  induction cores generalizing set with
  | nil => exact .nil set
  | cons core cores ih => exact (takes_insert set core).append (ih (set.insert core))

theorem foldl_insert_requests (set : CoreSet) (cores : List Core) (n : Nat) :
    cores.foldl insert { set with requests := n } =
      { cores.foldl insert set with requests := n } := by
  induction cores generalizing set with
  | nil => rfl
  | cons core cores ih =>
      rw [List.foldl_cons, List.foldl_cons, ← ih]
      congr 1
      unfold insert
      split <;> rfl

end CoreSet

/-! ### Queries and their cores -/

theorem flatten_chunks {α : Type} (n : Nat) (xs : List α) : (chunks n xs).flatten = xs := by
  fun_induction chunks n xs with
  | case1 => rfl
  | case2 x xs ih =>
      rw [List.flatten_cons, ih, List.cons_append, List.take_append_drop]

theorem chunks_singleton {α : Type} (n : Nat) (x : α) : chunks n [x] = [[x]] := by
  rw [chunks, List.take_nil, List.drop_nil, chunks]

/-- A core that a query can be given, its pattern being known: the code of a form of the pattern. -/
structure Canonicalizer.Gives (c : Canonicalizer) (item : Query × Pattern) (core : Core) : Prop where
  query_eq : core.query = item.1
  form : ∃ number form, c.resolve number (.ofPattern item.2) = .ok form ∧ core.hash = form.code

namespace Canonicalizer

/-- The forms of windows of colored graphs are forms of the graphs, one for each. -/
theorem forall₂_of_resolveWindows {number : Nat} {windows : List (List ColoredGraph)}
    {forms : List CanonicalForm} (h : c.resolveWindows number windows = .ok forms) :
    List.Forall₂ (fun g form => ∃ i, c.resolve i g = .ok form) windows.flatten forms := by
  induction windows generalizing number forms with
  | nil =>
      cases h
      exact .nil
  | cons graphs rest ih =>
      obtain ⟨first, hfirst, h⟩ := bind_eq_ok.1 h
      obtain ⟨more, hmore, h⟩ := bind_eq_ok.1 h
      cases h
      have hfirst := (forall₂_of_mapM hfirst).imp fun x form hx =>
        (⟨x.2, hx⟩ : ∃ i, c.resolve i x.1 = .ok form)
      have hgraphs := List.forall₂_map_left_iff
        (R := fun g form => ∃ i, c.resolve i g = .ok form).2 hfirst
      rw [List.zipIdx_map_fst] at hgraphs
      exact List.rel_append hgraphs (ih hmore)

theorem forall₂_of_resolveAll {number : Nat} {patterns : List Pattern} {forms : List CanonicalForm}
    (h : c.resolveAll number patterns = .ok forms) :
    List.Forall₂ (fun p form => ∃ i, c.resolve i (.ofPattern p) = .ok form) patterns forms := by
  have hforms := forall₂_of_resolveWindows h
  rw [flatten_chunks] at hforms
  exact List.forall₂_map_left_iff.1 hforms

/-- All windows are resolved if every graph has a form, whatever its number is. -/
theorem exists_resolveWindows {windows : List (List ColoredGraph)}
    (h : ∀ g ∈ windows.flatten, ∀ i, ∃ form, c.resolve i g = .ok form) (number : Nat) :
    ∃ forms, c.resolveWindows number windows = .ok forms := by
  induction windows generalizing number with
  | nil => exact ⟨[], rfl⟩
  | cons graphs rest ih =>
      have hwindow : ∀ x ∈ graphs.zipIdx number, ∃ form, c.resolve x.2 x.1 = .ok form := by
        intro x hx
        have hmem : x.1 ∈ graphs := List.zipIdx_map_fst number graphs ▸ List.mem_map_of_mem hx
        exact h x.1 (List.mem_flatten_of_mem (List.mem_cons_self ..) hmem) x.2
      obtain ⟨forms, hforms⟩ := exists_mapM hwindow
      obtain ⟨more, hmore⟩ := ih (fun g hg => h g (List.mem_append_right _ hg))
        (number + graphs.length)
      exact ⟨forms ++ more, bind_eq_ok.2 ⟨forms, hforms, bind_eq_ok.2 ⟨more, hmore, rfl⟩⟩⟩

theorem exists_resolveAll {patterns : List Pattern}
    (h : ∀ p ∈ patterns, ∀ i, ∃ form, c.resolve i (.ofPattern p) = .ok form) (number : Nat) :
    ∃ forms, c.resolveAll number patterns = .ok forms := by
  apply exists_resolveWindows
  rw [flatten_chunks]
  exact List.forall_mem_map.2 h

end Canonicalizer

namespace CoreSet

variable {set set' : CoreSet} {items : List (Query × Pattern)} {limit : Option Nat} {inherited : Nat}

/-- Queries with forms of their patterns give cores. -/
theorem forall₂_gives {forms : List CanonicalForm}
    (h : List.Forall₂ (fun item form => ∃ i, c.resolve i (.ofPattern item.2) = .ok form) items
      forms) :
    List.Forall₂ c.Gives items ((items.zip forms).map fun x => ⟨x.1.1, x.2.code⟩) := by
  induction h with
  | nil => exact .nil
  | cons hform _ ih =>
      obtain ⟨i, hi⟩ := hform
      rw [List.zip_cons_cons]
      exact .cons ⟨rfl, i, _, hi, rfl⟩ ih

/-- A batch of queries gives a core for each of them, and these are put into the set. -/
theorem absorbBatch_eq_ok (h : set.absorbBatch c items = .ok set') :
    ∃ cores, List.Forall₂ c.Gives items cores ∧
      set' = { cores.foldl insert set with requests := set.requests + items.length } := by
  obtain ⟨forms, hforms, h⟩ := bind_eq_ok.1 h
  cases h
  refine ⟨_, forall₂_gives
    (List.forall₂_map_left_iff.1 (Canonicalizer.forall₂_of_resolveAll hforms)), ?_⟩
  rw [← foldl_insert_requests, List.foldl_map]

/-- Some queries give a core for each of them, and these are put into the set. -/
theorem absorb_eq_ok (h : set.absorb c items = .ok set') :
    ∃ cores, List.Forall₂ c.Gives items cores ∧
      set' = { cores.foldl insert set with requests := set.requests + items.length } := by
  unfold absorb at h
  have hbatches : ∀ (batches : List (List (Query × Pattern))) (set set' : CoreSet),
      batches.foldlM (absorbBatch c) set = .ok set' → ∃ cores,
        List.Forall₂ c.Gives batches.flatten cores ∧
        set' = { cores.foldl insert set with requests := set.requests + batches.flatten.length } := by
    intro batches
    induction batches with
    | nil =>
        intro set set' h
        cases h
        exact ⟨[], .nil, rfl⟩
    | cons batch batches ih =>
        intro set set' h
        obtain ⟨mid, hbatch, hrest⟩ := foldlM_cons_eq_ok.1 h
        obtain ⟨first, hfirst, rfl⟩ := absorbBatch_eq_ok hbatch
        obtain ⟨more, hmore, rfl⟩ := ih _ _ hrest
        refine ⟨first ++ more, List.rel_append hfirst hmore, ?_⟩
        rw [foldl_insert_requests, List.foldl_append, List.flatten_cons, List.length_append,
          Nat.add_assoc]
  have hall := hbatches _ _ _ h
  rw [flatten_chunks] at hall
  exact hall

/-- Queries are absorbed if all their patterns have forms. -/
theorem exists_absorb (set : CoreSet)
    (h : ∀ item ∈ items, ∀ i, ∃ form, c.resolve i (.ofPattern item.2) = .ok form) :
    ∃ set', set.absorb c items = .ok set' := by
  apply exists_foldlM
  intro batch hbatch set
  have hforms : ∀ p ∈ batch.map Prod.snd, ∀ i, ∃ form, c.resolve i (.ofPattern p) = .ok form := by
    rw [List.forall_mem_map]
    intro item hitem
    apply h item
    rw [← flatten_chunks (c.window - 1) items]
    exact List.mem_flatten_of_mem hbatch hitem
  obtain ⟨forms, hforms⟩ := Canonicalizer.exists_resolveAll hforms set.requests
  exact ⟨_, bind_eq_ok.2 ⟨forms, hforms, rfl⟩⟩

/-- Nothing is absorbed of nothing. -/
theorem absorb_nil (c : Canonicalizer) (set : CoreSet) : set.absorb c [] = .ok set := by
  unfold absorb
  rw [chunks]
  rfl

/-- A single query is absorbed if its pattern has a form. -/
theorem absorb_singleton {item : Query × Pattern} {form : CanonicalForm}
    (h : c.resolve set.requests (.ofPattern item.2) = .ok form) :
    set.absorb c [item] =
      .ok { set.insert ⟨item.1, form.code⟩ with requests := set.requests + 1 } := by
  unfold absorb
  rw [chunks_singleton]
  simp only [List.foldlM_cons, List.foldlM_nil, absorbBatch, Canonicalizer.resolveAll, List.map_cons,
    List.map_nil, chunks_singleton, Canonicalizer.resolveWindows, Canonicalizer.resolveWindow,
    List.zipIdx_cons, List.zipIdx_nil, List.mapM_cons, List.mapM_nil, h]
  exact congrArg Except.ok (foldl_insert_requests set [⟨item.1, form.code⟩] (set.requests + 1))

theorem takes_of_absorb (h : set.absorb c items = .ok set') : ∃ cores, Takes cores set set' := by
  obtain ⟨cores, _, rfl⟩ := absorb_eq_ok h
  exact ⟨cores, (takes_foldl_insert set cores).requests⟩

/-- What holds of every core that one of the queries can give, and of all cores before, holds of all. -/
theorem all_of_absorb {P : Core → Prop} (h : set.absorb c items = .ok set')
    (hset : ∀ core ∈ set.cores.toList, P core)
    (hitems : ∀ item ∈ items, ∀ core, c.Gives item core → P core) :
    ∀ core ∈ set'.cores.toList, P core := by
  obtain ⟨cores, hgives, rfl⟩ := absorb_eq_ok h
  refine (takes_foldl_insert set cores).all hset fun core hcore => ?_
  obtain ⟨item, hitem, hgive⟩ := exists_of_mem_right hgives hcore
  exact hitems item hitem core hgive

end CoreSet

end PathQueryIndex

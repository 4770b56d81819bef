/-
Module: PathQueryIndex.Proofs.Index.CoreRecords
Layer: Proofs
Purpose: How the cores of a block are recorded. A core is put in only if its code is new, so no two cores of
  a block have one code, and the codes of the block are just those of its cores. Cores enter as paths, as
  copies from other blocks, as concatenations and as intersections. Only paths are not folded first, and
  folding does not change them; so whichever way a core came in, its code is that of its query folded.
Imports: PathQueryIndex.Proofs.Index.Soundness, PathQueryIndex.Proofs.Pattern.Trail
Main exports: Core.Canonical, Core.Recorded, Core.Recorded.absorb, Core.Recorded.coresOf,
  Builder.recorded_of_ofPartition
-/
import PathQueryIndex.Proofs.Index.Soundness
import PathQueryIndex.Proofs.Pattern.Trail

namespace PathQueryIndex

variable {c : Canonicalizer}

/-- The code of a core is that of a form of its query, the pattern of the query being folded. -/
def Core.Canonical (c : Canonicalizer) (core : Core) : Prop :=
  ∃ number form, c.resolve number (.ofPattern (canonicalPattern core.query false)) = .ok form ∧
    form.code = core.hash

/-- With the labeler that searches, the code of a core is the code of its query. -/
theorem Core.Canonical.hasCode {core : Core} (h : core.Canonical c) (hc : c.labeler = .refinement) :
    core.query.HasCode core.hash := by
  obtain ⟨labeler, workers, timeout⟩ := c
  obtain ⟨number, form, hform, hcode⟩ := h
  obtain rfl : labeler = .refinement := hc
  exact ⟨form, hform, hcode⟩

theorem Canonicalizer.Gives.canonical {q : Query} {core : Core} (h : c.Gives (CoreSet.folded q) core) :
    core.Canonical c := by
  obtain ⟨hquery, number, form, hform, hcode⟩ := h
  exact ⟨number, form, hquery ▸ hform, hcode.symm⟩

/-- Cores and codes as a block keeps them: no two cores have one code, the codes are those of the cores, and
    each of them is the code of its query. -/
structure Core.Recorded (c : Canonicalizer) (cores : List Core) (codes : OrderedSet CoreHash) : Prop where
  nodup : (cores.map Core.hash).Nodup
  mem_iff : ∀ code, code ∈ codes ↔ ∃ core ∈ cores, core.hash = code
  canonical : ∀ core ∈ cores, core.Canonical c

namespace Core.Recorded

variable {set set' : CoreSet} {core : Core} {cores : List Core} {codes : OrderedSet CoreHash}
  {items : List (Query × Pattern)} {limit : Option Nat} {inherited : Nat}

/-- There are as many codes as cores. -/
theorem size_eq (h : Recorded c cores codes) : codes.size = cores.length := by
  have hperm : codes.toList.Perm (cores.map Core.hash) :=
    (List.perm_ext_iff_of_nodup codes.nodup_toList h.nodup).2 fun code =>
      (h.mem_iff code).trans List.mem_map.symm
  rw [OrderedSet.size, hperm.length_eq, List.length_map]

theorem empty (c : Canonicalizer) : Recorded c [] .empty where
  nodup := .nil
  mem_iff := CoreSet.coherent_empty 0
  canonical := fun _ hcore => nomatch hcore

/-! ### Filling a set -/

/-- The step: a core is left out if its code is there, and otherwise its code is new. -/
theorem insert (h : Recorded c set.cores.toList set.hashes) (hcore : core.Canonical c) :
    Recorded c (set.insert core).cores.toList (set.insert core).hashes where
  nodup := by
    unfold CoreSet.insert
    by_cases hmem : set.hashes.contains core.hash = true
    · rw [if_pos hmem]
      exact h.nodup
    · rw [if_neg hmem, Array.toList_push, List.map_append, List.map_singleton, List.nodup_append]
      refine ⟨h.nodup, List.nodup_singleton _, fun code hcode code' hcode' => ?_⟩
      obtain ⟨old, hold, rfl⟩ := List.mem_map.1 hcode
      rw [List.mem_singleton.1 hcode']
      intro heq
      exact hmem (OrderedSet.contains_iff.2 ((h.mem_iff _).2 ⟨old, hold, heq⟩))
  mem_iff := (CoreSet.takes_insert set core).coherent h.mem_iff
  canonical := (CoreSet.takes_insert set core).all h.canonical (List.forall_mem_singleton.2 hcore)

/-- The run: any number of cores. -/
theorem foldl_insert (h : Recorded c set.cores.toList set.hashes) (hcores : ∀ core ∈ cores, core.Canonical c) :
    Recorded c (cores.foldl CoreSet.insert set).cores.toList (cores.foldl CoreSet.insert set).hashes := by
  induction cores generalizing set with
  | nil => exact h
  | cons core cores ih =>
      obtain ⟨hcore, hcores⟩ := List.forall_mem_cons.1 hcores
      exact ih (h.insert hcore) hcores

/-- Absorbing queries whose patterns are folded. -/
theorem absorb (h : Recorded c set.cores.toList set.hashes)
    (hitems : ∀ item ∈ items, item = CoreSet.folded item.1) (habsorb : set.absorb c items = .ok set') :
    Recorded c set'.cores.toList set'.hashes := by
  obtain ⟨cores, hgives, rfl⟩ := CoreSet.absorb_eq_ok habsorb
  refine h.foldl_insert fun core hcore => ?_
  obtain ⟨item, hitem, hgive⟩ := exists_of_mem_right hgives hcore
  rw [hitems item hitem] at hgive
  exact hgive.canonical

theorem close (h : Recorded c set.cores.toList set.hashes)
    (hclose : set.close c limit inherited = .ok set') : Recorded c set'.cores.toList set'.hashes := by
  obtain ⟨mid, hpairs, hlarger⟩ := CoreSet.close_eq_ok hclose
  have hmid := h.absorb CoreSet.pairItems_folded hpairs
  split at hlarger
  · rw [hlarger]
    exact hmid
  · exact hmid.absorb CoreSet.largerItems_folded hlarger

theorem anchor (h : Recorded c set.cores.toList set.hashes)
    (hanchor : set.anchor c inherited = .ok set') : Recorded c set'.cores.toList set'.hashes :=
  h.absorb (List.forall_mem_map.2 fun _ _ => rfl) hanchor

end Core.Recorded

/-! ### The cores of the drafts -/

/-- The pattern of a path is folded already. -/
theorem canonicalPattern_path (ls : LabelSequence) :
    (.path ls, canonicalPattern (.path ls) true) = CoreSet.folded (.path ls) :=
  congrArg (Prod.mk _) (Pattern.core_ofQuery_path ls).symm

namespace Builder

variable {b b' : Builder} {draft : Draft} {set : CoreSet} {p : Partition} {g : Graph} {i n : Nat}
  {limit : Option Nat} {oc : Option Canonicalizer} {block : Block}

/-- The cores of every draft are recorded. -/
def Recorded (c : Canonicalizer) (b : Builder) : Prop :=
  ∀ (i : Nat) (draft : Draft), b.drafts[i]? = some draft →
    Core.Recorded c draft.block.cores draft.block.coreHashes

theorem Recorded.getD (hb : b.Recorded c) (i : Nat) : Core.Recorded c
    (b.drafts.getD i default).block.cores (b.drafts.getD i default).block.coreHashes := by
  rw [Array.getD_eq_getD_getElem?]
  cases hdraft : b.drafts[i]? with
  | none => exact .empty c
  | some draft => exact hb i draft hdraft

/-- The cores that a block starts from, whether they are paths or copies and concatenations. -/
theorem Recorded.baseCores (hb : b.Recorded c) {inherited : Nat}
    (h : b.baseCores c draft = .ok (set, inherited)) : Core.Recorded c set.cores.toList set.hashes := by
  have hempty : Core.Recorded c (CoreSet.empty b.requests).cores.toList (CoreSet.empty b.requests).hashes :=
    .empty c
  unfold Builder.baseCores at h
  split at h
  · obtain ⟨_, hpaths, h⟩ := bind_eq_ok.1 h
    cases h
    refine hempty.absorb (fun item hitem => ?_) hpaths
    obtain ⟨q, hq, rfl⟩ := List.mem_map.1 hitem
    obtain ⟨ls, _, rfl⟩ := List.mem_map.1 hq
    exact canonicalPattern_path ls
  · obtain ⟨_, hjoined, h⟩ := bind_eq_ok.1 h
    cases h
    refine (hempty.foldl_insert fun core hcore => ?_).absorb (List.forall_mem_map.2 fun _ _ => rfl) hjoined
    obtain ⟨i, _, hcore⟩ := List.mem_flatMap.1 hcore
    exact (hb.getD i).canonical core hcore

theorem Recorded.coresOf (hb : b.Recorded c) (h : b.coresOf c limit draft = .ok set) :
    Core.Recorded c set.cores.toList set.hashes := by
  obtain ⟨⟨base, inherited⟩, hbase, h⟩ := bind_eq_ok.1 h
  obtain ⟨closed, hclosed, h⟩ := bind_eq_ok.1 h
  have hrecorded := (hb.baseCores hbase).close hclosed
  split at h
  · exact hrecorded.anchor h
  · cases h
    exact hrecorded

/-- The step: a new draft has no cores yet. -/
theorem Recorded.addBlock {layer : Nat} {last : Bool} {run : List Segment} (hb : b.Recorded c)
    (h : addBlock layer last b run = .ok b') : b'.Recorded c := by
  obtain ⟨_, _, _, _, _, _, hdrafts, _, _, _, _, hcores, hcodes⟩ := addBlock_eq_ok h
  intro i draft hdraft
  rw [hdrafts, Array.getElem?_push] at hdraft
  split at hdraft
  · cases hdraft
    rw [hcores, hcodes]
    exact .empty c
  · exact hb i draft hdraft

/-- The step: cores of one draft. -/
theorem Recorded.addCores (hb : b.Recorded c) (h : b.addCores c limit n = .ok b') : b'.Recorded c := by
  intro i draft hdraft
  obtain ⟨before, hbefore, ⟨_, rfl⟩ | ⟨_, set, hset, rfl⟩⟩ := exists_draft_of_addCores h hdraft
  · exact hb i _ hbefore
  · exact hb.coresOf hset

/-- The run: the cores of all drafts of a construction are recorded, if there are cores at all. -/
theorem recorded_of_ofPartition (hc : ∀ c' ∈ oc, c' = c) (h : (ofPartition oc limit p).result = .ok b) :
    b.Recorded c := by
  refine ofPartition_induction (motive := fun _ b => b.Recorded c) (fun _ _ hdraft => nomatch hdraft)
    ?_ ?_ ?_ h
  · intro done r b b' _ hstep hb
    exact hb.addBlock hstep
  · intro done b os hb
    exact hb
  · intro c' hc' done b b' n hstep hb
    obtain rfl := hc c' hc'
    exact hb.addCores hstep

/-- So are those of the finished blocks. -/
theorem Recorded.of_mem_finish (hb : b.Recorded c) (hp : p.Layered g)
    (hbuilt : b.Built p (p.runsUpTo p.depth)) (h : block ∈ b.finish) :
    Core.Recorded c block.cores block.coreHashes := by
  obtain ⟨i, _, draft, _, hdraft, hcores, hcodes⟩ := exists_draft_of_mem_finish hp hbuilt h
  rw [hcores, hcodes]
  exact hb i draft hdraft

end Builder

end PathQueryIndex

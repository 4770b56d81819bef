/-
Module: PathQueryIndex.Proofs.Index.Links
Layer: Proofs
Purpose: How the drafts hang together. A draft is linked to the drafts whose walks join to walks of its run,
  which are found by the segments that the splits of its first segment lead through, and to the drafts that
  held pairs of its run. Both are drafts of earlier layers, and the links stay as they are while cores are
  computed, draft after draft. What the steps of the construction keep holds of the whole one, with the
  numbers of the layers whose segments are looked up already and of the drafts that have their cores.
Imports: PathQueryIndex.Proofs.Index.Holders
Main exports: Partition.OwnedBy, Builder.Owned, Builder.Linked, Builder.Stage,
  Builder.ofPartition_stages
-/
import PathQueryIndex.Proofs.Index.Holders

namespace PathQueryIndex

open Std

/-! ### The drafts of the segments -/

/-- The numbers of the runs of a layer, one for each segment, the first run having the number `first`. -/
def runOwners (first : Nat) (runs : List (List Segment)) : List Nat :=
  (runs.zipIdx first).flatMap fun (run, i) => List.replicate run.length i

/-- A segment has the number of a run that it stands in. -/
theorem getElem?_runOwners (first : Nat) {a : Nat} {runs : List (List Segment)} {s : Segment}
    (h : runs.flatten[a]? = some s) : ∃ k run, runs[k]? = some run ∧ s ∈ run ∧
      (runOwners first runs)[a]? = some (first + k) := by
  induction runs generalizing first a with
  | nil => cases h
  | cons run rest ih =>
      have howners : runOwners first (run :: rest) =
          List.replicate run.length first ++ runOwners (first + 1) rest := rfl
      rw [howners]
      rw [List.flatten_cons] at h
      by_cases hlt : a < run.length
      · rw [List.getElem?_append_left hlt] at h
        refine ⟨0, run, rfl, List.mem_of_getElem? h, ?_⟩
        rw [List.getElem?_append_left (by rw [List.length_replicate]; exact hlt),
          List.getElem?_replicate_of_lt hlt]
        rfl
      · have hle := Nat.le_of_not_lt hlt
        rw [List.getElem?_append_right hle] at h
        obtain ⟨k, run', hrun', hs, hk⟩ := ih (first + 1) h
        refine ⟨k + 1, run', hrun', hs, ?_⟩
        rw [List.getElem?_append_right (by rw [List.length_replicate]; exact hle),
          List.length_replicate, hk, Nat.add_right_comm]
        rfl

/-- A run among the first ones has its place among all of them. -/
theorem LayerRun.Newest.getElem?_of_take {all : List LayerRun} {pair : Pair} {i m : Nat} {t : LayerRun}
    (h : Newest (all.take m) pair i t) : all[i]? = some t := by
  have hplace := h.place
  rw [List.getElem?_take] at hplace
  split at hplace
  · exact hplace
  · cases hplace

namespace Partition

variable {g : Graph} {p : Partition} {ref : SegmentRef} {i j n : Nat} {r : LayerRun}

/-- The run at place `j` has the segment at place `ref`. -/
def OwnedBy (p : Partition) (ref : SegmentRef) (j : Nat) : Prop :=
  ∃ r s, (p.runsUpTo p.depth)[j]? = some r ∧ r.layer = ref.layer ∧
    (p.layer ref.layer)[ref.index]? = some s ∧ s ∈ r.segments

/-- A segment stands in one run only. -/
theorem OwnedBy.unique (hp : p.Layered g) (hi : p.OwnedBy ref i) (hj : p.OwnedBy ref j) : i = j := by
  obtain ⟨r, s, hr, _, hs, hmem⟩ := hi
  obtain ⟨t, s', ht, _, hs', hmem'⟩ := hj
  rw [hs] at hs'
  cases hs'
  have hid := (id_eq_of_mem_segments (List.mem_of_getElem? hr) hmem).symm.trans
    (id_eq_of_mem_segments (List.mem_of_getElem? ht) hmem')
  exact hp.place_eq_of_id_eq (Nat.le_refl _) hr ht hid

/-- Every segment stands in a run. -/
theorem exists_ownedBy {s : Segment} (hlayer : ref.layer < p.depth)
    (hs : (p.layer ref.layer)[ref.index]? = some s) : ∃ j, p.OwnedBy ref j := by
  obtain ⟨r, hr, hrlayer, hmem⟩ := exists_mem_runsUpTo hlayer (Array.mem_of_getElem? hs)
  obtain ⟨j, hj⟩ := List.mem_iff_getElem?.1 hr
  exact ⟨j, r, s, hj, hrlayer, hs, hmem⟩

/-- The run at the place of a segment has the segments of its layer with the id of that segment. -/
theorem OwnedBy.exists_run (hp : p.Layered g) (h : p.OwnedBy ref j) {x y : Segment}
    (hx : (p.layer ref.layer)[ref.index]? = some x) (hlayer : ref.layer < p.depth)
    (hy : y ∈ p.layer ref.layer) (hid : y.id = x.id) : ∃ t, (p.runsUpTo p.depth)[j]? = some t ∧
      t.layer = ref.layer ∧ y.pair ∈ t.pairs := by
  rcases h with ⟨t, x', ht, htlayer, hx', hmem⟩
  rw [hx] at hx'
  cases hx'
  have hrun := (mem_runsUpTo.1 (List.mem_of_getElem? ht)).2
  rw [htlayer] at hrun
  have hy := hp.mem_run_of_id_eq hlayer hrun hmem hy hid.symm
  exact ⟨t, ht, htlayer, List.mem_map_of_mem hy⟩

/-- The runs of the first layers stand at the same places among all runs. -/
theorem getElem?_runsUpTo_of_le (hn : n ≤ p.depth) (h : (p.runsUpTo n)[j]? = some r) :
    (p.runsUpTo p.depth)[j]? = some r := by
  obtain ⟨rest, hrest⟩ := prefix_runsUpTo p hn
  obtain ⟨hlt, rfl⟩ := List.getElem?_eq_some_iff.1 h
  rw [← hrest, List.getElem?_append_left hlt, List.getElem?_eq_getElem hlt]

end Partition

/-- The draft with the cores of a set. -/
def Draft.withCores (draft : Draft) (set : CoreSet) : Draft :=
  { draft with block := { draft.block with cores := set.cores.toList, coreHashes := set.hashes } }

namespace Builder

variable {g : Graph} {p : Partition} {b b' : Builder} {done : List LayerRun} {r : LayerRun}
  {draft : Draft} {i j m n : Nat} {last : Bool} {c : Canonicalizer} {limit : Option Nat}
  {ref : SegmentRef}

/-- The numbers of the drafts of the segments of a layer. -/
def layerOwners (p : Partition) (n : Nat) : Array Nat :=
  (runOwners (p.runsUpTo n).length (p.runsOf n)).toArray

/-- The segments of the first layers are looked up in their runs. -/
structure Owned (p : Partition) (n : Nat) (b : Builder) : Prop where
  size_eq : b.owners.size = n
  exists_owner : ∀ ref s, ref.layer < n → (p.layer ref.layer)[ref.index]? = some s →
    ∃ j, b.owner ref = .ok j ∧ p.OwnedBy ref j

theorem owned_empty (p : Partition) : empty.Owned p 0 where
  size_eq := rfl
  exists_owner := fun _ _ hlt _ => absurd hlt (Nat.not_lt_zero _)

/-- Looking up a segment of the first layers gives its run. -/
theorem Owned.owner_eq_ok_iff (hp : p.Layered g) (hb : b.Owned p n) (hlayer : ref.layer < n)
    {s : Segment} (hs : (p.layer ref.layer)[ref.index]? = some s) :
    b.owner ref = .ok j ↔ p.OwnedBy ref j := by
  obtain ⟨k, hk, howned⟩ := hb.exists_owner ref s hlayer hs
  rw [hk]
  constructor
  · intro h
    cases h
    exact howned
  · intro h
    rw [h.unique hp howned]

/-- Looking up segments depends on the owners only. -/
theorem Owned.congr (hb : b.Owned p n) (howners : b'.owners = b.owners) : b'.Owned p n where
  size_eq := howners ▸ hb.size_eq
  exists_owner := by
    have howner : b'.owner = b.owner := by
      funext ref
      unfold owner
      rw [howners]
    rw [howner]
    exact hb.exists_owner

theorem owner_push_of_lt {os : Array Nat} (h : ref.layer < b.owners.size) :
    ({ b with owners := b.owners.push os } : Builder).owner ref = b.owner ref := by
  unfold owner
  simp only [Array.getD_eq_getD_getElem?, Array.getElem?_push, Nat.ne_of_lt h, if_false]

/-- The step: the segments of one more layer. -/
theorem Owned.push (hb : b.Owned p n) (hn : n < p.depth) :
    ({ b with owners := b.owners.push (layerOwners p n) } : Builder).Owned p (n + 1) := by
  refine ⟨(Array.size_push ..).trans (congrArg (· + 1) hb.size_eq), fun ref s hlayer hs => ?_⟩
  rcases Nat.lt_or_eq_of_le (Nat.le_of_lt_succ hlayer) with hlt | heq
  · rw [owner_push_of_lt (hb.size_eq.symm ▸ hlt)]
    exact hb.exists_owner ref s hlt hs
  · have hflat : (p.runsOf n).flatten[ref.index]? = some s := by
      rw [Partition.runsOf, flatten_runs, Array.getElem?_toList, ← heq]
      exact hs
    obtain ⟨k, run, hrun, hmem, hk⟩ := getElem?_runOwners (p.runsUpTo n).length hflat
    refine ⟨(p.runsUpTo n).length + k, ?_, ⟨n, run⟩, s, ?_, heq.symm, hs, hmem⟩
    · unfold owner
      simp only [Array.getD_eq_getD_getElem?, heq, ← hb.size_eq, Array.getElem?_push_size,
        Option.getD_some]
      rw [hb.size_eq, layerOwners, List.getElem?_toArray, hk]
    · apply Partition.getElem?_runsUpTo_of_le hn
      rw [Partition.runsUpTo_succ, List.getElem?_append_right (Nat.le_add_right ..),
        Nat.add_sub_cancel_left, List.getElem?_map, hrun]
      rfl

/-! ### The links of a draft -/

/-- The draft of the run at place `j` is joined of the drafts of the segments that the splits of its first
    segment lead through, and it inherits from the drafts that held pairs of its run before. In the first
    layer it has the labels of its first segment. -/
structure Linked (p : Partition) (j : Nat) (r : LayerRun) (draft : Draft) : Prop where
  pairs_eq : draft.block.pairs = r.pairs
  joins : ∀ x, x ∈ draft.joins ↔ ∃ s, r.segments.head? = some s ∧ ∃ sp ∈ s.splits,
    p.OwnedBy sp.first x.first ∧ p.OwnedBy sp.second x.second
  inherited : ∀ i, i ∈ draft.inherited ↔ ∃ pair ∈ r.pairs, ∃ t,
    LayerRun.Newest ((p.runsUpTo p.depth).take j) pair i t
  labels : r.layer = 0 → ∀ ls, ls ∈ draft.block.labels ↔
    ∃ s, r.segments.head? = some s ∧ ls ∈ s.labels

/-- Only drafts of the first layer are joined of nothing. -/
theorem Linked.layer_eq_zero (hp : p.Layered g) (hr : (p.runsUpTo p.depth)[j]? = some r)
    (hl : Linked p j r draft) (h : draft.joins.isEmpty = true) : r.layer = 0 := by
  obtain ⟨hlayer, hrun⟩ := Partition.mem_runsUpTo.1 (List.mem_of_getElem? hr)
  obtain ⟨s, rest, hsegments⟩ := List.exists_cons_of_ne_nil (ne_nil_of_mem_runs hrun)
  have hs := Partition.mem_layer_of_mem_run hrun (hsegments ▸ List.mem_cons_self ..)
  cases hzero : r.layer with
  | zero => rfl
  | succ i =>
      rw [hzero] at hs hlayer
      obtain ⟨sp, hsp⟩ := hp.exists_mem_splits hlayer hs
      obtain ⟨x, y, hx, hy, hsum, _⟩ := hp.exists_of_mem_splits hlayer hs hsp
      obtain ⟨first, hfirst⟩ := Partition.exists_ownedBy (by omega) hx
      obtain ⟨second, hsecond⟩ := Partition.exists_ownedBy (by omega) hy
      have hjoin : ⟨first, second⟩ ∈ draft.joins :=
        (hl.joins _).2 ⟨s, by rw [hsegments]; rfl, sp, hsp, hfirst, hsecond⟩
      rw [OrderedSet.isEmpty, List.isEmpty_iff] at h
      rw [OrderedSet.mem_iff, h] at hjoin
      cases hjoin

/-- Drafts of the first layer are joined of nothing. -/
theorem Linked.joins_isEmpty (hp : p.Layered g) (hr : (p.runsUpTo p.depth)[j]? = some r)
    (hl : Linked p j r draft) (hzero : r.layer = 0) : draft.joins.isEmpty = true := by
  have hrun := (Partition.mem_runsUpTo.1 (List.mem_of_getElem? hr)).2
  apply List.isEmpty_iff.2
  apply List.eq_nil_iff_forall_not_mem.2
  intro x hx
  obtain ⟨s, hhead, sp, hsp, _⟩ := (hl.joins x).1 (OrderedSet.mem_iff.2 hx)
  have hs := Partition.mem_layer_of_mem_run hrun (List.mem_of_head? hhead)
  rw [hzero] at hs
  rw [hp.splits_eq_empty hs] at hsp
  cases hsp

/-- A draft that another one inherits from is an earlier one, of an earlier run with a pair in common. -/
theorem Linked.of_mem_inherited (hp : p.Layered g) (hr : (p.runsUpTo p.depth)[j]? = some r)
    (hl : Linked p j r draft) (hi : i ∈ draft.inherited) : i < j ∧ ∃ t pair,
      (p.runsUpTo p.depth)[i]? = some t ∧ t.layer < r.layer ∧ pair ∈ r.pairs ∧ pair ∈ t.pairs := by
  obtain ⟨pair, hpair, t, ht⟩ := (hl.inherited i).1 hi
  have hlt := (List.getElem?_eq_some_iff.1 ht.place).1
  rw [List.length_take] at hlt
  exact ⟨by omega, t, pair, ht.getElem?_of_take,
    hp.layer_lt_of_next (Nat.le_refl _) (Partition.take_concat_prefix hr) (List.mem_of_getElem? ht.place)
      ht.mem_pairs hpair, hpair, ht.mem_pairs⟩

/-- A draft is joined of drafts of earlier layers. -/
theorem Linked.of_mem_joins (hp : p.Layered g) (hr : (p.runsUpTo p.depth)[j]? = some r)
    (hl : Linked p j r draft) {x : BlockJoin} (hx : x ∈ draft.joins) : ∃ t t',
      (p.runsUpTo p.depth)[x.first]? = some t ∧ (p.runsUpTo p.depth)[x.second]? = some t' ∧
        t.layer < r.layer ∧ t'.layer < r.layer := by
  obtain ⟨s, hhead, sp, hsp, ⟨t, _, ht, htlayer, _⟩, t', _, ht', htlayer', _⟩ := (hl.joins x).1 hx
  obtain ⟨hlayer, hrun⟩ := Partition.mem_runsUpTo.1 (List.mem_of_getElem? hr)
  have hs := Partition.mem_layer_of_mem_run hrun (List.mem_of_head? hhead)
  cases hzero : r.layer with
  | zero =>
      rw [hzero] at hs
      rw [hp.splits_eq_empty hs] at hsp
      cases hsp
  | succ i =>
      rw [hzero] at hs hlayer
      obtain ⟨_, _, _, _, hsum, _⟩ := hp.exists_of_mem_splits hlayer hs hsp
      exact ⟨t, t', ht, ht', by omega, by omega⟩

/-- Every draft is linked. -/
def AllLinked (p : Partition) (b : Builder) : Prop :=
  ∀ j draft r, b.drafts[j]? = some draft → (p.runsUpTo p.depth)[j]? = some r → Linked p j r draft

/-- A new draft, with what it is made of. -/
theorem addBlock_eq_ok {layer : Nat} {run : List Segment} (h : addBlock layer last b run = .ok b') :
    ∃ s rest joins draft, run = s :: rest ∧ s.splits.toList.mapM b.joinOf = .ok joins ∧
      b'.drafts = b.drafts.push draft ∧ b'.owners = b.owners ∧ draft.joins = .ofList joins ∧
      draft.inherited = .ofList ((run.map Segment.pair).filterMap fun p => b.holder[p]?) ∧
      draft.block.pairs = run.map Segment.pair ∧ draft.block.cores = [] ∧
      draft.block.coreHashes = .empty := by
  cases run with
  | nil => cases h
  | cons s rest =>
      obtain ⟨joins, hjoins, h⟩ := bind_eq_ok.1 h
      cases h
      exact ⟨s, rest, joins, _, rfl, hjoins, rfl, rfl, rfl, rfl, rfl, rfl, rfl⟩

section Step

variable (hp : p.Layered g) (hnext : done ++ [r] <+: p.runsUpTo p.depth) (hb : b.Built p done)

include hnext

theorem getElem?_runsUpTo_of_next : (p.runsUpTo p.depth)[done.length]? = some r := by
  obtain ⟨rest, hrest⟩ := hnext
  rw [← hrest, List.append_assoc, List.getElem?_append_right (Nat.le_refl _), Nat.sub_self]
  rfl

theorem take_runsUpTo_of_next : (p.runsUpTo p.depth).take done.length = done := by
  obtain ⟨rest, hrest⟩ := hnext
  rw [← hrest, List.append_assoc, List.take_left]

include hp hb

/-- A pair of the next run is held by the newest run that has it: no run of the last layer has it yet. -/
theorem holder_iff_newest {pair : Pair} (hpair : pair ∈ r.pairs) :
    b.holder[pair]? = some i ↔ ∃ t, LayerRun.Newest done pair i t := by
  rw [hb.holder_iff]
  constructor
  · intro h
    obtain ⟨t, ht, _⟩ := h
    exact ⟨t, ht⟩
  · intro h
    obtain ⟨t, ht⟩ := h
    have hlt := hp.layer_lt_of_next (Nat.le_refl _) hnext (List.mem_of_getElem? ht.place)
      ht.mem_pairs hpair
    have hmem : r ∈ p.runsUpTo p.depth :=
      hnext.subset (List.mem_append_right _ (List.mem_singleton_self r))
    have hlayer := (Partition.mem_runsUpTo.1 hmem).1
    exact ⟨t, ht, by omega⟩

omit hb in
/-- Both parts of a split of the next run are looked up in the runs that they stand in. -/
theorem joinOf_eq_ok_iff (ho : b.Owned p r.layer) {s : Segment} (hs : s ∈ p.layer r.layer)
    {sp : Split} (hsp : sp ∈ s.splits) {x : BlockJoin} : b.joinOf sp = .ok x ↔
      p.OwnedBy sp.first x.first ∧ p.OwnedBy sp.second x.second := by
  have hlayer := (Partition.mem_runsUpTo.1 (List.mem_of_getElem? (getElem?_runsUpTo_of_next hnext))).1
  cases hzero : r.layer with
  | zero =>
      rw [hzero] at hs
      rw [hp.splits_eq_empty hs] at hsp
      cases hsp
  | succ i =>
      rw [hzero] at hs hlayer ho
      rcases hp.exists_of_mem_splits hlayer hs hsp with ⟨y, z, hy, hz, hsum, _⟩
      rw [← ho.owner_eq_ok_iff hp (by omega) hy, ← ho.owner_eq_ok_iff hp (by omega) hz]
      constructor
      · intro hjoin
        rcases bind_eq_ok.1 hjoin with ⟨first, hfirst, hjoin⟩
        rcases bind_eq_ok.1 hjoin with ⟨second, hsecond, hjoin⟩
        cases hjoin
        exact ⟨hfirst, hsecond⟩
      · rintro ⟨hfirst, hsecond⟩
        exact bind_eq_ok.2 ⟨_, hfirst, bind_eq_ok.2 ⟨_, hsecond, rfl⟩⟩

omit hb in
/-- The joins of the next draft are those of the splits of its first segment. -/
theorem mem_joins_iff (ho : b.Owned p r.layer) {s : Segment} (hs : s ∈ p.layer r.layer)
    {joins : List BlockJoin} (h : s.splits.toList.mapM b.joinOf = .ok joins) {x : BlockJoin} :
    x ∈ joins ↔ ∃ sp ∈ s.splits, p.OwnedBy sp.first x.first ∧ p.OwnedBy sp.second x.second := by
  have hjoins := forall₂_of_mapM h
  constructor
  · intro hx
    rcases exists_of_mem_right hjoins hx with ⟨sp, hsp, hjoin⟩
    exact ⟨sp, hsp, (joinOf_eq_ok_iff hp hnext ho hs hsp).1 hjoin⟩
  · rintro ⟨sp, hsp, howned⟩
    rcases exists_of_mem_left hjoins hsp with ⟨y, hy, hjoin⟩
    rw [(joinOf_eq_ok_iff hp hnext ho hs hsp).2 howned] at hjoin
    cases hjoin
    exact hy

/-- The next draft inherits from the newest drafts with its pairs. -/
theorem mem_inherited_iff : i ∈ OrderedSet.ofList (r.pairs.filterMap fun pair => b.holder[pair]?) ↔
    ∃ pair ∈ r.pairs, ∃ t, LayerRun.Newest done pair i t := by
  refine mem_inherited.trans ⟨?_, ?_⟩
  · rintro ⟨pair, hpair, hi⟩
    exact ⟨pair, hpair, (holder_iff_newest hp hnext hb hpair).1 hi⟩
  · rintro ⟨pair, hpair, hi⟩
    exact ⟨pair, hpair, (holder_iff_newest hp hnext hb hpair).2 hi⟩

/-- A draft of the first layer inherits no labels: its pairs are new. -/
theorem mem_labels_of_first_layer {block : Block} (happends : b.Appends r last block b')
    (hzero : r.layer = 0) (ls : LabelSequence) :
    ls ∈ block.labels ↔ ∃ s, r.segments.head? = some s ∧ ls ∈ s.labels := by
  refine (happends.mem_labels ls).trans ⟨?_, .inl⟩
  rintro (hls | ⟨pair, hpair, i, hi, _⟩)
  · exact hls
  · rcases (holder_iff_newest hp hnext hb hpair).1 hi with ⟨t, ht⟩
    have hlt := hp.layer_lt_of_next (Nat.le_refl _) hnext (List.mem_of_getElem? ht.place)
      ht.mem_pairs hpair
    exact absurd (hzero ▸ hlt) (Nat.not_lt_zero _)

/-- The step: one more draft is linked. -/
theorem AllLinked.addBlock (hl : b.AllLinked p) (ho : b.Owned p r.layer)
    (h : addBlock r.layer (r.layer + 1 == p.depth) b r.segments = .ok b') : b'.AllLinked p := by
  have hplace := getElem?_runsUpTo_of_next hnext
  have hrun := (Partition.mem_runsUpTo.1 (List.mem_of_getElem? hplace)).2
  rcases appends_of_addBlock h with ⟨block, happends⟩
  rcases addBlock_eq_ok h with
    ⟨s, rest, joins, draft, hsegments, hjoins, hdrafts, _, hdjoins, hdinherited, hdpairs, _, _⟩
  intro j other t hother ht
  rw [hdrafts, Array.getElem?_push] at hother
  split at hother
  · rename_i hj
    cases hother
    rw [hj, hb.size_eq, hplace] at ht
    cases ht
    have hhead : r.segments.head? = some s := by rw [hsegments]; rfl
    have hs : s ∈ p.layer r.layer := Partition.mem_layer_of_mem_run hrun (List.mem_of_head? hhead)
    refine ⟨hdpairs, fun x => ?_, fun i => ?_, fun hzero ls => ?_⟩
    · rw [hdjoins, OrderedSet.mem_ofList, mem_joins_iff hp hnext ho hs hjoins]
      simp [hhead]
    · rw [hdinherited, hj, hb.size_eq, take_runsUpTo_of_next hnext]
      exact mem_inherited_iff hp hnext hb
    · have hblock := happends.blockAt_self
      rw [blockAt, hdrafts, Array.getElem?_push_size] at hblock
      cases hblock
      exact mem_labels_of_first_layer hp hnext hb happends hzero ls
  · exact hl j other t hother ht

end Step

/-- Links do not depend on cores. -/
theorem Linked.congr {draft' : Draft} (h : Linked p j r draft)
    (hblock : draft'.block.bare = draft.block.bare) (hjoins : draft'.joins = draft.joins)
    (hinherited : draft'.inherited = draft.inherited) : Linked p j r draft' where
  pairs_eq := (congrArg Block.pairs hblock).trans h.pairs_eq
  joins := hjoins ▸ h.joins
  inherited := hinherited ▸ h.inherited
  labels := by
    have hlabels := congrArg Block.labels hblock
    change draft'.block.labels = draft.block.labels at hlabels
    rw [hlabels]
    exact h.labels

/-- Cores go into one draft, and they are all that changes. -/
theorem addCores_drafts (h : b.addCores c limit n = .ok b') :
    ∃ set, b.coresOf c limit (b.drafts.getD n default) = .ok set ∧ b'.owners = b.owners ∧
      b'.requests = set.requests ∧
      b'.drafts = b.drafts.setIfInBounds n ((b.drafts.getD n default).withCores set) := by
  obtain ⟨set, hset, h⟩ := bind_eq_ok.1 h
  cases h
  exact ⟨set, hset, rfl, rfl, rfl⟩

/-- Whatever draft there is after cores were computed, it was there before, with its cores or without. -/
theorem exists_draft_of_addCores (h : b.addCores c limit n = .ok b') (hdraft : b'.drafts[j]? = some draft) :
    ∃ before, b.drafts[j]? = some before ∧ (j ≠ n ∧ draft = before ∨
      j = n ∧ ∃ set, b.coresOf c limit before = .ok set ∧ draft = before.withCores set) := by
  obtain ⟨set, hset, _, _, hdrafts⟩ := addCores_drafts h
  rw [hdrafts, Array.getElem?_setIfInBounds] at hdraft
  by_cases hj : n = j
  · subst hj
    by_cases hlt : n < b.drafts.size
    · have hget := Array.getElem?_eq_getElem hlt
      have hgetD : b.drafts.getD n default = b.drafts[n] := by
        rw [Array.getD_eq_getD_getElem?, hget]
        rfl
      rw [if_pos rfl, if_pos hlt, hgetD] at hdraft
      rw [hgetD] at hset
      exact ⟨_, hget, .inr ⟨rfl, set, hset, (Option.some.inj hdraft).symm⟩⟩
    · rw [if_pos rfl, if_neg hlt] at hdraft
      cases hdraft
  · rw [if_neg hj] at hdraft
    exact ⟨draft, hdraft, .inl ⟨fun heq => hj heq.symm, rfl⟩⟩

/-- The step: cores of one draft leave the links as they are. -/
theorem AllLinked.addCores (hl : b.AllLinked p) (h : b.addCores c limit n = .ok b') :
    b'.AllLinked p := by
  intro j draft r hdraft hr
  obtain ⟨before, hbefore, ⟨_, rfl⟩ | ⟨_, set, _, rfl⟩⟩ := exists_draft_of_addCores h hdraft
  · exact hl j _ r hbefore hr
  · exact (hl j before r hbefore hr).congr rfl rfl rfl

/-! ### The stages of the construction -/

/-- The drafts of some runs, all of them linked, the segments of the first layers being looked up. -/
structure Stage (p : Partition) (n : Nat) (done : List LayerRun) (b : Builder) : Prop where
  built : b.Built p done
  owned : b.Owned p n
  linked : b.AllLinked p

namespace Stage

theorem empty (p : Partition) : Stage p 0 [] empty where
  built := .empty p
  owned := owned_empty p
  linked := fun _ _ _ hj _ => nomatch hj

theorem addBlock (hp : p.Layered g) (hnext : done ++ [r] <+: p.runsUpTo p.depth)
    (hb : b.Stage p r.layer done)
    (h : addBlock r.layer (r.layer + 1 == p.depth) b r.segments = .ok b') :
    b'.Stage p r.layer (done ++ [r]) := by
  obtain ⟨block, happends⟩ := appends_of_addBlock h
  obtain ⟨_, _, _, _, _, _, _, howners, _⟩ := addBlock_eq_ok h
  exact ⟨hb.built.appends happends, hb.owned.congr howners,
    hb.linked.addBlock hp hnext hb.built hb.owned h⟩

theorem push (hn : n < p.depth) (hb : b.Stage p n done) :
    ({ b with owners := b.owners.push (layerOwners p n) } : Builder).Stage p (n + 1) done :=
  ⟨hb.built.congr rfl rfl rfl rfl, hb.owned.push hn, hb.linked⟩

theorem addCores (hb : b.Stage p n done) (h : b.addCores c limit m = .ok b') : b'.Stage p n done := by
  obtain ⟨hblocks, hsize, hholder, hfinals⟩ := addCores_eq_ok h
  obtain ⟨_, _, howners, _⟩ := addCores_drafts h
  exact ⟨hb.built.congr hblocks hsize hholder hfinals, hb.owned.congr howners, hb.linked.addCores h⟩

end Stage

section Stages

variable {motive : Nat → List LayerRun → Nat → Builder → Prop}

/-- What the cores of one draft keep, the cores of the drafts of a layer keep, one after the other. -/
theorem addLayerCores_stages (size : ∀ n done m b, motive n done m b → b.drafts.size = done.length)
    (cores : ∀ n m r b b', n ≤ p.depth → (p.runsUpTo n)[m]? = some r →
      addCores c limit b m = .ok b' → motive n (p.runsUpTo n) m b →
      motive n (p.runsUpTo n) (m + 1) b')
    {layer : Nat} (hn : n ≤ p.depth) (hm : m ≤ (p.runsUpTo n).length)
    (h : (b.addLayerCores c limit layer m).result = .ok b') (hb : motive n (p.runsUpTo n) m b) :
    motive n (p.runsUpTo n) (p.runsUpTo n).length b' := by
  simp only [addLayerCores, Traced.bind_eq_ok, Traced.result_emit, Traced.result_pure,
    Traced.result_foldlM] at h
  obtain ⟨_, _, d, hfold, _, _, hd⟩ := h
  cases hd
  have hsize := size _ _ _ _ hb
  have hsteps := foldlM_range_induction
    (motive := fun k b => motive n (p.runsUpTo n) (m + k) b) ?_ hfold hb
  · rw [hsize, Nat.add_sub_cancel' hm] at hsteps
    exact hsteps
  · intro k b b' hlt hstep hb
    simp only [Traced.bind_eq_ok, Traced.result_emit, Traced.result_lift, Traced.result_pure] at hstep
    obtain ⟨d, hstep, _, _, hd⟩ := hstep
    cases hd
    have hplace : m + k < (p.runsUpTo n).length := by omega
    exact cores n _ _ _ _ hn (List.getElem?_eq_getElem hplace) hstep hb

/-- What holds of nothing and is kept by every step, the number of the layers that are looked up and of the
    drafts that have their cores being counted, holds of every construction with cores. -/
theorem ofPartition_stages (size : ∀ n done m b, motive n done m b → b.drafts.size = done.length)
    (empty : motive 0 [] 0 empty)
    (block : ∀ done r m b b', done ++ [r] <+: p.runsUpTo p.depth →
      addBlock r.layer (r.layer + 1 == p.depth) b r.segments = .ok b' → motive r.layer done m b →
      motive r.layer (done ++ [r]) m b')
    (owners : ∀ n m b, n < p.depth → motive n (p.runsUpTo (n + 1)) m b →
      motive (n + 1) (p.runsUpTo (n + 1)) m { b with owners := b.owners.push (layerOwners p n) })
    (cores : ∀ n m r b b', n ≤ p.depth → (p.runsUpTo n)[m]? = some r →
      addCores c limit b m = .ok b' → motive n (p.runsUpTo n) m b →
      motive n (p.runsUpTo n) (m + 1) b')
    (h : (ofPartition (some c) limit p).result = .ok b) :
    motive p.depth (p.runsUpTo p.depth) (p.runsUpTo p.depth).length b := by
  rw [ofPartition, Traced.result_foldlM] at h
  refine foldlM_range_induction (motive := fun n b =>
    motive n (p.runsUpTo n) (p.runsUpTo n).length b) ?_ h empty
  intro n b b' hn hstep hb
  simp only [addLayer, Traced.bind_eq_ok, Traced.result_emit, Traced.result_lift] at hstep
  obtain ⟨_, _, d, hfold, _, _, hstep⟩ := hstep
  have hblocks : motive n (p.runsUpTo (n + 1)) (p.runsUpTo n).length d := by
    have hsteps := foldlM_induction (motive := fun runs b =>
      motive n (p.runsUpTo n ++ runs.map fun run => ⟨n, run⟩) (p.runsUpTo n).length b) ?_ hfold
      (by rw [List.map_nil, List.append_nil]; exact hb)
    · rw [Partition.runsUpTo_succ]
      exact hsteps
    · intro runs run b b' hruns hrun hb
      rw [List.map_append, ← List.append_assoc]
      exact block _ ⟨n, run⟩ _ b b' (Partition.next_of_prefix_runsOf hn hruns) hrun hb
  have howners := owners _ _ _ hn hblocks
  rw [size _ _ _ _ hb] at hstep
  refine addLayerCores_stages size cores hn ?_ hstep howners
  exact (Partition.prefix_runsUpTo p (Nat.le_succ _)).length_le

end Stages

end Builder

end PathQueryIndex

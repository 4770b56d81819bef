/-
Module: PathQueryIndex.Proofs.Partition.Records
Layer: Proofs
Purpose: What a segment records of the layers before it: all ways to split its walks, by the ids of the two
  parts, and the latest earlier segment of its pair. Two segments of one run record the same, so whatever
  earlier layer has the one pair also has the other, and there the two share an id again.
Imports: PathQueryIndex.Proofs.Lookup, PathQueryIndex.Proofs.Partition.Ids
Main exports: Partition.Latest, Partition.Layered.mem_split_ids_iff,
  Partition.Layered.historyBefore_eq_some_iff, Partition.Layered.ancestor_eq,
  Partition.Layered.exists_earlier
-/
import PathQueryIndex.Proofs.Lookup
import PathQueryIndex.Proofs.Partition.Ids

namespace PathQueryIndex

open Std

namespace Partition

variable {g : Graph} {p : Partition} {i j : Nat} {s t : Segment} {pair : Pair} {r : SegmentRef}

/-- Segment `s` at place `r` is the one of the pair in the last layer before `i` that has the pair. -/
structure Latest (p : Partition) (i : Nat) (pair : Pair) (r : SegmentRef) (s : Segment) : Prop where
  before : r.layer < i
  segment : (p.layer r.layer)[r.index]? = some s
  pair_eq : s.pair = pair
  gap : ∀ m, r.layer < m → m < i → ∀ t ∈ p.layer m, t.pair ≠ pair

namespace Layered

variable (hp : p.Layered g)

include hp

/-! ### Splits -/

/-- The splits of a later segment are those of its joins. -/
theorem mem_splits_succ (hi : i + 1 < p.depth) (hs : s ∈ p.layer (i + 1)) :
    ∃ js : List Join, s.splits = .ofList (js.map Join.split) ∧
      ∀ j, j ∈ js ↔ (s.pair, j) ∈ allJoins p.layers (i + 1) := by
  obtain ⟨js, hgroup, _, hsplits, _⟩ := mem_joinedSegments (hp.unnumbered_mem hi hs)
  exact ⟨js, hsplits, fun j => mem_values_of_mem_groupByKey hgroup⟩

/-- A split of a segment leads through two earlier segments. -/
theorem exists_of_mem_splits (hi : i + 1 < p.depth) (hs : s ∈ p.layer (i + 1)) {sp : Split}
    (hsp : sp ∈ s.splits) : ∃ x y, (p.layer sp.first.layer)[sp.first.index]? = some x ∧
      (p.layer sp.second.layer)[sp.second.index]? = some y ∧
      sp.first.layer + sp.second.layer = i ∧ x.pair.target = y.pair.source ∧
      s.pair = ⟨x.pair.source, y.pair.target⟩ ∧ sp.ids = (x.id, y.id) := by
  obtain ⟨js, hsplits, hjs⟩ := hp.mem_splits_succ hi hs
  rw [hsplits] at hsp
  obtain ⟨j, hj, rfl⟩ := List.mem_map.1 (OrderedSet.mem_of_mem_ofList hsp)
  obtain ⟨k₁, k₂, hsum, hj⟩ := mem_allJoins.1 ((hjs j).1 hj)
  obtain ⟨a, b, x, y, hx, hy, hxy, hpair, rfl⟩ := mem_joins.1 hj
  exact ⟨x, y, hx, hy, hsum, hxy, hpair, rfl⟩

/-- The ids of the splits of a segment are those of all pairs of earlier segments that its walks lead
    through. -/
theorem mem_split_ids_iff (hi : i + 1 < p.depth) (hs : s ∈ p.layer (i + 1)) {ids : Nat × Nat} :
    ids ∈ s.splits.toList.map Split.ids ↔ ∃ k₁ k₂, k₁ + k₂ = i ∧ ∃ x ∈ p.layer k₁, ∃ y ∈ p.layer k₂,
      x.pair.target = y.pair.source ∧ s.pair = ⟨x.pair.source, y.pair.target⟩ ∧
      ids = (x.id, y.id) := by
  constructor
  · intro h
    obtain ⟨sp, hsp, rfl⟩ := List.mem_map.1 h
    obtain ⟨x, y, hx, hy, hsum, hxy, hpair, hids⟩ := hp.exists_of_mem_splits hi hs hsp
    exact ⟨_, _, hsum, x, Array.mem_of_getElem? hx, y, Array.mem_of_getElem? hy, hxy, hpair, hids⟩
  · intro h
    obtain ⟨k₁, k₂, hsum, x, hx, y, hy, hxy, hpair, rfl⟩ := h
    obtain ⟨a, ha⟩ := Array.mem_iff_getElem?.1 hx
    obtain ⟨b, hb⟩ := Array.mem_iff_getElem?.1 hy
    obtain ⟨js, hsplits, hjs⟩ := hp.mem_splits_succ hi hs
    have hj := (hjs _).2
      (mem_allJoins.2 ⟨k₁, k₂, hsum, mem_joins.2 ⟨a, b, x, y, ha, hb, hxy, hpair, rfl⟩⟩)
    have hmem : (joinOf k₁ a x k₂ b y).split ∈ js.map Join.split := List.mem_map_of_mem hj
    obtain ⟨sp, hsp, heq⟩ := OrderedSet.exists_mem_ofList hmem
    rw [hsplits]
    exact List.mem_map.2 ⟨sp, hsp, (compare_split_eq_iff.1 heq).symm⟩

/-- The segments of the first layer have no splits. -/
theorem splits_eq_empty (hs : s ∈ p.layer 0) : s.splits = .empty := by
  obtain ⟨_, _, heq⟩ := List.mem_map.1 (hp.unnumbered_mem hp.depth_pos hs)
  exact (congrArg Segment.splits heq).symm

/-- Every later segment can be split after its first step. -/
theorem exists_mem_splits (hi : i + 1 < p.depth) (hs : s ∈ p.layer (i + 1)) : ∃ sp, sp ∈ s.splits := by
  have hwalk := (hp.exists_segment_iff hi).1 ⟨s, hs, rfl⟩
  rw [Nat.add_comm] at hwalk
  obtain ⟨w, hfirst, hsecond⟩ := Graph.joined_add.1 hwalk
  obtain ⟨x, hx, hxpair⟩ := (hp.exists_segment_iff (Nat.lt_of_le_of_lt (Nat.zero_le i)
    (Nat.lt_of_succ_lt hi))).2 hfirst
  obtain ⟨y, hy, hypair⟩ := (hp.exists_segment_iff (Nat.lt_of_succ_lt hi)).2 hsecond
  have hids : (x.id, y.id) ∈ s.splits.toList.map Split.ids := by
    refine (hp.mem_split_ids_iff hi hs).2 ⟨0, i, Nat.zero_add i, x, hx, y, hy, ?_, ?_, rfl⟩
    · rw [hxpair, hypair]
    · rw [hxpair, hypair]
  obtain ⟨sp, hsp, _⟩ := List.mem_map.1 hids
  exact ⟨sp, hsp⟩

/-! ### Ancestors -/

theorem getElem?_record_of_mem {history : History} {a : Nat} (hi : i < p.depth)
    (hs : (p.layer i)[a]? = some s) :
    (history.record i (p.layer i))[s.pair]? = some (⟨i, a⟩, s.id) := by
  have hmem : (s, a) ∈ (p.layer i).toList.zipIdx :=
    List.mem_zipIdx_iff_getElem?.2 (by rw [Array.getElem?_toList]; exact hs)
  have hkeys : ((p.layer i).toList.zipIdx.map fun x => x.1.pair).Nodup := by
    have hmap : (p.layer i).toList.zipIdx.map (fun x => x.1.pair) =
        ((p.layer i).toList.zipIdx.map Prod.fst).map Segment.pair := by rw [List.map_map]; rfl
    rw [hmap, List.zipIdx_map_fst]
    exact hp.nodup_pairs hi
  exact getElem?_foldl_insert_of_mem hkeys hmem

omit hp in
theorem getElem?_record_of_forall_ne {history : History} (h : ∀ t ∈ p.layer i, t.pair ≠ pair) :
    (history.record i (p.layer i))[pair]? = history[pair]? := by
  refine getElem?_foldl_insert_of_forall_ne fun x hx => ?_
  have hget := List.mem_zipIdx_iff_getElem?.1 hx
  rw [Array.getElem?_toList] at hget
  exact h x.1 (Array.mem_of_getElem? hget)

omit hp in
/-- A later layer without the pair changes nothing. -/
theorem latest_succ_of_forall_ne (h : ∀ t ∈ p.layer i, t.pair ≠ pair) :
    p.Latest (i + 1) pair r s ↔ p.Latest i pair r s := by
  constructor
  · intro hl
    have hne : r.layer ≠ i := by
      intro heq
      refine h s ?_ hl.pair_eq
      rw [← heq]
      exact Array.mem_of_getElem? hl.segment
    exact ⟨Nat.lt_of_le_of_ne (Nat.le_of_lt_succ hl.before) hne, hl.segment, hl.pair_eq,
      fun m hm hmi => hl.gap m hm (Nat.lt_succ_of_lt hmi)⟩
  · intro hl
    refine ⟨Nat.lt_succ_of_lt hl.before, hl.segment, hl.pair_eq, fun m hm hmi => ?_⟩
    rcases Nat.lt_or_eq_of_le (Nat.le_of_lt_succ hmi) with hlt | rfl
    · exact hl.gap m hm hlt
    · exact h

/-- A segment has one place in its layer. -/
theorem index_eq_of_getElem? (hi : i < p.depth) {a b : Nat} (ha : (p.layer i)[a]? = some s)
    (hb : (p.layer i)[b]? = some s) : a = b := by
  have hnodup := hp.nodup_pairs hi
  have hplace : ∀ c : Nat, (p.layer i)[c]? = some s →
      ((p.layer i).toList.map Segment.pair)[c]? = some s.pair := by
    intro c hc
    rw [List.getElem?_map, Array.getElem?_toList, hc]
    rfl
  have hlt : a < ((p.layer i).toList.map Segment.pair).length :=
    (List.getElem?_eq_some_iff.1 (hplace a ha)).1
  exact (List.getElem?_inj hlt hnodup).1 ((hplace a ha).trans (hplace b hb).symm)

/-- The history has the latest segment of every pair. -/
theorem historyBefore_eq_some_iff (hi : i ≤ p.depth) {n : Nat} :
    (p.historyBefore i)[pair]? = some (r, n) ↔ ∃ s, p.Latest i pair r s ∧ s.id = n := by
  induction i with
  | zero =>
      constructor
      · intro h
        cases h
      · intro h
        obtain ⟨_, hl, _⟩ := h
        exact absurd hl.before (Nat.not_lt_zero _)
  | succ i ih =>
      have ih := ih (Nat.le_of_succ_le hi)
      rw [historyBefore]
      by_cases h : ∃ t ∈ p.layer i, t.pair = pair
      · obtain ⟨t, ht, rfl⟩ := h
        obtain ⟨a, ha⟩ := Array.mem_iff_getElem?.1 ht
        rw [hp.getElem?_record_of_mem hi ha, Option.some_inj]
        constructor
        · intro h
          cases h
          refine ⟨t, ⟨Nat.lt_succ_self i, ha, rfl, fun m hm hmi => ?_⟩, rfl⟩
          exact absurd (Nat.lt_of_lt_of_le hm (Nat.le_of_lt_succ hmi)) (Nat.lt_irrefl i)
        · intro h
          obtain ⟨s, hl, rfl⟩ := h
          have hlayer : r.layer = i := by
            rcases Nat.lt_or_eq_of_le (Nat.le_of_lt_succ hl.before) with hlt | heq
            · exact absurd rfl (hl.gap i hlt (Nat.lt_succ_self i) t ht)
            · exact heq
          have hseg := hl.segment
          rw [hlayer] at hseg
          obtain rfl : s = t := hp.eq_of_pair_eq hi (Array.mem_of_getElem? hseg) ht hl.pair_eq
          have hindex := hp.index_eq_of_getElem? hi hseg ha
          cases r
          cases hlayer
          cases hindex
          rfl
      · have h : ∀ t ∈ p.layer i, t.pair ≠ pair := fun t ht heq => h ⟨t, ht, heq⟩
        rw [getElem?_record_of_forall_ne h, ih]
        simp only [latest_succ_of_forall_ne h]

theorem historyBefore_eq_none_iff (hi : i ≤ p.depth) :
    (p.historyBefore i)[pair]? = none ↔ ∀ j < i, ∀ t ∈ p.layer j, t.pair ≠ pair := by
  induction i with
  | zero => exact ⟨fun _ j hj => absurd hj (Nat.not_lt_zero j), fun _ => rfl⟩
  | succ i ih =>
      have ih := ih (Nat.le_of_succ_le hi)
      rw [historyBefore]
      by_cases h : ∃ t ∈ p.layer i, t.pair = pair
      · obtain ⟨t, ht, rfl⟩ := h
        obtain ⟨a, ha⟩ := Array.mem_iff_getElem?.1 ht
        rw [hp.getElem?_record_of_mem hi ha]
        constructor
        · intro h
          cases h
        · intro h
          exact absurd rfl (h i (Nat.lt_succ_self i) t ht)
      · have h : ∀ t ∈ p.layer i, t.pair ≠ pair := fun t ht heq => h ⟨t, ht, heq⟩
        rw [getElem?_record_of_forall_ne h, ih]
        constructor
        · intro hbefore j hj
          rcases Nat.lt_or_eq_of_le (Nat.le_of_lt_succ hj) with hlt | rfl
          · exact hbefore j hlt
          · exact h
        · intro hbefore j hj
          exact hbefore j (Nat.lt_succ_of_lt hj)

/-- What a segment records as its ancestor is what the history had. -/
theorem ancestor_eq (hi : i < p.depth) (hs : s ∈ p.layer i) :
    s.ancestor = (p.historyBefore i)[s.pair]?.map Prod.fst ∧
      s.ancestorId = (p.historyBefore i)[s.pair]?.map Prod.snd := by
  have hraw := hp.unnumbered_mem hi hs
  cases i with
  | zero =>
      obtain ⟨_, _, heq⟩ := List.mem_map.1 hraw
      have hancestor := congrArg Segment.ancestor heq
      have hancestorId := congrArg Segment.ancestorId heq
      exact ⟨hancestor.symm, hancestorId.symm⟩
  | succ i =>
      obtain ⟨_, _, _, _, hancestor, hancestorId, _⟩ := mem_joinedSegments hraw
      exact ⟨hancestor, hancestorId⟩

/-- A segment whose pair occurs in an earlier layer has an ancestor. -/
theorem exists_ancestorId (hi : i < p.depth) (hs : s ∈ p.layer i) (hji : j < i) {x : Segment}
    (hx : x ∈ p.layer j) (hpair : x.pair = s.pair) : ∃ n, s.ancestorId = some n := by
  rw [(hp.ancestor_eq hi hs).2]
  cases hhist : (p.historyBefore i)[s.pair]? with
  | none =>
      exact absurd hpair ((hp.historyBefore_eq_none_iff (Nat.le_of_lt hi)).1 hhist j hji x hx)
  | some entry => exact ⟨entry.2, rfl⟩

/-- The ancestor of a segment is the latest earlier segment of its pair. -/
theorem exists_latest (hi : i < p.depth) (hs : s ∈ p.layer i) {n : Nat}
    (h : s.ancestorId = some n) : ∃ r s', p.Latest i s.pair r s' ∧ s'.id = n := by
  rw [(hp.ancestor_eq hi hs).2] at h
  obtain ⟨⟨r, m⟩, hhist, rfl⟩ := Option.map_eq_some_iff.1 h
  exact ⟨r, (hp.historyBefore_eq_some_iff (Nat.le_of_lt hi)).1 hhist⟩

/-- The id of a segment is sharp in every layer before a layer where the id of its pair is. -/
theorem sharp_of_pair_eq (hsharp : p.Sharp s.id) (hi : i < p.depth) (hji : j ≤ i)
    (hs : s ∈ p.layer i) {x : Segment} (hx : x ∈ p.layer j) (hpair : x.pair = s.pair) :
    p.Sharp x.id := by
  rcases Nat.lt_or_eq_of_le hji with hlt | rfl
  · exact hp.sharp_of_layer_lt hlt hi hx
  · obtain rfl := hp.eq_of_pair_eq hi hx hs hpair
    exact hsharp

/-- Whatever pair of an earlier layer a segment has, the segments of its run have one there with the same
    id. From ancestor to ancestor the two go down together, and the layer is not passed because an ancestor
    is the latest one. -/
theorem exists_earlier (hsharp : p.Sharp s.id) (hi : i < p.depth) (hji : j ≤ i)
    (hs : s ∈ p.layer i) (ht : t ∈ p.layer i) (hid : s.id = t.id) {x : Segment}
    (hx : x ∈ p.layer j) (hpair : x.pair = s.pair) :
    ∃ y ∈ p.layer j, y.pair = t.pair ∧ y.id = x.id := by
  induction i using Nat.strongRecOn generalizing s t with
  | ind i ih =>
      rcases Nat.lt_or_eq_of_le hji with hlt | rfl
      · obtain ⟨n, hancestor⟩ := hp.exists_ancestorId hi hs hlt hx hpair
        obtain ⟨k, rfl⟩ := Nat.exists_eq_succ_of_ne_zero (Nat.ne_zero_of_lt hlt)
        have hancestor' := (records_eq_of_id_eq hsharp hi hs ht hid).2 ▸ hancestor
        obtain ⟨r, s', hs', rfl⟩ := hp.exists_latest hi hs hancestor
        obtain ⟨r', t', ht', hid'⟩ := hp.exists_latest hi ht hancestor'
        have hr := Nat.lt_trans hs'.before hi
        have hr' := Nat.lt_trans ht'.before hi
        have hs'mem := Array.mem_of_getElem? hs'.segment
        have ht'mem := Array.mem_of_getElem? ht'.segment
        have hlayer := hp.eq_layer_of_id_eq hr' hr ht'mem hs'mem hid'
        have hjr : j ≤ r.layer := by
          apply Nat.le_of_not_lt
          intro hrj
          exact hs'.gap j hrj hlt x hx hpair
        rw [hlayer] at ht'mem
        obtain ⟨y, hy, hypair, hyid⟩ :=
          ih r.layer hs'.before (hp.sharp_of_layer_lt hs'.before hi hs'mem) hr hjr hs'mem ht'mem
            hid'.symm (hpair.trans hs'.pair_eq.symm)
        exact ⟨y, hy, hypair.trans ht'.pair_eq, hyid⟩
      · obtain rfl := hp.eq_of_pair_eq hi hx hs hpair
        exact ⟨t, ht, rfl, hid.symm⟩

end Layered

end Partition

end PathQueryIndex

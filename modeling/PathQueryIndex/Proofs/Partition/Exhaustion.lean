/-
Module: PathQueryIndex.Proofs.Partition.Exhaustion
Layer: Proofs
Purpose: What happens at the end of the ids. A layer takes as many ids as it has runs of segments that cannot be
  told apart, and one if it is empty. No layer is begun without an id for its first run, so a partition is not
  built if its layers but the last one need all ids. Inside a layer, though, the greatest id is given out over and
  over, and nobody notices if that is the last layer: then segments that can be told apart share it. A star does
  that in two layers, as the labels of its walks tell their ends.
Imports: PathQueryIndex.Proofs.Graph.Star, PathQueryIndex.Proofs.Partition.Renaming,
  PathQueryIndex.Proofs.Partition.Runs
Main exports: Partition.idsNeeded, Partition.Layered.startId_eq_idsNeeded, Partition.Layered.idsNeeded_le_iff,
  Partition.build_error_iff, Partition.ids_suffice_iff, Partition.idsNeeded_star,
  Partition.exists_build_star
-/
import PathQueryIndex.Proofs.Graph.Star
import PathQueryIndex.Proofs.Partition.Renaming
import PathQueryIndex.Proofs.Partition.Runs

namespace PathQueryIndex

open Std

/-! ### Numbering up to the greatest id -/

section Numbering

variable {i n : Nat} {xs : List Segment}

/-- Where neighbours are always told apart, every segment is a run of its own. -/
theorem length_runs_of_pairwise {same : Segment → Segment → Bool} (h : xs.Pairwise fun a b => ¬ same a b = true) :
    (runs same xs).length = xs.length := by
  induction xs with
  | nil => rfl
  | cons s xs ih =>
      obtain ⟨hs, hxs⟩ := List.pairwise_cons.1 h
      cases xs with
      | nil => rfl
      | cons t rest =>
          rw [length_runs_cons_cons, if_neg (hs t (List.mem_cons_self ..)), ih hxs]
          rfl

/-- If there are more runs than ids left, two neighbours that can be told apart share the greatest id. -/
theorem exists_same_id (hn : n ≤ maxSegmentId)
    (hmany : maxSegmentId + 1 < n + (runs (Segment.same i) xs).length) :
    ∃ a ∈ assignIds (Segment.same i) n xs, ∃ b ∈ assignIds (Segment.same i) n xs,
      a.id = maxSegmentId ∧ b.id = maxSegmentId ∧ ¬ Segment.compareKey i a b = .eq := by
  induction xs generalizing n with
  | nil => exact absurd hmany (by simp [runs]; omega)
  | cons s xs ih =>
      cases xs with
      | nil => exact absurd hmany (by simp [runs]; omega)
      | cons t rest =>
          rw [length_runs_cons_cons] at hmany
          rw [assignIds]
          by_cases hst : Segment.same i s t = true
          · rw [if_pos hst] at hmany ⊢
            obtain ⟨a, ha, b, hb, hab⟩ := ih hn hmany
            exact ⟨a, List.mem_cons_of_mem _ ha, b, List.mem_cons_of_mem _ hb, hab⟩
          · rw [if_neg hst] at hmany ⊢
            rcases Nat.lt_or_eq_of_le hn with hlt | rfl
            · have hnext : nextId n = n + 1 := Nat.min_eq_left hlt
              obtain ⟨a, ha, b, hb, hab⟩ := ih (n := nextId n) (by omega) (by omega)
              exact ⟨a, List.mem_cons_of_mem _ ha, b, List.mem_cons_of_mem _ hb, hab⟩
            · have hnext : nextId maxSegmentId = maxSegmentId := Nat.min_eq_right (Nat.le_succ _)
              obtain ⟨tail, htail⟩ := assignIds_cons (Segment.same i) maxSegmentId t rest
              rw [hnext, htail]
              refine ⟨_, List.mem_cons_self .., _, List.mem_cons_of_mem _ (List.mem_cons_self ..), rfl, rfl, ?_⟩
              rw [Segment.compareKey_numbered, Segment.compareKey_numbered_right]
              exact fun hkey => hst (Segment.same_iff.2 hkey)

end Numbering

namespace Partition

variable {g : Graph} {p : Partition} {i k n : Nat} {s t : Segment}

/-! ### The ids that layers need -/

/-- How many ids a layer needs: one for each run, and one if there is none. -/
def idsOfLayer (p : Partition) (i : Nat) : Nat := max 1 (runs (Segment.same i) (p.layer i).toList).length

/-- How many ids the first layers need. -/
def idsNeeded (p : Partition) (n : Nat) : Nat := sumOf ((List.range n).map p.idsOfLayer)

theorem idsNeeded_succ (p : Partition) (n : Nat) : p.idsNeeded (n + 1) = p.idsNeeded n + p.idsOfLayer n := by
  rw [idsNeeded, List.range_succ, List.map_append, sumOf_append]
  rfl

theorem runsBefore_le_idsNeeded (p : Partition) (n : Nat) : p.runsBefore n ≤ p.idsNeeded n := by
  induction n with
  | zero => exact Nat.le_refl _
  | succ n ih =>
      rw [runsBefore_succ, idsNeeded_succ]
      exact Nat.add_le_add ih (Nat.le_max_right ..)

theorem le_idsNeeded (p : Partition) (n : Nat) : n ≤ p.idsNeeded n := by
  induction n with
  | zero => exact Nat.zero_le _
  | succ n ih =>
      rw [idsNeeded_succ]
      exact Nat.add_le_add ih (Nat.le_max_left ..)

namespace Layered

variable (hp : p.Layered g)

include hp

/-- The step: the next layer begins behind the ids of a layer, unless the greatest id is among them. -/
theorem startId_succ (hi : i < p.depth) :
    p.startId (i + 1) = min (p.startId i + p.idsOfLayer i - 1) maxSegmentId + 1 := by
  have hroom := hp.room i hi
  have hlist := hp.toList_layer hi
  rw [startId, idsOfLayer, lastId, ← Array.getLast?_toList, hlist, length_runs_assignIds]
  rcases hraw : (p.rawSegments g i).mergeSort (fun a b => (Segment.order i a b).isLE) with _ | ⟨s, rest⟩
  · change p.startId i + 1 = min (p.startId i + max 1 0 - 1) maxSegmentId + 1
    omega
  · have hpos := length_runs_pos (Segment.same i) (List.cons_ne_nil s rest)
    obtain ⟨last, hlast, hid⟩ := getLast?_assignIds_id (i := i) (List.cons_ne_nil s rest) hroom
    rw [hlast, Nat.max_eq_right hpos]
    exact congrArg (· + 1) hid

/-- The run: a layer begins behind the ids that the layers before it need. -/
theorem startId_eq_idsNeeded (hi : i < p.depth) : p.startId i = p.idsNeeded i + 1 := by
  induction i with
  | zero => rfl
  | succ i ih =>
      have hroom := hp.room (i + 1) hi
      have hpos : 1 ≤ p.idsOfLayer i := Nat.le_max_left ..
      rw [hp.startId_succ (Nat.lt_of_succ_lt hi), ih (Nat.lt_of_succ_lt hi)] at hroom ⊢
      rw [idsNeeded_succ]
      omega

/-- Every layer has taken an id, so there are no more layers than ids. -/
theorem depth_le : p.depth ≤ maxSegmentId := by
  obtain ⟨n, hn⟩ := Nat.exists_eq_succ_of_ne_zero (Nat.ne_of_gt hp.depth_pos)
  have hlt : n < p.depth := by omega
  have hroom := hp.room n hlt
  have hle := le_idsNeeded p n
  rw [hp.startId_eq_idsNeeded hlt] at hroom
  omega

/-- Behind the last layer is the greatest id, or there are ids left. -/
theorem startId_depth : p.startId p.depth = min (p.idsNeeded p.depth) maxSegmentId + 1 := by
  obtain ⟨n, hn⟩ := Nat.exists_eq_succ_of_ne_zero (Nat.ne_of_gt hp.depth_pos)
  have hlt : n < p.depth := by omega
  have hpos : 1 ≤ p.idsOfLayer n := Nat.le_max_left ..
  rw [hn, hp.startId_succ hlt, hp.startId_eq_idsNeeded hlt, idsNeeded_succ]
  omega

theorem id_le (hi : i < p.depth) (hs : s ∈ p.layer i) : s.id ≤ maxSegmentId := by
  rw [← Array.mem_toList_iff, hp.toList_layer hi] at hs
  exact (id_bounds_of_mem_assignIds (hp.room i hi) hs).2

/-- There are ids for all layers if and only if no two segments that can be told apart share one. -/
theorem idsNeeded_le_iff : p.idsNeeded p.depth ≤ maxSegmentId ↔
    ∀ i < p.depth, ∀ s ∈ p.layer i, ∀ t ∈ p.layer i, s.id = t.id → Segment.same i s t = true := by
  constructor
  · intro hle i hi s hs t ht hid
    exact (hp.id_eq_iff (Nat.le_trans (runsBefore_le_idsNeeded p p.depth) hle) hi hs ht).1 hid
  · intro hsame
    apply Nat.le_of_not_lt
    intro hmany
    obtain ⟨n, hn⟩ := Nat.exists_eq_succ_of_ne_zero (Nat.ne_of_gt hp.depth_pos)
    have hlt : n < p.depth := by omega
    have hroom := hp.room n hlt
    have hstart := hp.startId_eq_idsNeeded hlt
    have hlist := hp.toList_layer hlt
    rw [hn, idsNeeded_succ, idsOfLayer, hlist, length_runs_assignIds] at hmany
    have hruns : maxSegmentId + 1 < p.startId n + (runs (Segment.same n)
        ((p.rawSegments g n).mergeSort fun a b => (Segment.order n a b).isLE)).length := by omega
    obtain ⟨a, ha, b, hb, haid, hbid, hkey⟩ := exists_same_id hroom hruns
    rw [← hlist, Array.mem_toList_iff] at ha hb
    exact hkey (Segment.same_iff.1 (hsame n hlt a ha b hb (haid.trans hbid.symm)))

/-- Segments of one run share an id, and segments that share one stand in one run. -/
theorem forall_runsOf_iff (hi : i < p.depth) :
    (∀ run ∈ p.runsOf i, ∀ s ∈ run, ∀ t ∈ run, Segment.same i s t = true) ↔
      ∀ s ∈ p.layer i, ∀ t ∈ p.layer i, s.id = t.id → Segment.same i s t = true := by
  constructor
  · intro h s hs t ht hid
    obtain ⟨run, hrun, hmem⟩ := exists_run hs
    exact h run hrun s hmem t (hp.mem_run_of_id_eq hi hrun hmem ht hid)
  · intro h run hrun s hs t ht
    exact h s (mem_layer_of_mem_run hrun hs) t (mem_layer_of_mem_run hrun ht) (id_eq_of_mem_run hrun hs ht)

/-- If the layers need more ids than there are, a run of the last layer starts with a segment that can be told
    apart from another one of the run. -/
theorem exists_run_of_idsNeeded (hmany : maxSegmentId < p.idsNeeded p.depth) :
    ∃ i, i + 1 = p.depth ∧ ∃ run ∈ p.runsOf i, ∃ s, run.head? = some s ∧
      ∃ t ∈ run, ¬ Segment.same i s t = true := by
  have hshared := mt hp.idsNeeded_le_iff.2 (Nat.not_le_of_lt hmany)
  push Not at hshared
  obtain ⟨i, hi, s, hs, t, ht, hid, hapart⟩ := hshared
  have hlast : i + 1 = p.depth := by
    by_contra hearly
    have hsharp := hp.sharp_of_layer_lt (Nat.lt_succ_self i) (by omega) hs
    exact hapart (hsharp i hi s hs t ht rfl hid.symm)
  obtain ⟨run, hrun, hsrun⟩ := exists_run hs
  have htrun := hp.mem_run_of_id_eq hi hrun hsrun ht hid
  obtain ⟨head, rest, rfl⟩ := List.exists_cons_of_ne_nil (List.ne_nil_of_mem hsrun)
  refine ⟨i, hlast, _, hrun, head, rfl, ?_⟩
  -- what the head cannot be told apart from cannot be told apart from one another
  by_contra hall
  push Not at hall
  have hkey := Segment.same_iff.1 (hall s hsrun)
  have hkey' := Segment.same_iff.1 (hall t htrun)
  exact hapart (Segment.same_iff.2 (TransCmp.eq_trans (OrientedCmp.eq_symm hkey) hkey'))

end Layered

/-! ### Whether a partition is built -/

theorem result_grow_cons (n : Nat) (w : Growth) :
    (grow (n + 1) w).result = w.next >>= fun v => (grow n v).result := by
  simp only [grow, Traced.result_bind, Traced.result_emit, Traced.result_lift]
  rfl

/-- The last layer may as well be added behind the others. -/
theorem result_grow_succ (n : Nat) (w : Growth) : (grow (n + 1) w).result = (grow n w).result >>= Growth.next := by
  induction n generalizing w with
  | zero =>
      rw [result_grow_cons]
      change (w.next >>= fun v => pure v) = pure w >>= Growth.next
      rw [bind_pure, pure_bind]
  | succ n ih =>
      rw [result_grow_cons, result_grow_cons, bind_assoc]
      congr 1
      funext v
      exact ih v

/-- A partition is built by adding layers to the first one. -/
theorem result_build_succ (g : Graph) (n : Nat) :
    (build g (n + 1)).result = (grow n (firstGrowth g)).result >>= fun w => pure ⟨w.layers⟩ := by
  simp only [build, Traced.result_bind, Traced.result_emit, Traced.result_pure]
  rfl

/-- The step: one more layer is made if there is an id left behind a partition. -/
theorem build_succ_of_ok (h : (build g k).result = .ok p) :
    (p.idsNeeded k < maxSegmentId → ∃ q, (build g (k + 1)).result = .ok q) ∧
    (maxSegmentId ≤ p.idsNeeded k → (build g (k + 1)).result = .error (.state .idsExhausted)) := by
  rcases k with _ | n
  · cases h
  · rw [result_build_succ] at h
    obtain ⟨w, hw, hp⟩ := bind_eq_ok.1 h
    cases hp
    obtain ⟨hlayered, hsize⟩ := (Growth.Layered.first g).grow hw
    have hdepth : (⟨w.layers⟩ : Partition).depth = n + 1 := hsize.trans (Nat.add_comm 1 n)
    have hlast := hlayered.layers.startId_depth
    have hid : w.lastId = min ((⟨w.layers⟩ : Partition).idsNeeded (n + 1)) maxSegmentId := by
      rw [hdepth] at hlast
      exact Nat.succ.inj (hlayered.lastId.trans ((congrArg _ hdepth).trans hlast))
    have hnext : (build g (n + 1 + 1)).result = w.next >>= fun v => pure ⟨v.layers⟩ := by
      rw [result_build_succ, result_grow_succ, hw]
      rfl
    rw [hnext]
    constructor
    · intro hlt
      have hroom : w.lastId < maxSegmentId := by omega
      refine ⟨_, bind_eq_ok.2 ⟨_, if_pos hroom, rfl⟩⟩
    · intro hle
      have hroom : ¬ w.lastId < maxSegmentId := by omega
      rw [Growth.next, if_neg hroom]
      rfl

/-- The step: what is not built is not built with one more layer. -/
theorem build_succ_of_error {e : Error} (hk : 0 < k) (h : (build g k).result = .error e) :
    (build g (k + 1)).result = .error e := by
  rcases k with _ | n
  · exact absurd hk (Nat.lt_irrefl 0)
  · rw [result_build_succ] at h ⊢
    rw [result_grow_succ]
    rcases bind_eq_error.1 h with hgrow | ⟨w, _, hpure⟩
    · rw [hgrow]
      rfl
    · cases hpure

/-- The run: a partition is not built if and only if some of its layers but the last one need all ids. -/
theorem build_error_iff {e : Error} (hk : 0 < k) : (build g k).result = .error e ↔
    e = .state .idsExhausted ∧
      ∃ j p, 0 < j ∧ j < k ∧ (build g j).result = .ok p ∧ maxSegmentId ≤ p.idsNeeded j := by
  induction k generalizing e with
  | zero => exact absurd hk (Nat.lt_irrefl 0)
  | succ k ih =>
      rcases Nat.eq_zero_or_pos k with rfl | hpos
      · constructor
        · intro h
          cases h
        · rintro ⟨_, j, p, hj, hlt, _⟩
          omega
      · constructor
        · intro h
          cases hbuild : (build g k).result with
          | ok p =>
              obtain ⟨hroom, hfull⟩ := build_succ_of_ok hbuild
              rcases Nat.lt_or_ge (p.idsNeeded k) maxSegmentId with hlt | hge
              · obtain ⟨q, hq⟩ := hroom hlt
                rw [hq] at h
                cases h
              · rw [hfull hge] at h
                cases h
                exact ⟨rfl, k, p, hpos, Nat.lt_succ_self k, hbuild, hge⟩
          | error e' =>
              rw [build_succ_of_error hpos hbuild] at h
              cases h
              obtain ⟨he, j, p, hj, hlt, hp⟩ := (ih hpos).1 hbuild
              exact ⟨he, j, p, hj, Nat.lt_succ_of_lt hlt, hp⟩
        · rintro ⟨rfl, j, p, hj, hlt, hp, hfull⟩
          rcases Nat.lt_succ_iff_lt_or_eq.1 hlt with hlt | rfl
          · exact build_succ_of_error hpos ((ih hpos).2 ⟨rfl, j, p, hj, hlt, hp, hfull⟩)
          · exact (build_succ_of_ok hp).2 hfull

/-- What the ids of a partition tell, and whether it is built. In every partition that is built the ids of later
    layers are greater, and segments of one layer that share an id have equal keys, except for the greatest id in
    the last layer. Whether this exception occurs is decided by the number of ids that all layers need: if there
    are that many, no two segments that can be told apart share an id or a run, and if there are not, some do. A
    partition is not built just if its layers but the last one need all ids, and then this is the error. -/
theorem ids_suffice_iff (g : Graph) (k : Nat) :
    (∀ p, (build g k).result = .ok p →
      (∀ i j, i < j → j < k → ∀ s ∈ p.layer i, ∀ t ∈ p.layer j, s.id < t.id) ∧
      (∀ i < k, ∀ s ∈ p.layer i, ∀ t ∈ p.layer i, s.id = t.id →
        Segment.same i s t = true ∨ i + 1 = k ∧ s.id = maxSegmentId) ∧
      (p.idsNeeded k ≤ maxSegmentId ↔
        ∀ i < k, ∀ s ∈ p.layer i, ∀ t ∈ p.layer i, s.id = t.id → Segment.same i s t = true) ∧
      (p.idsNeeded k ≤ maxSegmentId ↔
        ∀ i < k, ∀ run ∈ p.runsOf i, ∀ s ∈ run, ∀ t ∈ run, Segment.same i s t = true)) ∧
    (0 < k → ∀ e, (build g k).result = .error e ↔ e = .state .idsExhausted ∧
      ∃ j p, 0 < j ∧ j < k ∧ (build g j).result = .ok p ∧ maxSegmentId ≤ p.idsNeeded j) := by
  refine ⟨fun p h => ?_, fun hk e => build_error_iff hk⟩
  obtain ⟨hp, rfl⟩ := layered_of_build h
  refine ⟨fun i j hij hj s hs t ht => hp.id_lt_id hij hj hs ht, ?_, hp.idsNeeded_le_iff, ?_⟩
  · intro i hi s hs t ht hid
    by_cases hlast : i + 1 = p.depth
    · by_cases hmax : s.id = maxSegmentId
      · exact .inr ⟨hlast, hmax⟩
      · have hlt : s.id < maxSegmentId := Nat.lt_of_le_of_ne (hp.id_le hi hs) hmax
        exact .inl (hp.sharp_of_lt hlt i hi s hs t ht rfl hid.symm)
    · have hsharp := hp.sharp_of_layer_lt (Nat.lt_succ_self i) (by omega) hs
      exact .inl (hsharp i hi s hs t ht rfl hid.symm)
  · rw [hp.idsNeeded_le_iff]
    exact forall_congr' fun i => forall_congr' fun hi => (hp.forall_runsOf_iff hi).symm

/-! ### Layers whose pairs can be told apart -/

section Apart

variable (hp : p.Layered g) (hi : i < p.depth) (hg : g.Apart (i + 1))

include hp hi hg

/-- Where the labels of walks tell their ends, segments that cannot be told apart have one pair. -/
theorem pair_eq_of_same (hs : s ∈ p.layer i) (ht : t ∈ p.layer i) (h : Segment.same i s t = true) :
    s.pair = t.pair := by
  have hjoined := (hp.exists_segment_iff hi (u := s.pair.source) (v := s.pair.target)).1 ⟨s, hs, rfl⟩
  have hjoined' := (hp.exists_segment_iff hi (u := t.pair.source) (v := t.pair.target)).1 ⟨t, ht, rfl⟩
  obtain ⟨hsource, htarget⟩ := hg _ _ _ _ hjoined hjoined' fun ls hlen hw => by
    have hne : ls ≠ [] := List.ne_nil_of_length_eq_add_one hlen
    have hls : (⟨ls, hne⟩ : LabelSequence) ∈ s.labels := (hp.mem_labels_iff hi hs).2 ⟨hlen, hw⟩
    rw [hp.labels_eq_of_same hi hs ht h] at hls
    exact ((hp.mem_labels_iff hi ht).1 hls).2
  exact congrArg₂ Pair.mk hsource htarget

/-- So a layer needs an id for each pair that it joins. -/
theorem idsOfLayer_of_pairs {pairs : List Pair} (hnodup : pairs.Nodup)
    (hpairs : ∀ u v, (⟨u, v⟩ : Pair) ∈ pairs ↔ g.Joined (i + 1) u v) : p.idsOfLayer i = max 1 pairs.length := by
  have hperm : ((p.layer i).toList.map Segment.pair).Perm pairs := by
    refine (List.perm_ext_iff_of_nodup (hp.nodup_pairs hi) hnodup).2 ?_
    rintro ⟨u, v⟩
    rw [hpairs, ← hp.exists_segment_iff hi]
    simp only [List.mem_map, Array.mem_toList_iff]
  have hapart : (p.layer i).toList.Pairwise fun s t => ¬ Segment.same i s t = true := by
    refine (List.pairwise_map.1 (hp.nodup_pairs hi)).imp_of_mem fun hs ht hne h => hne ?_
    exact pair_eq_of_same hp hi hg (Array.mem_toList_iff.1 hs) (Array.mem_toList_iff.1 ht) h
  rw [idsOfLayer, length_runs_of_pairwise hapart, ← List.length_map (f := Segment.pair), hperm.length_eq]

omit hi in
/-- If the layers need more ids than there are, some walk has the labels of one between the ends of the first
    segment of a run, and no walk between the ends of another segment of the run has them. -/
theorem exists_label_of_idsNeeded (hlast : i + 1 = p.depth) (hmany : maxSegmentId < p.idsNeeded p.depth) :
    ∃ run ∈ p.runsOf i, ∃ s, run.head? = some s ∧ ∃ t ∈ run, ∃ ls : List Label, ls.length = i + 1 ∧
      g.Walk s.pair.source ls s.pair.target ∧ ¬ g.Walk t.pair.source ls t.pair.target := by
  obtain ⟨j, hj, run, hrun, s, hhead, t, ht, hapart⟩ := hp.exists_run_of_idsNeeded hmany
  obtain rfl : j = i := by omega
  have hi : j < p.depth := by omega
  have hs' := mem_layer_of_mem_run hrun (List.mem_of_head? hhead)
  have ht' := mem_layer_of_mem_run hrun ht
  refine ⟨run, hrun, s, hhead, t, ht, ?_⟩
  by_contra hall
  push Not at hall
  obtain ⟨hsource, htarget⟩ := hg _ _ _ _ ((hp.exists_segment_iff hi).1 ⟨s, hs', rfl⟩)
    ((hp.exists_segment_iff hi).1 ⟨t, ht', rfl⟩) hall
  obtain rfl : s = t := List.inj_on_of_nodup_map (hp.nodup_pairs hi) (Array.mem_toList_iff.2 hs')
    (Array.mem_toList_iff.2 ht') (congrArg₂ Pair.mk hsource htarget)
  exact hapart (Segment.same_iff.2 (ReflCmp.compare_self))

end Apart

section Star

variable {star : Star}

/-- How many ids one and two layers of a star need. -/
theorem idsNeeded_star (hp : p.Layered star.graph) (hpos : 0 < star.size) :
    p.idsNeeded 1 = 2 * star.size ∧
      (1 < p.depth → p.idsNeeded 2 = 2 * star.size + (star.size * star.size + 1)) := by
  have hfirst : p.idsNeeded 1 = 2 * star.size := by
    rw [idsNeeded_succ, idsOfLayer_of_pairs hp hp.depth_pos Star.apart_one (Graph.nodup_spokes star.size_lt)
      fun u v => Graph.mem_spokes.trans Star.joined_one.symm, Graph.length_spokes]
    change 0 + max 1 (2 * star.size) = 2 * star.size
    omega
  refine ⟨hfirst, fun hdepth => ?_⟩
  have hjoined : ∀ u v, (⟨u, v⟩ : Pair) ∈ Graph.detours star.size ↔ star.graph.Joined 2 u v := by
    intro u v
    rw [Graph.mem_detours, Star.joined_two, and_iff_right hpos]
  rw [idsNeeded_succ, hfirst, idsOfLayer_of_pairs hp hdepth Star.apart_two (Graph.nodup_detours star.size_lt)
    hjoined, Graph.length_detours, Nat.max_eq_right (Nat.le_add_left ..)]

/-- Two layers of a star are built if the pairs of the center and the rim leave an id. -/
theorem exists_build_star (hpos : 0 < star.size) (hroom : 2 * star.size < maxSegmentId) :
    ∃ p, (build star.graph 2).result = .ok p := by
  cases hbuild : (build star.graph 2).result with
  | ok p => exact ⟨p, rfl⟩
  | error e =>
      obtain ⟨_, j, p, hj, hlt, hp, hfull⟩ := (build_error_iff (by decide)).1 hbuild
      obtain rfl : j = 1 := by omega
      rw [(idsNeeded_star (layered_of_build hp).1 hpos).1] at hfull
      omega

/-- The partition of a star with 65535 points into two layers is built, although it needs `2 ^ 32` ids, one more
    than there are: a label for each point is enough that two pairs which have no label in common share the
    greatest id in the second layer, and make up one run there. -/
theorem star_shares_last_id : ∃ p, (build (Star.oneEach 65535 (by decide)).graph 2).result = .ok p ∧
    (∃ i < 2, ∃ s ∈ p.layer i, ∃ t ∈ p.layer i, s.id = t.id ∧ ¬ Segment.same i s t = true) ∧
    ∃ i < 2, ∃ run ∈ p.runsOf i, ∃ s ∈ run, ∃ t ∈ run, ¬ Segment.same i s t = true := by
  have hmax : maxSegmentId = 4294967295 := rfl
  have hpos : 0 < (Star.oneEach 65535 (by decide)).size := Nat.succ_pos _
  obtain ⟨p, hbuild⟩ := exists_build_star hpos (by decide)
  obtain ⟨_, _, hids, hruns⟩ := (ids_suffice_iff _ 2).1 p hbuild
  obtain ⟨hp, hdepth⟩ := layered_of_build hbuild
  have hmany : ¬ p.idsNeeded 2 ≤ maxSegmentId := by
    rw [(idsNeeded_star hp hpos).2 (by omega)]
    decide
  have hshared := mt hids.2 hmany
  have hjoined := mt hruns.2 hmany
  push Not at hshared hjoined
  exact ⟨p, hbuild, hshared, hjoined⟩

end Star

end Partition

end PathQueryIndex

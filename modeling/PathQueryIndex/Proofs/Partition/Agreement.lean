/-
Module: PathQueryIndex.Proofs.Partition.Agreement
Layer: Proofs
Purpose: Segments of one run agree on queries. A query asks for a walk as long as its diameter, so what
  holds for a pair is seen in the layer of that length, and a concatenation is seen there as a split.
  Along the structure of the query the two segments go down together: to the earlier layer that has the
  walk, and from there to the two parts of the split.
Imports: PathQueryIndex.Query.Answer, PathQueryIndex.Proofs.Partition.Records
Main exports: Query.joined_of_holds, Query.holds_iff_of_diameter_eq_zero, Query.diameter_path,
  Partition.Layered.holds_iff_of_id_eq
-/
import PathQueryIndex.Query.Answer
import PathQueryIndex.Proofs.Partition.Records

namespace PathQueryIndex

/-! ### The walk that a query asks for -/

namespace Graph

variable {g : Graph} {u v : Vertex} {l : Label} {n : Nat}

/-- Both ends of a step are vertices of the graph. -/
theorem Step.lt_vertexCount (h : g.Step l u v) : u < g.vertexCount ∧ v < g.vertexCount := by
  obtain ⟨id, inverse⟩ := l
  cases inverse with
  | false => exact (g.inBounds _ h).1
  | true => exact (g.inBounds _ h).1.symm

theorem Joined.source_lt (h : g.Joined (n + 1) u v) : u < g.vertexCount := by
  rw [Nat.add_comm] at h
  obtain ⟨w, hstep, _⟩ := joined_add.1 h
  obtain ⟨l, hl⟩ := joined_one.1 hstep
  exact hl.lt_vertexCount.1

theorem Joined.target_lt (h : g.Joined (n + 1) u v) : v < g.vertexCount := by
  obtain ⟨w, _, hstep⟩ := joined_add.1 h
  obtain ⟨l, hl⟩ := joined_one.1 hstep
  exact hl.lt_vertexCount.2

end Graph

namespace Query

variable {g : Graph} {q : Query} {u v : Vertex}

/-- A query holds only where a walk of its diameter leads. -/
theorem joined_of_holds (h : q.Holds g u v) : g.Joined q.diameter u v := by
  induction q generalizing u v with
  | identity => exact ⟨[], rfl, Graph.walk_nil.2 h.1⟩
  | label l => exact Graph.joined_one.2 ⟨l, h⟩
  | concat first second ihf ihs =>
      obtain ⟨w, hfirst, hsecond⟩ := h
      exact Graph.joined_add.2 ⟨w, ihf hfirst, ihs hsecond⟩
  | intersect left right ihl ihr =>
      obtain ⟨hleft, hright⟩ := h
      rw [diameter]
      by_cases hle : left.diameter ≤ right.diameter
      · rw [Nat.max_eq_right hle]
        exact ihr hright
      · rw [Nat.max_eq_left (Nat.le_of_not_le hle)]
        exact ihl hleft

/-- The query of a label sequence asks for as many steps as it has labels. -/
theorem diameter_path (ls : LabelSequence) : (path ls).diameter = ls.length := by
  have hfold : ∀ (labels : List Label) (q : Query),
      ((labels.map label).foldl concat q).diameter = q.diameter + labels.length := by
    intro labels
    induction labels with
    | nil =>
        intro q
        rfl
    | cons l labels ih =>
        intro q
        rw [List.map_cons, List.foldl_cons, ih, List.length_cons, diameter, diameter]
        exact (Nat.add_assoc ..).trans (congrArg _ (Nat.add_comm ..))
  obtain ⟨labels, hne⟩ := ls
  cases labels with
  | nil => exact absurd rfl hne
  | cons l labels =>
      have h := hfold labels (label l)
      rw [diameter, Nat.add_comm] at h
      exact h

/-- A query without steps relates every vertex to itself, and nothing else. -/
theorem holds_iff_of_diameter_eq_zero (hq : q.diameter = 0) :
    q.Holds g u v ↔ u = v ∧ u < g.vertexCount := by
  induction q generalizing u v with
  | identity => exact Iff.rfl
  | label l => cases hq
  | concat first second ihf ihs =>
      obtain ⟨hf, hs⟩ := Nat.add_eq_zero_iff.1 hq
      constructor
      · intro h
        obtain ⟨w, hfirst, hsecond⟩ := h
        obtain ⟨rfl, hu⟩ := (ihf hf).1 hfirst
        exact (ihs hs).1 hsecond
      · intro h
        obtain ⟨rfl, hu⟩ := h
        exact ⟨u, (ihf hf).2 ⟨rfl, hu⟩, (ihs hs).2 ⟨rfl, hu⟩⟩
  | intersect left right ihl ihr =>
      obtain ⟨hl, hr⟩ := Nat.max_eq_zero_iff.1 hq
      constructor
      · intro h
        exact (ihl hl).1 h.1
      · intro h
        exact ⟨(ihl hl).2 h, (ihr hr).2 h⟩

end Query

/-! ### Segments of one run -/

namespace Partition

variable {g : Graph} {p : Partition} {i : Nat} {s t : Segment} {q : Query}

namespace Layered

variable (hp : p.Layered g)

include hp

theorem source_lt (hi : i < p.depth) (hs : s ∈ p.layer i) : s.pair.source < g.vertexCount :=
  ((hp.exists_segment_iff hi).1 ⟨s, hs, rfl⟩).source_lt

theorem target_lt (hi : i < p.depth) (hs : s ∈ p.layer i) : s.pair.target < g.vertexCount :=
  ((hp.exists_segment_iff hi).1 ⟨s, hs, rfl⟩).target_lt

/-- Both segments have the identity if one of them has it. -/
theorem holds_identity_of_id_eq (hsharp : p.Sharp s.id) (hi : i < p.depth)
    (hs : s ∈ p.layer i) (ht : t ∈ p.layer i) (hid : s.id = t.id)
    (h : s.pair.source = s.pair.target) :
    t.pair.source = t.pair.target ∧ t.pair.source < g.vertexCount := by
  have hloop : s.isLoop = true := beq_iff_eq.2 h
  rw [isLoop_eq_of_sharp hsharp hi hs ht hid] at hloop
  exact ⟨beq_iff_eq.1 hloop, hp.source_lt hi ht⟩

/-- Both segments have a label if one of them has it: it is a label of both in the first layer. -/
theorem step_of_id_eq (hsharp : p.Sharp s.id) (hi : i < p.depth)
    (hs : s ∈ p.layer i) (ht : t ∈ p.layer i) (hid : s.id = t.id) {l : Label}
    (h : g.Step l s.pair.source s.pair.target) : g.Step l t.pair.source t.pair.target := by
  obtain ⟨x, hx, hxpair⟩ := (hp.exists_segment_iff hp.depth_pos).2 (Graph.joined_one.2 ⟨l, h⟩)
  obtain ⟨y, hy, hypair, hyid⟩ :=
    hp.exists_earlier hsharp hi (Nat.zero_le i) hs ht hid hx hxpair
  have hlabel : LabelSequence.single l ∈ x.labels := by
    refine (hp.mem_labels_zero_iff hx).2 ⟨rfl, ?_⟩
    rw [hxpair]
    exact Graph.walk_singleton.2 h
  have hxsharp := hp.sharp_of_pair_eq hsharp hi (Nat.zero_le i) hs hx hxpair
  rw [hp.labels_eq_of_id_eq hxsharp hx hy hyid.symm] at hlabel
  have hwalk := ((hp.mem_labels_zero_iff hy).1 hlabel).2
  rw [hypair] at hwalk
  exact Graph.walk_singleton.1 hwalk

/-- If a walk of the one segment can be split after `m` steps, so can a walk of the other, into segments
    with the same ids: both ways to split stand in the layer of the length of the walk. -/
theorem exists_split_of_id_eq (hsharp : p.Sharp s.id) (hi : i < p.depth)
    (hs : s ∈ p.layer i) (ht : t ∈ p.layer i) (hid : s.id = t.id) {m n : Nat} {w : Vertex}
    (hlen : m + 1 + (n + 1) ≤ i + 1) (hfirst : g.Joined (m + 1) s.pair.source w)
    (hsecond : g.Joined (n + 1) w s.pair.target) :
    ∃ a ∈ p.layer m, ∃ b ∈ p.layer n, ∃ a' ∈ p.layer m, ∃ b' ∈ p.layer n,
      a.pair = ⟨s.pair.source, w⟩ ∧ b.pair = ⟨w, s.pair.target⟩ ∧
      a'.pair.source = t.pair.source ∧ a'.pair.target = b'.pair.source ∧
      b'.pair.target = t.pair.target ∧ a.id = a'.id ∧ b.id = b'.id := by
  have hm : m < p.depth := by omega
  have hn : n < p.depth := by omega
  have hsum : m + n + 1 < p.depth := by omega
  obtain ⟨a, ha, hapair⟩ := (hp.exists_segment_iff hm).2 hfirst
  obtain ⟨b, hb, hbpair⟩ := (hp.exists_segment_iff hn).2 hsecond
  have hwhole : g.Joined (m + n + 1 + 1) s.pair.source s.pair.target := by
    have hadd : m + n + 1 + 1 = (m + 1) + (n + 1) := by omega
    rw [hadd]
    exact Graph.joined_add.2 ⟨w, hfirst, hsecond⟩
  obtain ⟨x, hx, hxpair⟩ := (hp.exists_segment_iff hsum).2 hwhole
  obtain ⟨y, hy, hypair, hyid⟩ := hp.exists_earlier hsharp hi (by omega) hs ht hid hx hxpair
  have hsplit : (a.id, b.id) ∈ x.splits.toList.map Split.ids := by
    refine (hp.mem_split_ids_iff hsum hx).2 ⟨m, n, rfl, a, ha, b, hb, ?_, ?_, rfl⟩
    · rw [hapair, hbpair]
    · rw [hapair, hbpair]
      exact hxpair
  have hxsharp := hp.sharp_of_pair_eq hsharp hi (by omega) hs hx hxpair
  rw [(records_eq_of_id_eq hxsharp hsum hx hy hyid.symm).1] at hsplit
  obtain ⟨m', n', hsum', a', ha', b', hb', hab, hpair, hids⟩ :=
    (hp.mem_split_ids_iff hsum hy).1 hsplit
  obtain ⟨haid, hbid⟩ := Prod.mk.inj hids
  obtain rfl := hp.eq_layer_of_id_eq hm (by omega) ha ha' haid
  obtain rfl := hp.eq_layer_of_id_eq hn (by omega) hb hb' hbid
  rw [hypair] at hpair
  exact ⟨a, ha, b, hb, a', ha', b', hb', hapair, hbpair, by rw [hpair], hab, by rw [hpair],
    haid, hbid⟩

/-- A query up to the length of the walks of a layer holds for a segment if it holds for another of the
    same run. -/
theorem holds_of_id_eq (hsharp : p.Sharp s.id) (hi : i < p.depth)
    (hs : s ∈ p.layer i) (ht : t ∈ p.layer i) (hid : s.id = t.id) (hq : q.diameter ≤ i + 1)
    (h : q.Holds g s.pair.source s.pair.target) : q.Holds g t.pair.source t.pair.target := by
  -- the layer goes down where a concatenation is taken apart
  induction q generalizing i s t with
  | identity => exact hp.holds_identity_of_id_eq hsharp hi hs ht hid h.1
  | label l => exact hp.step_of_id_eq hsharp hi hs ht hid h
  | intersect left right ihl ihr =>
      obtain ⟨hl, hr⟩ := Nat.max_le.1 hq
      exact ⟨ihl hsharp hi hs ht hid hl h.1, ihr hsharp hi hs ht hid hr h.2⟩
  | concat first second ihf ihs =>
      obtain ⟨w, hfirst, hsecond⟩ := h
      rw [Query.diameter] at hq
      cases hm : first.diameter with
      | zero =>
          obtain ⟨rfl, hu⟩ := (Query.holds_iff_of_diameter_eq_zero hm).1 hfirst
          have hsecond := ihs hsharp hi hs ht hid (by omega) hsecond
          exact ⟨_, (Query.holds_iff_of_diameter_eq_zero hm).2 ⟨rfl, hp.source_lt hi ht⟩, hsecond⟩
      | succ m =>
          cases hn : second.diameter with
          | zero =>
              obtain ⟨rfl, _⟩ := (Query.holds_iff_of_diameter_eq_zero hn).1 hsecond
              have hfirst := ihf hsharp hi hs ht hid (by omega) hfirst
              have hstay := (Query.holds_iff_of_diameter_eq_zero hn).2 ⟨rfl, hp.target_lt hi ht⟩
              exact ⟨_, hfirst, hstay⟩
          | succ n =>
              have hjoined := Query.joined_of_holds hfirst
              have hjoined' := Query.joined_of_holds hsecond
              rw [hm] at hjoined
              rw [hn] at hjoined'
              obtain ⟨a, ha, b, hb, a', ha', b', hb', hapair, hbpair, hsource, hmid, htarget, haid,
                hbid⟩ := hp.exists_split_of_id_eq hsharp hi hs ht hid (by omega) hjoined hjoined'
              have hasharp := hp.sharp_of_layer_lt (i := m) (by omega) hi ha
              have hbsharp := hp.sharp_of_layer_lt (i := n) (by omega) hi hb
              have hfirst' := ihf hasharp (by omega) ha ha' haid (by omega)
                (by rw [hapair]; exact hfirst)
              have hsecond' := ihs hbsharp (by omega) hb hb' hbid (by omega)
                (by rw [hbpair]; exact hsecond)
              rw [hsource] at hfirst'
              rw [htarget, ← hmid] at hsecond'
              exact ⟨_, hfirst', hsecond'⟩

/-- Segments of one run agree on every query up to the length of their walks. -/
theorem holds_iff_of_id_eq (hsharp : p.Sharp s.id) (hi : i < p.depth)
    (hs : s ∈ p.layer i) (ht : t ∈ p.layer i) (hid : s.id = t.id) (hq : q.diameter ≤ i + 1) :
    q.Holds g s.pair.source s.pair.target ↔ q.Holds g t.pair.source t.pair.target :=
  ⟨hp.holds_of_id_eq hsharp hi hs ht hid hq,
    hp.holds_of_id_eq (hid ▸ hsharp) hi ht hs hid.symm hq⟩

end Layered

end Partition

end PathQueryIndex

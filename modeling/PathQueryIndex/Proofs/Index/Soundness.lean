/-
Module: PathQueryIndex.Proofs.Index.Soundness
Layer: Proofs
Purpose: Cores tell the truth. Every core of a draft is a query that asks for no longer walks than those of
  the layer of its run, and that holds for all pairs of the run. The cores of the first layer are labels of
  the run; an inherited core holds for a pair that the run has in common with an earlier one; a
  concatenation holds for the first segment, whose walks are joined of those of two earlier runs; and
  whatever holds for one pair of a run holds for all. Intersections keep this, and so does the identity for
  a run of loops. Since equal codes mean equivalent patterns, a query whose code is that of a core holds too.
Imports: PathQueryIndex.Proofs.Index.Codes, PathQueryIndex.Proofs.Index.Links,
  PathQueryIndex.Proofs.Index.Blocks
Main exports: Query.TrueOf, Core.TrueOf, Builder.Sound, Builder.sound_of_ofPartition,
  Builder.exists_draft_of_mem_finish, Index.build_of_construction
-/
import PathQueryIndex.Proofs.Index.Codes
import PathQueryIndex.Proofs.Index.Links
import PathQueryIndex.Proofs.Index.Blocks

namespace PathQueryIndex

open Std

/-! ### Queries that are true of a run -/

variable {g : Graph} {p : Partition} {r t : LayerRun} {c : Canonicalizer} {limit : Option Nat}

/-- A query takes steps, it asks for no longer walks than those of a run, and it holds for all pairs of the
    run, provided that the id of the run stands for one key. -/
structure Query.TrueOf (g : Graph) (p : Partition) (r : LayerRun) (q : Query) : Prop where
  takesSteps : q.TakesSteps
  diameter_le : q.diameter ≤ r.layer + 1
  holds : p.Sharp r.id → ∀ pair ∈ r.pairs, q.Holds g pair.source pair.target

/-- The identity holds for the loops among the pairs of a run. -/
theorem Partition.Layered.holds_identity_iff (hp : p.Layered g) (hr : r ∈ p.runsUpTo p.depth) {pair : Pair}
    (hpair : pair ∈ r.pairs) :
    Query.identity.Holds g pair.source pair.target ↔ pair.isLoop = true := by
  refine ⟨fun h => beq_iff_eq.2 h.1, fun h => ⟨beq_iff_eq.1 h, ?_⟩⟩
  obtain ⟨s, hs, _, rfl⟩ := Partition.exists_mem_segments hr hpair
  exact hp.source_lt (Partition.mem_runsUpTo.1 hr).1 hs

namespace Query.TrueOf

variable {a b q : Query} {pair : Pair}

theorem intersect (ha : a.TrueOf g p r) (hb : b.TrueOf g p r) : (Query.intersect a b).TrueOf g p r where
  takesSteps := ⟨ha.takesSteps, .inr hb.takesSteps⟩
  diameter_le := Nat.max_le.2 ⟨ha.diameter_le, hb.diameter_le⟩
  holds := fun hsharp pair hpair => ⟨ha.holds hsharp pair hpair, hb.holds hsharp pair hpair⟩

/-- What holds for one pair of a run is true of the run. -/
theorem of_pair (hp : p.Layered g) (hr : r ∈ p.runsUpTo p.depth) (hpair : pair ∈ r.pairs)
    (hsteps : q.TakesSteps) (hq : q.diameter ≤ r.layer + 1)
    (h : p.Sharp r.id → q.Holds g pair.source pair.target) : q.TrueOf g p r where
  takesSteps := hsteps
  diameter_le := hq
  holds := fun hsharp _ hother =>
    (hp.holds_iff_of_sharp hsharp (Nat.le_refl _) hr hpair hother hq).1 (h hsharp)

/-- What is true of a run is true of every later run with a pair in common. -/
theorem of_earlier (hp : p.Layered g) (hr : r ∈ p.runsUpTo p.depth) (ht : t ∈ p.runsUpTo p.depth)
    (hlt : t.layer < r.layer) (hpair : pair ∈ r.pairs) (hpair' : pair ∈ t.pairs)
    (h : q.TrueOf g p t) : q.TrueOf g p r :=
  have hsharp := hp.sharp_of_mem_runsUpTo ht hlt (Partition.mem_runsUpTo.1 hr).1
  of_pair hp hr hpair h.takesSteps
    (Nat.le_trans h.diameter_le (Nat.succ_le_succ (Nat.le_of_lt hlt))) fun _ =>
      h.holds hsharp pair hpair'

/-- The concatenation of what is true of two runs that have the two parts of a split of a segment is true
    of the run of the segment. -/
theorem concat (hp : p.Layered g) (hr : r ∈ p.runsUpTo p.depth) {s : Segment} (hs : s ∈ r.segments)
    {sp : Split} (hsp : sp ∈ s.splits) {i j : Nat} {t₁ t₂ : LayerRun}
    (ht₁ : (p.runsUpTo p.depth)[i]? = some t₁) (ht₂ : (p.runsUpTo p.depth)[j]? = some t₂)
    (hi : p.OwnedBy sp.first i) (hj : p.OwnedBy sp.second j) (ha : a.TrueOf g p t₁)
    (hb : b.TrueOf g p t₂) : (Query.concat a b).TrueOf g p r := by
  obtain ⟨hlayer, hrun⟩ := Partition.mem_runsUpTo.1 hr
  obtain ⟨t₁', x, ht₁', hlayer₁, hx, hxmem⟩ := hi
  obtain ⟨t₂', y, ht₂', hlayer₂, hy, hymem⟩ := hj
  rw [ht₁] at ht₁'
  rw [ht₂] at ht₂'
  cases ht₁'
  cases ht₂'
  have hs' := Partition.mem_layer_of_mem_run hrun hs
  have hne : r.layer ≠ 0 := by
    intro hzero
    rw [hzero] at hs'
    rw [hp.splits_eq_empty hs'] at hsp
    cases hsp
  obtain ⟨n, hn⟩ := Nat.exists_eq_succ_of_ne_zero hne
  rw [hn] at hs' hlayer
  obtain ⟨x', y', hx', hy', hsum, hxy, hpair, _⟩ := hp.exists_of_mem_splits hlayer hs' hsp
  rw [hx] at hx'
  rw [hy] at hy'
  cases hx'
  cases hy'
  have ha₁ := ha.holds (hp.sharp_of_mem_runsUpTo (List.mem_of_getElem? ht₁) (by omega) hlayer) x.pair
    (List.mem_map_of_mem hxmem)
  have hb₁ := hb.holds (hp.sharp_of_mem_runsUpTo (List.mem_of_getElem? ht₂) (by omega) hlayer) y.pair
    (List.mem_map_of_mem hymem)
  refine of_pair hp hr (List.mem_map_of_mem hs) ⟨ha.takesSteps, hb.takesSteps⟩ ?_ fun _ => ?_
  · have hd₁ := ha.diameter_le
    have hd₂ := hb.diameter_le
    change a.diameter + b.diameter ≤ r.layer + 1
    omega
  · rw [hpair]
    exact ⟨x.pair.target, ha₁, hxy ▸ hb₁⟩

/-- What is true of a run of loops is so with the identity beside it. -/
theorem anchor (hp : p.Layered g) (hr : r ∈ p.runsUpTo p.depth) (hpair : pair ∈ r.pairs)
    (hloop : pair.isLoop = true) (ha : a.TrueOf g p r) : (Query.intersect a .identity).TrueOf g p r := by
  refine of_pair hp hr hpair ⟨ha.takesSteps, .inl rfl⟩ ?_ fun hsharp =>
    ⟨ha.holds hsharp pair hpair, hp.holds_identity_iff hr hpair |>.2 hloop⟩
  exact Nat.max_le.2 ⟨ha.diameter_le, Nat.zero_le _⟩

/-- The path of a label of a segment of the first layer is true of its run. -/
theorem path_of_mem_labels (hp : p.Layered g) (hr : r ∈ p.runsUpTo p.depth) (hzero : r.layer = 0)
    {s : Segment} (hs : s ∈ r.segments) {ls : LabelSequence} (hls : ls ∈ s.labels) :
    (Query.path ls).TrueOf g p r ∧ ∃ l, Query.path ls = .label l := by
  have hs' := Partition.mem_layer_of_mem_run (Partition.mem_runsUpTo.1 hr).2 hs
  rw [hzero] at hs'
  obtain ⟨hlen, hwalk⟩ := (hp.mem_labels_zero_iff hs').1 hls
  obtain ⟨l, hl⟩ : ∃ l, Query.path ls = .label l := by
    obtain ⟨labels, hne⟩ := ls
    obtain ⟨l, rfl⟩ := List.length_eq_one_iff.1 hlen
    exact ⟨l, rfl⟩
  refine ⟨of_pair hp hr (List.mem_map_of_mem hs) ?_ ?_ fun _ => Query.holds_path.2 hwalk, l, hl⟩
  · rw [hl]
    trivial
  · rw [Query.diameter_path, hlen]
    exact Nat.succ_le_succ (Nat.zero_le _)

end Query.TrueOf

/-! ### The cores of the drafts -/

/-- A core is coded, and its query is true of a run. -/
structure Core.TrueOf (c : Canonicalizer) (g : Graph) (p : Partition) (r : LayerRun) (core : Core) :
    Prop where
  coded : core.Coded c
  query : core.query.TrueOf g p r

theorem Canonicalizer.Gives.true {q : Query} {core : Core} (h : c.Gives (CoreSet.folded q) core)
    (hq : q.TrueOf g p r) : core.TrueOf c g p r where
  coded := h.coded (Pattern.standsFor_canonicalPattern q)
  query := h.query_eq ▸ hq

namespace Builder

variable {b b' : Builder} {draft : Draft} {set set' : CoreSet} {m n : Nat}

/-- The cores of all drafts are true of their runs, and the codes of a draft are those of its cores. -/
def Sound (c : Canonicalizer) (g : Graph) (p : Partition) (b : Builder) : Prop :=
  ∀ (j : Nat) (draft : Draft) (r : LayerRun), b.drafts[j]? = some draft →
    (p.runsUpTo p.depth)[j]? = some r → (∀ core ∈ draft.block.cores, core.TrueOf c g p r) ∧
      ∀ h, h ∈ draft.block.coreHashes ↔ ∃ core ∈ draft.block.cores, core.hash = h

/-- A core of a draft is true of the run of the draft. -/
theorem Sound.true {i : Nat} {core : Core} (hsound : b.Sound c g p)
    (ht : (p.runsUpTo p.depth)[i]? = some t)
    (hcore : core ∈ (b.drafts.getD i default).block.cores) : core.TrueOf c g p t := by
  rw [Array.getD_eq_getD_getElem?] at hcore
  cases hget : b.drafts[i]? with
  | none =>
      rw [hget] at hcore
      cases hcore
  | some other =>
      rw [hget] at hcore
      exact (hsound i other t hget ht).1 core hcore

section Cores

variable (hp : p.Layered g) (hr : (p.runsUpTo p.depth)[m]? = some r) (hlinked : Linked p m r draft)
  (hsound : b.Sound c g p)

include hp hr hlinked

/-- The paths that a block of the first layer starts from are true. -/
theorem true_of_absorb_paths (hjoins : draft.joins.isEmpty = true)
    (h : (CoreSet.empty b.requests).absorb c
      ((draft.block.labels.toList.map Query.path).map fun q => (q, canonicalPattern q true)) =
        .ok set) : ∀ core ∈ set.cores.toList, core.TrueOf c g p r := by
  have hrmem := List.mem_of_getElem? hr
  refine CoreSet.all_of_absorb h (fun core hcore => nomatch hcore) fun item hitem core hcore => ?_
  obtain ⟨q, hq, rfl⟩ := List.mem_map.1 hitem
  obtain ⟨ls, hls, rfl⟩ := List.mem_map.1 hq
  have hzero := hlinked.layer_eq_zero hp hr hjoins
  obtain ⟨s, hhead, hlabel⟩ := (hlinked.labels hzero ls).1 hls
  obtain ⟨htrue, l, hl⟩ :=
    Query.TrueOf.path_of_mem_labels hp hrmem hzero (List.mem_of_head? hhead) hlabel
  refine ⟨hcore.coded ?_, hcore.query_eq ▸ htrue⟩
  rw [hl]
  exact Pattern.standsFor_label l

include hsound

/-- Inherited cores are true: they hold for a pair in common. -/
theorem true_of_inherited {i : Nat} {core : Core} (hi : i ∈ draft.inherited)
    (hcore : core ∈ (b.drafts.getD i default).block.cores) : core.TrueOf c g p r := by
  obtain ⟨_, t, pair, ht, hlt, hpair, hpair'⟩ := hlinked.of_mem_inherited hp hr hi
  have htrue := hsound.true ht hcore
  exact ⟨htrue.coded, htrue.query.of_earlier hp (List.mem_of_getElem? hr) (List.mem_of_getElem? ht)
    hlt hpair hpair'⟩

/-- Concatenations of cores of joined drafts are true. -/
theorem true_of_joined {x : BlockJoin} {first second : Core} (hx : x ∈ draft.joins)
    (hfirst : first ∈ (b.drafts.getD x.first default).block.cores)
    (hsecond : second ∈ (b.drafts.getD x.second default).block.cores) :
    (Query.concat first.query second.query).TrueOf g p r := by
  obtain ⟨s, hhead, sp, hsp, hi, hj⟩ := (hlinked.joins x).1 hx
  obtain ⟨t₁, x₁, ht₁, hx₁⟩ := id hi
  obtain ⟨t₂, x₂, ht₂, hx₂⟩ := id hj
  exact Query.TrueOf.concat hp (List.mem_of_getElem? hr) (List.mem_of_head? hhead) hsp ht₁ ht₂ hi hj
    (hsound.true ht₁ hfirst).query (hsound.true ht₂ hsecond).query

/-- The cores that a block starts from are true. -/
theorem baseCores_true {inherited : Nat} (h : b.baseCores c draft = .ok (set, inherited)) :
    (∀ core ∈ set.cores.toList, core.TrueOf c g p r) ∧ set.Coherent := by
  unfold baseCores at h
  split at h
  · rename_i hjoins
    obtain ⟨set', hset, h⟩ := bind_eq_ok.1 h
    cases h
    obtain ⟨_, htakes⟩ := CoreSet.takes_of_absorb hset
    exact ⟨true_of_absorb_paths hp hr hlinked hjoins hset,
      htakes.coherent (CoreSet.coherent_empty _)⟩
  · obtain ⟨set', hset, h⟩ := bind_eq_ok.1 h
    cases h
    obtain ⟨_, htakes⟩ := CoreSet.takes_of_absorb hset
    have hinherited := CoreSet.takes_foldl_insert (CoreSet.empty b.requests)
      (draft.inherited.toList.flatMap fun i => (b.drafts.getD i default).block.cores)
    refine ⟨CoreSet.all_of_absorb hset (hinherited.all (fun core hcore => nomatch hcore) ?_) ?_,
      htakes.coherent (hinherited.coherent (CoreSet.coherent_empty _))⟩
    · intro core hcore
      obtain ⟨i, hi, hcore⟩ := List.mem_flatMap.1 hcore
      exact true_of_inherited hp hr hlinked hsound hi hcore
    · intro item hitem core hcore
      obtain ⟨q, hq, rfl⟩ := List.mem_map.1 hitem
      obtain ⟨x, hx, hq⟩ := List.mem_flatMap.1 hq
      obtain ⟨first, hfirst, hq⟩ := List.mem_flatMap.1 hq
      obtain ⟨second, hsecond, rfl⟩ := List.mem_map.1 hq
      exact hcore.true (true_of_joined hp hr hlinked hsound hx hfirst hsecond)

/-- All cores of a block are true, and their codes are its codes. -/
theorem coresOf_true (h : b.coresOf c limit draft = .ok set) :
    (∀ core ∈ set.cores.toList, core.TrueOf c g p r) ∧ set.Coherent := by
  obtain ⟨⟨base, inherited⟩, hbase, h⟩ := bind_eq_ok.1 h
  obtain ⟨closed, hclosed, h⟩ := bind_eq_ok.1 h
  obtain ⟨hbasetrue, hcoherent⟩ := baseCores_true hp hr hlinked hsound hbase
  have hclosedtrue := CoreSet.all_of_close (Q := Query.TrueOf g p r) (P := Core.TrueOf c g p r)
    (fun _ _ ha hb => ha.intersect hb) (fun _ _ hq hgives => hgives.true hq)
    (fun _ hcore => hcore.query) hclosed hbasetrue
  obtain ⟨_, htakes⟩ := CoreSet.takes_of_close hclosed
  split at h
  · rename_i hloop
    obtain ⟨_, htakes'⟩ := CoreSet.takes_of_absorb h
    refine ⟨?_, htakes'.coherent (htakes.coherent hcoherent)⟩
    rw [Block.isLoop, hlinked.pairs_eq] at hloop
    obtain ⟨pair, hhead, hpair⟩ := (Option.any_eq_true _ _).1 hloop
    exact CoreSet.all_of_anchor (Q := Query.TrueOf g p r) (P := Core.TrueOf c g p r)
      (fun _ ha => ha.anchor hp (List.mem_of_getElem? hr) (List.mem_of_head? hhead) hpair)
      (fun _ _ hq hgives => hgives.true hq) (fun _ hcore => hcore.query) h hclosedtrue
  · cases h
    exact ⟨hclosedtrue, htakes.coherent hcoherent⟩

end Cores

/-- The step: the cores of one more draft are true. -/
theorem Sound.addCores (hp : p.Layered g) (hlinked : b.AllLinked p) (hsound : b.Sound c g p)
    (h : b.addCores c limit n = .ok b') : b'.Sound c g p := by
  intro j draft r hdraft hr
  obtain ⟨before, hbefore, ⟨_, rfl⟩ | ⟨_, set, hset, rfl⟩⟩ := exists_draft_of_addCores h hdraft
  · exact hsound j _ r hbefore hr
  · obtain ⟨htrue, hcoherent⟩ := coresOf_true hp hr (hlinked j before r hbefore hr) hsound hset
    exact ⟨htrue, hcoherent⟩

/-- The step: a new draft has no cores yet. -/
theorem Sound.addBlock {layer : Nat} {last : Bool} {run : List Segment} (hsound : b.Sound c g p)
    (h : addBlock layer last b run = .ok b') : b'.Sound c g p := by
  obtain ⟨_, _, _, _, _, _, hdrafts, _, _, _, _, hcores, hhashes⟩ := addBlock_eq_ok h
  intro j draft r hdraft hr
  rw [hdrafts, Array.getElem?_push] at hdraft
  split at hdraft
  · cases hdraft
    rw [hcores, hhashes]
    exact ⟨fun _ hcore => (nomatch hcore), CoreSet.coherent_empty 0⟩
  · exact hsound j draft r hdraft hr

/-- The run: the cores of a construction are true. -/
theorem sound_of_ofPartition (hp : p.Layered g) (h : (ofPartition (some c) limit p).result = .ok b) :
    b.Sound c g p := by
  have hall := ofPartition_stages (motive := fun n done _ b => b.Stage p n done ∧ b.Sound c g p)
    ?_ ?_ ?_ ?_ ?_ h
  · exact hall.2
  · intro n done m b hb
    exact hb.1.built.size_eq
  · exact ⟨.empty p, fun j _ _ hj _ => nomatch hj⟩
  · intro done r m b b' hnext hstep hb
    exact ⟨hb.1.addBlock hp hnext hstep, hb.2.addBlock hstep⟩
  · intro n m b hn hb
    exact ⟨hb.1.push hn, hb.2⟩
  · intro n m r b b' hn hr hstep hb
    exact ⟨hb.1.addCores hstep, hb.2.addCores hp hb.1.linked hstep⟩

/-- A finished block has the cores of the draft that it comes from. -/
theorem exists_draft_of_mem_finish (hp : p.Layered g) (hb : b.Built p (p.runsUpTo p.depth))
    {block : Block} (h : block ∈ b.finish) : ∃ j r draft, ComesFrom p b j r block ∧
      b.drafts[j]? = some draft ∧ block.cores = draft.block.cores ∧
      block.coreHashes = draft.block.coreHashes := by
  rw [← map_snd_numberedBlocks] at h
  obtain ⟨⟨j, block⟩, hmem, rfl⟩ := List.mem_map.1 h
  obtain ⟨r, hr⟩ := mem_numberedBlocks hp hb hmem
  obtain ⟨draft, hdraft, _⟩ := hb.describes_draft hr.place
  refine ⟨j, r, draft, hr, hdraft, ?_⟩
  rcases List.mem_append.1 hmem with hmem | hmem
  · obtain ⟨i, _, heq⟩ := List.mem_map.1 hmem
    cases heq
    rw [Array.getD_eq_getD_getElem?, hdraft]
    exact ⟨rfl, rfl⟩
  · obtain ⟨⟨other, i⟩, hget, heq⟩ := List.mem_filterMap.1 hmem
    have hother := List.mem_zipIdx_iff_getElem?.1 hget
    rw [Array.getElem?_toList] at hother
    simp only [Option.ite_none_left_eq_some, Option.some_inj] at heq
    obtain ⟨_, heq⟩ := heq
    cases heq
    rw [hdraft] at hother
    cases hother
    exact ⟨rfl, rfl⟩

end Builder

/-! ### Settings -/

/-- Settings are valid if there are layers to build, threads to build them, and a limit of at least two. -/
theorem Options.validate_eq_ok_iff {o : Options} : o.validate = .ok () ↔
    o.depth ≠ 0 ∧ o.threads ≠ 0 ∧ ∀ n, o.maxIntersections = some n → 2 ≤ n := by
  obtain ⟨depth, cores, limit, threads, timeout⟩ := o
  by_cases hdepth : depth = 0
  · subst hdepth
    simp only [ne_eq, not_true_eq_false, false_and, iff_false]
    intro h
    cases h
  by_cases hthreads : threads = 0
  · subst hthreads
    simp only [ne_eq, not_true_eq_false, false_and, and_false, iff_false, validate, if_neg hdepth]
    intro h
    cases h
  simp only [validate, ne_eq, hdepth, hthreads, not_false_eq_true, true_and, if_false]
  cases limit with
  | none => simp [pure, Except.pure]
  | some n =>
      by_cases hn : n < 2
      · simp [hn]
      · simp [hn, Nat.le_of_not_lt hn, pure, Except.pure]

/-! ### Constructions -/

namespace Index

variable {o : Options} {index : Index} {b : Builder}

/-- The construction of a partition makes the index of its graph. -/
theorem build_of_construction (hvalid : o.validate = .ok ())
    (hpart : (Partition.build g o.depth).result = .ok p) (hdepth : p.depth ≠ 0)
    (hcores : o.cores = true)
    (hb : (Builder.ofPartition (some (canonicalizer o)) o.maxIntersections p).result = .ok b) :
    (build g o).result = .ok ⟨p.depth, b.finish, true, CoreTable.ofBlocks b.finish⟩ := by
  have hassemble : (assemble p o (some (canonicalizer o))).result =
      .ok (⟨p.depth, b.finish, true, CoreTable.ofBlocks b.finish⟩, b.requests) := by
    unfold assemble
    rw [if_neg hdepth, hcores]
    exact Traced.bind_eq_ok.2 ⟨b, hb, rfl⟩
  have hofPartition : (ofPartition p o).result =
      .ok ⟨p.depth, b.finish, true, CoreTable.ofBlocks b.finish⟩ :=
    Traced.bind_eq_ok.2 ⟨(), hvalid, Traced.bind_eq_ok.2 ⟨_, hassemble, rfl⟩⟩
  exact Traced.bind_eq_ok.2 ⟨(), hvalid, Traced.bind_eq_ok.2 ⟨p, hpart, hofPartition⟩⟩

/-- An index has the finished blocks of a construction with the canonicalizer that the options ask for. -/
theorem exists_construction_of_build (hpart : (Partition.build g o.depth).result = .ok p)
    (h : (build g o).result = .ok index) (hcores : o.cores = true) :
    ∃ b : Builder, (Builder.ofPartition (some (canonicalizer o)) o.maxIntersections p).result = .ok b ∧
      index.blocks = b.finish := by
  simpa [hcores] using exists_ofPartition_of_build hpart h

/-- An index is built only if its limit of intersections is two or more. -/
theorem two_le_of_build (h : (build g o).result = .ok index) : ∀ n, o.maxIntersections = some n → 2 ≤ n := by
  obtain ⟨_, hvalid, _⟩ := Traced.bind_eq_ok.1 h
  exact (Options.validate_eq_ok_iff.1 hvalid).2.2

end Index

end PathQueryIndex

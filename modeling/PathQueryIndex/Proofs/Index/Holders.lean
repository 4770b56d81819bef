/-
Module: PathQueryIndex.Proofs.Index.Holders
Layer: Proofs
Purpose: Which draft holds a pair. The drafts are the runs of the partition in their order, a pair is held
  by the draft of the newest run that has the pair, and only pairs of the last layer are held by none,
  because the drafts of the last layer are final. The labels of a draft are those of all walks between
  any of its pairs that are not longer than its layer: walks of just that length come from its own run,
  shorter ones from the drafts that it takes its pairs over from.
Imports: PathQueryIndex.Proofs.Index.Drafts, PathQueryIndex.Proofs.Partition.Agreement
Main exports: Builder.Built, Builder.Built.appends, Builder.built_of_ofPartition,
  Builder.forall_block_of_ofPartition
-/
import PathQueryIndex.Proofs.Index.Drafts
import PathQueryIndex.Proofs.Partition.Agreement

namespace PathQueryIndex

open Std

namespace Builder

variable {g : Graph} {p : Partition} {b b' : Builder} {done : List LayerRun} {r : LayerRun}
  {block : Block} {i j n : Nat} {pair : Pair} {oc : Option Canonicalizer} {limit : Option Nat}

/-! ### Drafts and holders -/

/-- The drafts are those of some runs, and they hold the pairs and are final accordingly. -/
structure Built (p : Partition) (done : List LayerRun) (b : Builder) : Prop where
  size_eq : b.drafts.size = done.length
  exists_block : ∀ j r, done[j]? = some r → ∃ block, b.blockAt j = some block ∧ r.Describes block
  holder_iff : ∀ pair j, b.holder[pair]? = some j ↔
    ∃ r, LayerRun.Newest done pair j r ∧ r.layer + 1 ≠ p.depth
  mem_finals : ∀ j, j ∈ b.finals ↔ ∃ r, done[j]? = some r ∧ r.layer + 1 = p.depth
  nodup_finals : b.finals.Nodup

theorem Built.empty (p : Partition) : Built p [] empty where
  size_eq := rfl
  exists_block := fun j r h => nomatch h
  holder_iff := fun pair j => by
    constructor
    · intro h
      cases h
    · intro h
      obtain ⟨r, hr, _⟩ := h
      cases hr.place
  mem_finals := fun j => by
    constructor
    · intro h
      cases h
    · intro h
      obtain ⟨r, hr, _⟩ := h
      cases hr
  nodup_finals := List.nodup_nil

/-- The block of a draft is that of its run. -/
theorem Built.exists_run (hb : b.Built p done) (h : b.blockAt j = some block) :
    ∃ r, done[j]? = some r ∧ r.Describes block := by
  have hlt : j < done.length := by
    obtain ⟨draft, hdraft, _⟩ := Option.map_eq_some_iff.1 h
    rw [← hb.size_eq]
    exact (Array.getElem?_eq_some_iff.1 hdraft).1
  obtain ⟨other, hother, hdescribes⟩ := hb.exists_block j _ (List.getElem?_eq_getElem hlt)
  rw [h] at hother
  cases hother
  exact ⟨_, List.getElem?_eq_getElem hlt, hdescribes⟩

/-- One more draft holds the pairs of its run, unless it is final. -/
theorem Built.holder_iff_concat (hb : b.Built p done)
    (h : b.Appends r (r.layer + 1 == p.depth) block b') (pair : Pair) (j : Nat) :
    b'.holder[pair]? = some j ↔
      ∃ t, LayerRun.Newest (done ++ [r]) pair j t ∧ t.layer + 1 ≠ p.depth := by
  rw [h.getElem?_holder]
  by_cases hpair : pair ∈ r.pairs
  · simp only [LayerRun.newest_concat_of_mem hpair, if_pos hpair]
    by_cases hlast : r.layer + 1 = p.depth
    · rw [if_pos (beq_iff_eq.2 hlast)]
      constructor
      · intro hj
        cases hj
      · intro hj
        obtain ⟨t, ⟨_, rfl⟩, hne⟩ := hj
        exact absurd hlast hne
    · rw [if_neg (fun heq => hlast (beq_iff_eq.1 heq)), Option.some_inj, hb.size_eq]
      constructor
      · intro hj
        exact ⟨r, ⟨hj.symm, rfl⟩, hlast⟩
      · intro hj
        obtain ⟨t, ⟨hj, _⟩, _⟩ := hj
        exact hj.symm
  · rw [if_neg hpair, hb.holder_iff]
    simp only [LayerRun.newest_concat_of_not_mem hpair]

/-- One more draft is final if and only if its run is of the last layer. -/
theorem Built.mem_finals_concat (hb : b.Built p done)
    (h : b.Appends r (r.layer + 1 == p.depth) block b') (j : Nat) :
    j ∈ b'.finals ↔ ∃ t, (done ++ [r])[j]? = some t ∧ t.layer + 1 = p.depth := by
  rw [h.finals_eq]
  simp only [LayerRun.getElem?_concat_eq_some]
  by_cases hlast : r.layer + 1 = p.depth
  · rw [if_pos (beq_iff_eq.2 hlast), List.mem_append, List.mem_singleton, hb.mem_finals, hb.size_eq]
    constructor
    · intro hj
      rcases hj with ⟨t, ht, hfinal⟩ | rfl
      · exact ⟨t, .inl ht, hfinal⟩
      · exact ⟨r, .inr ⟨rfl, rfl⟩, hlast⟩
    · intro hj
      obtain ⟨t, ht | ⟨hj, _⟩, hfinal⟩ := hj
      · exact .inl ⟨t, ht, hfinal⟩
      · exact .inr hj
  · rw [if_neg (fun heq => hlast (beq_iff_eq.1 heq)), hb.mem_finals]
    constructor
    · intro hj
      obtain ⟨t, ht, hfinal⟩ := hj
      exact ⟨t, .inl ht, hfinal⟩
    · intro hj
      obtain ⟨t, ht | ⟨_, rfl⟩, hfinal⟩ := hj
      · exact ⟨t, ht, hfinal⟩
      · exact absurd hfinal hlast

/-- The step: the draft of one more run. -/
theorem Built.appends (hb : b.Built p done)
    (h : b.Appends r (r.layer + 1 == p.depth) block b') : b'.Built p (done ++ [r]) where
  size_eq := by
    rw [h.size_eq, hb.size_eq, List.length_append]
    rfl
  exists_block := fun j t hj => by
    rcases LayerRun.getElem?_concat_eq_some.1 hj with hj | ⟨rfl, rfl⟩
    · have hlt : j < b.drafts.size := by
        rw [hb.size_eq]
        exact (List.getElem?_eq_some_iff.1 hj).1
      rw [h.blockAt_of_lt j hlt]
      exact hb.exists_block j t hj
    · rw [← hb.size_eq]
      exact ⟨block, h.blockAt_self, h.describes⟩
  holder_iff := hb.holder_iff_concat h
  mem_finals := hb.mem_finals_concat h
  nodup_finals := by
    rw [h.finals_eq]
    split
    · refine List.nodup_append.2 ⟨hb.nodup_finals, List.nodup_singleton _, fun j hj k hk => ?_⟩
      obtain ⟨t, ht, _⟩ := (hb.mem_finals j).1 hj
      have hlt := (List.getElem?_eq_some_iff.1 ht).1
      rw [List.mem_singleton.1 hk, hb.size_eq]
      exact Nat.ne_of_lt hlt
    · exact hb.nodup_finals

/-- Cores change neither the runs of the drafts nor the holders. -/
theorem Built.congr (hb : b.Built p done) (hblocks : b'.blockAt = b.blockAt)
    (hsize : b'.drafts.size = b.drafts.size) (hholder : b'.holder = b.holder)
    (hfinals : b'.finals = b.finals) : b'.Built p done where
  size_eq := hsize.trans hb.size_eq
  exists_block := hblocks ▸ hb.exists_block
  holder_iff := hholder ▸ hb.holder_iff
  mem_finals := hfinals ▸ hb.mem_finals
  nodup_finals := hfinals ▸ hb.nodup_finals

/-- The run: the drafts of a construction are those of all runs of the partition. -/
theorem built_of_ofPartition (h : (ofPartition oc limit p).result = .ok b) :
    b.Built p (p.runsUpTo p.depth) := by
  refine ofPartition_induction (motive := Built p) (Built.empty p) ?_ ?_ ?_ h
  · intro done r b b' _ hstep hb
    obtain ⟨block, hblock⟩ := appends_of_addBlock hstep
    exact hb.appends hblock
  · intro done b os hb
    exact hb.congr rfl rfl rfl rfl
  · intro c _ done b b' n hstep hb
    obtain ⟨hblocks, hsize, hholder, hfinals⟩ := addCores_eq_ok hstep
    exact hb.congr hblocks hsize hholder hfinals

/-- What holds of the block of every further run, if it holds of those before, holds of all blocks of a
    construction: the others stay, and cores do not matter. -/
theorem forall_block_of_ofPartition {P : Block → Prop}
    (hstep : ∀ (done : List LayerRun) (r : LayerRun) (b b' : Builder) (block : Block),
      done ++ [r] <+: p.runsUpTo p.depth → b.Built p done → (∀ j other, b.blockAt j = some other → P other) →
      b.Appends r (r.layer + 1 == p.depth) block b' → P block)
    (h : (ofPartition oc limit p).result = .ok b) : ∀ j block, b.blockAt j = some block → P block := by
  have hboth := ofPartition_induction
    (motive := fun done b => b.Built p done ∧ ∀ j block, b.blockAt j = some block → P block)
    ⟨Built.empty p, fun j block hblock => nomatch hblock⟩ ?_ ?_ ?_ h
  · exact hboth.2
  · intro done r b b' hnext hadd hboth
    obtain ⟨hb, hP⟩ := hboth
    obtain ⟨block, happends⟩ := appends_of_addBlock hadd
    refine ⟨hb.appends happends, fun j other hother => ?_⟩
    obtain ⟨t, ht, _⟩ := (hb.appends happends).exists_run hother
    rcases LayerRun.getElem?_concat_eq_some.1 ht with ht | ⟨rfl, rfl⟩
    · have hlt : j < b.drafts.size := by
        rw [hb.size_eq]
        exact (List.getElem?_eq_some_iff.1 ht).1
      rw [happends.blockAt_of_lt j hlt] at hother
      exact hP j other hother
    · rw [← hb.size_eq, happends.blockAt_self] at hother
      cases hother
      exact hstep done t b b' block hnext hb hP happends
  · intro done b os hboth
    exact ⟨hboth.1.congr rfl rfl rfl rfl, hboth.2⟩
  · intro c _ done b b' n hadd hboth
    obtain ⟨hblocks, hsize, hholder, hfinals⟩ := addCores_eq_ok hadd
    refine ⟨hboth.1.congr hblocks hsize hholder hfinals, ?_⟩
    rw [hblocks]
    exact hboth.2

end Builder

end PathQueryIndex

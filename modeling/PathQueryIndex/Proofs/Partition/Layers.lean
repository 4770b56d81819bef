/-
Module: PathQueryIndex.Proofs.Partition.Layers
Layer: Proofs
Purpose: The layers of a built partition as a recurrence. The construction carries a history and a last
  id along with the layers; both are functions of the layers, so that a finished partition determines
  what each of its layers was made from. A layer depends on the layers before it only, which is why one
  more layer leaves the recurrence of the others as it was.
Imports: PathQueryIndex.Partition, PathQueryIndex.Proofs.Outcome
Main exports: Segment.order, Segment.same, Partition.startId, Partition.historyBefore,
  Partition.rawSegments, Partition.Layered, Partition.layered_of_build
-/
import PathQueryIndex.Partition
import PathQueryIndex.Proofs.Outcome

namespace PathQueryIndex

/-- The order of the segments of a layer. -/
def Segment.order : Nat → Segment → Segment → Ordering
  | 0 => compareFirst
  | _ + 1 => compareJoined

/-- Whether two segments of a layer cannot be told apart. -/
def Segment.same : Nat → Segment → Segment → Bool
  | 0 => sameFirst
  | _ + 1 => sameJoined

namespace Partition

variable {g : Graph} {p q : Partition} {i k : Nat}

/-- The id that the first run of a layer gets. -/
def startId (p : Partition) : Nat → Nat
  | 0 => 1
  | i + 1 => PathQueryIndex.lastId (p.layer i) (p.startId i) + 1

/-- The last segment of each pair in the layers before one. -/
def historyBefore (p : Partition) : Nat → History
  | 0 => {}
  | i + 1 => (p.historyBefore i).record i (p.layer i)

/-- The segments that a layer is made of, before they are sorted and numbered. -/
def rawSegments (g : Graph) (p : Partition) : Nat → List Segment
  | 0 => firstSegments g
  | i + 1 => joinedSegments p.layers (p.historyBefore (i + 1)) (i + 1)

/-- Every layer is made from the layers before it, and there was an id left for it. -/
structure Layered (g : Graph) (p : Partition) : Prop where
  depth_pos : 0 < p.depth
  layer_eq : ∀ i < p.depth,
    p.layer i = layerOf (Segment.order i) (Segment.same i) (p.startId i) (p.rawSegments g i)
  room : ∀ i < p.depth, p.startId i ≤ maxSegmentId

/-! ### What a layer depends on -/

theorem startId_congr (h : ∀ j < i, p.layer j = q.layer j) : p.startId i = q.startId i := by
  induction i with
  | zero => rfl
  | succ i ih =>
      have hi := ih fun j hj => h j (Nat.lt_succ_of_lt hj)
      rw [startId, startId, hi, h i (Nat.lt_succ_self i)]

theorem historyBefore_congr (h : ∀ j < i, p.layer j = q.layer j) :
    p.historyBefore i = q.historyBefore i := by
  induction i with
  | zero => rfl
  | succ i ih =>
      have hi := ih fun j hj => h j (Nat.lt_succ_of_lt hj)
      rw [historyBefore, historyBefore, hi, h i (Nat.lt_succ_self i)]

theorem joins_congr {k₁ k₂ : Nat} (h₁ : p.layer k₁ = q.layer k₁) (h₂ : p.layer k₂ = q.layer k₂) :
    joins p.layers k₁ k₂ = joins q.layers k₁ k₂ := by
  unfold layer at h₁ h₂
  unfold joins
  rw [h₁, h₂]

theorem joinedSegments_congr {history : History} (h : ∀ j < i, p.layer j = q.layer j) :
    joinedSegments p.layers history i = joinedSegments q.layers history i := by
  have hall : (List.range i).reverse.flatMap (fun k₁ => joins p.layers k₁ (i - 1 - k₁)) =
      (List.range i).reverse.flatMap (fun k₁ => joins q.layers k₁ (i - 1 - k₁)) := by
    rw [List.flatMap_def, List.flatMap_def]
    congr 1
    apply List.map_congr_left
    intro k₁ hk
    have hlt : k₁ < i := List.mem_range.1 (List.mem_reverse.1 hk)
    exact joins_congr (h k₁ hlt) (h (i - 1 - k₁) (by omega))
  unfold joinedSegments
  rw [hall]

theorem rawSegments_congr (h : ∀ j < i, p.layer j = q.layer j) :
    p.rawSegments g i = q.rawSegments g i := by
  cases i with
  | zero => rfl
  | succ i => rw [rawSegments, rawSegments, joinedSegments_congr h, historyBefore_congr h]

theorem layer_push_of_lt {layers : Array Layer} {l : Layer} (h : i < layers.size) :
    (⟨layers.push l⟩ : Partition).layer i = (⟨layers⟩ : Partition).layer i := by
  simp [layer, Array.getElem?_push, Nat.ne_of_lt h]

theorem layer_push_self {layers : Array Layer} {l : Layer} :
    (⟨layers.push l⟩ : Partition).layer layers.size = l := by
  simp [layer]

/-- One more layer, made from the others, continues the recurrence. -/
theorem Layered.push {layers : Array Layer} {l : Layer} (hp : Layered g ⟨layers⟩)
    (hroom : (⟨layers⟩ : Partition).startId layers.size ≤ maxSegmentId)
    (hl : l = layerOf (Segment.order layers.size) (Segment.same layers.size)
      ((⟨layers⟩ : Partition).startId layers.size) ((⟨layers⟩ : Partition).rawSegments g layers.size)) :
    Layered g ⟨layers.push l⟩ := by
  have hbefore : ∀ i ≤ layers.size, ∀ j < i,
      (⟨layers.push l⟩ : Partition).layer j = (⟨layers⟩ : Partition).layer j :=
    fun i hi j hj => layer_push_of_lt (Nat.lt_of_lt_of_le hj hi)
  have hdepth : (⟨layers.push l⟩ : Partition).depth = layers.size + 1 := Array.size_push ..
  constructor
  · rw [hdepth]
    exact Nat.succ_pos _
  · intro i hi
    rw [hdepth] at hi
    have hle : i ≤ layers.size := Nat.le_of_lt_succ hi
    rw [startId_congr (hbefore i hle), rawSegments_congr (hbefore i hle)]
    rcases Nat.lt_or_eq_of_le hle with hlt | rfl
    · rw [layer_push_of_lt hlt]
      exact hp.layer_eq i hlt
    · rw [layer_push_self]
      exact hl
  · intro i hi
    rw [hdepth] at hi
    have hle : i ≤ layers.size := Nat.le_of_lt_succ hi
    rw [startId_congr (hbefore i hle)]
    rcases Nat.lt_or_eq_of_le hle with hlt | rfl
    · exact hp.room i hlt
    · exact hroom

/-! ### Layers under construction -/

/-- The history and the last id of a construction are those of its layers. -/
structure Growth.Layered (g : Graph) (w : Growth) : Prop where
  layers : Partition.Layered g ⟨w.layers⟩
  history : w.history = historyBefore ⟨w.layers⟩ w.layers.size
  lastId : w.lastId + 1 = startId ⟨w.layers⟩ w.layers.size

theorem Growth.Layered.first (g : Graph) : (firstGrowth g).Layered g where
  layers :=
    { depth_pos := Nat.zero_lt_one
      layer_eq := fun i hi => by
        obtain rfl : i = 0 := Nat.lt_one_iff.1 hi
        rfl
      room := fun i hi => by
        obtain rfl : i = 0 := Nat.lt_one_iff.1 hi
        change 1 ≤ maxSegmentId
        decide }
  history := rfl
  lastId := rfl

/-- The step: one more layer. -/
theorem Growth.Layered.next {w w' : Growth} (hw : w.Layered g) (h : w.next = .ok w') :
    w'.Layered g ∧ w'.layers.size = w.layers.size + 1 := by
  unfold Growth.next at h
  split at h
  · rename_i hroom
    cases h
    have hbefore : ∀ l, ∀ j < w.layers.size,
        (⟨w.layers.push l⟩ : Partition).layer j = (⟨w.layers⟩ : Partition).layer j :=
      fun _ _ hj => layer_push_of_lt hj
    obtain ⟨n, hsize⟩ := Nat.exists_eq_succ_of_ne_zero (Nat.ne_of_gt hw.layers.depth_pos)
    have hsize : w.layers.size = n + 1 := hsize
    refine ⟨⟨hw.layers.push ?_ ?_, ?_, ?_⟩, Array.size_push _⟩
    · rw [← hw.lastId]
      exact hroom
    · rw [← hw.lastId, hw.history, hsize]
      rfl
    · rw [Array.size_push, historyBefore, layer_push_self, historyBefore_congr (hbefore _),
        ← hw.history]
    · rw [Array.size_push, startId, layer_push_self, startId_congr (hbefore _), ← hw.lastId]
  · cases h

/-- The run: any number of further layers. -/
theorem Growth.Layered.grow {n : Nat} {w w' : Growth} (hw : w.Layered g)
    (h : (Partition.grow n w).result = .ok w') :
    w'.Layered g ∧ w'.layers.size = w.layers.size + n := by
  induction n generalizing w with
  | zero =>
      cases h
      exact ⟨hw, rfl⟩
  | succ n ih =>
      simp only [Partition.grow, Traced.bind_eq_ok, Traced.result_emit, Traced.result_lift] at h
      obtain ⟨_, _, v, hnext, _, _, _, _, hrest⟩ := h
      obtain ⟨hv, hsize⟩ := hw.next hnext
      obtain ⟨hw', hsize'⟩ := ih hv hrest
      exact ⟨hw', by omega⟩

/-- A partition that was built satisfies the recurrence, and it has the depth that was asked for. -/
theorem layered_of_build (h : (build g k).result = .ok p) : p.Layered g ∧ p.depth = k := by
  cases k with
  | zero => cases h
  | succ n =>
      simp only [build, Traced.bind_eq_ok, Traced.result_emit, Traced.result_pure] at h
      obtain ⟨_, _, _, _, w, hgrow, hp⟩ := h
      cases hp
      obtain ⟨hw, hsize⟩ := (Growth.Layered.first g).grow hgrow
      refine ⟨hw.layers, ?_⟩
      rw [depth, hsize]
      exact Nat.add_comm 1 n

end Partition

end PathQueryIndex

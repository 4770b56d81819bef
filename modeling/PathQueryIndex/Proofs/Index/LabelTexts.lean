/-
Module: PathQueryIndex.Proofs.Index.LabelTexts
Layer: Proofs
Purpose: What the text of a label sequence tells. The labels stand side by side without a separator, so only the
  marks of inverse labels divide their digits, and `12` is one label or two. Texts identify sequences over a set
  of ids if and only if the numerals of these ids can be read back from what they form side by side. Each of the
  three ways to show a block determines the texts of its sequences, and hence the sequences as far as texts do.
Imports: PathQueryIndex.Index.Report, PathQueryIndex.Proofs.Listing.Contents
Main exports: Label.Legible, Label.legible_below_iff, LabelSequence.legible_iff, Block.labelTexts,
  Block.labels_eq_of_labelTexts, Index.over_of_build, Index.label_texts_identify
-/
import PathQueryIndex.Index.Report
import PathQueryIndex.Proofs.Listing.Contents

namespace PathQueryIndex

/-! ### Numerals side by side -/

theorem Text.numeral_injective {m n : Nat} (h : numeral m = numeral n) : m = n := by
  have hvalue := digitsValue?_numeral m
  rw [h, digitsValue?_numeral n] at hvalue
  exact (Option.some.inj hvalue).symm

theorem Text.numeral_ne_nil (n : Nat) : numeral n ≠ [] := Nat.toDigits_ne_nil

theorem Text.isDigit_of_mem_numeral {n : Nat} {c : Char} (h : c ∈ numeral n) : c.isDigit = true :=
  Nat.isDigit_of_mem_toDigits (by decide) (by decide) h

namespace Label

variable {ids : Set UInt32} {i j : UInt32} {is js : List UInt32}

/-- The numerals of some ids side by side. -/
def numerals (is : List UInt32) : List Char := is.flatMap fun i => Text.numeral i.toNat

/-- Numerals of ids of the set can be read back from what they form side by side. -/
def Legible (ids : Set UInt32) : Prop :=
  ∀ is js, (∀ i ∈ is, i ∈ ids) → (∀ j ∈ js, j ∈ ids) → numerals is = numerals js → is = js

theorem Legible.mono {more : Set UInt32} (h : Legible more) (hids : ids ⊆ more) : Legible ids :=
  fun is js his hjs => h is js (fun i hi => hids (his i hi)) fun j hj => hids (hjs j hj)

/-- It is enough that no numeral is the beginning of another one. -/
theorem legible_of_prefix (h : ∀ i ∈ ids, ∀ j ∈ ids, Text.numeral i.toNat <+: Text.numeral j.toNat → i = j) :
    Legible ids := by
  intro is
  induction is with
  | nil =>
      intro js _ _ heq
      cases js with
      | nil => rfl
      | cons j js => simp [numerals, Text.numeral_ne_nil] at heq
  | cons i is ih =>
      intro js his hjs heq
      cases js with
      | nil => simp [numerals, Text.numeral_ne_nil] at heq
      | cons j js =>
          obtain ⟨hi, his'⟩ := List.forall_mem_cons.1 his
          obtain ⟨hj, hjs'⟩ := List.forall_mem_cons.1 hjs
          have hsides : Text.numeral i.toNat ++ numerals is = Text.numeral j.toNat ++ numerals js := heq
          have hij : i = j := by
            rcases List.prefix_or_prefix_of_prefix ⟨_, hsides⟩ (List.prefix_append _ _) with hpre | hpre
            · exact h i hi j hj hpre
            · exact (h j hj i hi hpre).symm
          subst hij
          rw [ih js his' hjs' (List.append_cancel_left hsides)]

/-- Numerals of one length are never the beginnings of each other. -/
theorem legible_of_length
    (h : ∀ i ∈ ids, ∀ j ∈ ids, (Text.numeral i.toNat).length = (Text.numeral j.toNat).length) : Legible ids :=
  legible_of_prefix fun i hi j hj hpre =>
    UInt32.toNat_inj.1 (Text.numeral_injective (hpre.eq_of_length (h i hi j hj)))

/-- The ids below ten have one digit each, and ten is written like one and zero. -/
theorem legible_below_iff (n : Nat) : Legible {i | i.toNat < n} ↔ n ≤ 10 := by
  constructor
  · intro h
    apply Nat.le_of_not_lt
    intro hn
    have hids : ∀ is : List UInt32, (∀ i ∈ is, i.toNat ≤ 10) → ∀ i ∈ is, i ∈ {i : UInt32 | i.toNat < n} :=
      fun is his i hi => Nat.lt_of_le_of_lt (his i hi) hn
    exact absurd (h [1, 0] [10] (hids _ (by simp)) (hids _ (by simp)) (by decide)) (by decide)
  · intro hn
    apply legible_of_length
    have hdigit : ∀ i : UInt32, i.toNat < n → Text.numeral i.toNat = [i.toNat.digitChar] :=
      fun i hi => Nat.toDigits_of_lt_base (Nat.lt_of_lt_of_le hi hn)
    intro i hi j hj
    rw [hdigit i hi, hdigit j hj]
    rfl

/-! ### Labels side by side -/

theorem inverseMark_notMem_numerals (is : List UInt32) : inverseMark ∉ numerals is := by
  intro h
  obtain ⟨i, _, hi⟩ := List.mem_flatMap.1 h
  exact absurd (Text.isDigit_of_mem_numeral hi) (by decide)

theorem flatMap_chars_forward (is : List UInt32) : (is.map forward).flatMap chars = numerals is := by
  simp [List.flatMap_map, numerals, chars, forward]

theorem flatMap_chars_backward (is : List UInt32) (i : UInt32) (labels : List Label) :
    (is.map forward ++ backward i :: labels).flatMap chars =
      numerals (is ++ [i]) ++ inverseMark :: labels.flatMap chars := by
  rw [List.flatMap_append, flatMap_chars_forward]
  simp [numerals, chars, backward]

/-- There is no inverse label among some labels, or there is a first one. -/
theorem backward_cases (labels : List Label) : (∃ is : List UInt32, labels = is.map forward) ∨
    ∃ (is : List UInt32) (i : UInt32) (rest : List Label), labels = is.map forward ++ backward i :: rest := by
  induction labels with
  | nil => exact .inl ⟨[], rfl⟩
  | cons l labels ih =>
      cases l with
      | mk id inverse =>
          cases inverse with
          | true => exact .inr ⟨[], id, labels, rfl⟩
          | false =>
              rcases ih with ⟨is, rfl⟩ | ⟨is, i, rest, rfl⟩
              · exact .inl ⟨id :: is, rfl⟩
              · exact .inr ⟨id :: is, i, rest, rfl⟩

theorem forall_mem_split {rest : List Label} (h : ∀ l ∈ is.map forward ++ backward i :: rest, l.id ∈ ids) :
    (∀ k ∈ is ++ [i], k ∈ ids) ∧ ∀ l ∈ rest, l.id ∈ ids := by
  obtain ⟨his, hrest⟩ := List.forall_mem_append.1 h
  obtain ⟨hi, hrest⟩ := List.forall_mem_cons.1 hrest
  refine ⟨List.forall_mem_append.2 ⟨fun k hk => ?_, List.forall_mem_singleton.2 hi⟩, hrest⟩
  exact his _ (List.mem_map_of_mem hk)

/-- What stands before the first mark and what stands behind it are determined by the whole. -/
theorem append_mark_inj {front front' back back' : List Char} (hfront : inverseMark ∉ front)
    (hfront' : inverseMark ∉ front') (h : front ++ inverseMark :: back = front' ++ inverseMark :: back') :
    front = front' ∧ back = back' := by
  have hplace := congrArg (List.idxOf inverseMark) h
  rw [List.idxOf_append_of_notMem hfront, List.idxOf_append_of_notMem hfront', List.idxOf_cons_self,
    List.idxOf_cons_self] at hplace
  obtain ⟨hfronts, hbacks⟩ := List.append_inj h hplace
  exact ⟨hfronts, (List.cons.inj hbacks).2⟩

/-- Labels with legible ids are legible. The first mark divides both texts: before it are the numerals of the
    labels up to the first inverse one, and behind it are the other labels. -/
theorem Legible.eq_of_chars_eq (h : Legible ids) {ls ms : List Label} (hls : ∀ l ∈ ls, l.id ∈ ids)
    (hms : ∀ m ∈ ms, m.id ∈ ids) (heq : ls.flatMap chars = ms.flatMap chars) : ls = ms := by
  rcases backward_cases ls with ⟨is, rfl⟩ | ⟨is, i, back, hsplit⟩
  · have his : ∀ i ∈ is, i ∈ ids := fun i hi => hls _ (List.mem_map_of_mem hi)
    rw [flatMap_chars_forward] at heq
    rcases backward_cases ms with ⟨js, rfl⟩ | ⟨js, j, ms, rfl⟩
    · rw [flatMap_chars_forward] at heq
      rw [h is js his (fun j hj => hms _ (List.mem_map_of_mem hj)) heq]
    · rw [flatMap_chars_backward] at heq
      exact absurd (heq ▸ List.mem_append_right _ (List.mem_cons_self ..)) (inverseMark_notMem_numerals is)
  · have hlt : back.length < ls.length := by
      rw [hsplit, List.length_append, List.length_cons]
      omega
    rw [hsplit] at hls heq ⊢
    rw [flatMap_chars_backward] at heq
    rcases backward_cases ms with ⟨js, rfl⟩ | ⟨js, j, back', rfl⟩
    · rw [flatMap_chars_forward] at heq
      exact absurd (heq ▸ List.mem_append_right _ (List.mem_cons_self ..)) (inverseMark_notMem_numerals js)
    · rw [flatMap_chars_backward] at heq
      obtain ⟨hfront, hback⟩ := append_mark_inj (inverseMark_notMem_numerals _) (inverseMark_notMem_numerals _) heq
      obtain ⟨his, hls⟩ := forall_mem_split hls
      obtain ⟨hjs, hms⟩ := forall_mem_split hms
      obtain ⟨hids, hlast⟩ := List.append_inj' (h _ _ his hjs hfront) rfl
      rw [hids, List.singleton_inj.1 hlast, h.eq_of_chars_eq hls hms hback]
termination_by ls.length

end Label

/-! ### Texts side by side -/

namespace Text

/-- Words without blanks are told apart by the blanks between them. -/
theorem intercalate_inj {ws vs : List (List Char)} (hws : ∀ w ∈ ws, w ≠ [] ∧ ' ' ∉ w)
    (hvs : ∀ v ∈ vs, v ≠ [] ∧ ' ' ∉ v) (h : [' '].intercalate ws = [' '].intercalate vs) : ws = vs := by
  have hnil : ∀ us : List (List Char), (∀ u ∈ us, u ≠ [] ∧ ' ' ∉ u) → [' '].intercalate us = [] → us = [] := by
    intro us hus hempty
    rcases us with _ | ⟨u, _ | ⟨t, us⟩⟩
    · rfl
    · exact absurd (by simpa using hempty) (hus u (List.mem_cons_self ..)).1
    · simp [List.intercalate_cons_cons] at hempty
  by_cases hw : ws = []
  · subst hw
    exact (hnil vs hvs h.symm).symm
  · have hv : vs ≠ [] := by
      rintro rfl
      exact hw (hnil ws hws h)
    rw [← List.splitOn_intercalate ' ' (fun w hmem => (hws w hmem).2) hw, h,
      List.splitOn_intercalate ' ' (fun v hmem => (hvs v hmem).2) hv]

/-- The value of a member of an object. -/
def Json.member? (key : String) : Json → Option Json
  | .object members => members.lookup key
  | _ => none

end Text

/-! ### Sequences -/

namespace LabelSequence

/-- All ids in the sequence are of the set. -/
def Over (ids : Set UInt32) (s : LabelSequence) : Prop := ∀ l ∈ s.labels, l.id ∈ ids

/-- The sequence that goes forward along some ids. -/
def ofForward (i : UInt32) (is : List UInt32) : LabelSequence :=
  ⟨(i :: is).map .forward, List.cons_ne_nil _ _⟩

theorem text_ofForward (i : UInt32) (is : List UInt32) :
    (ofForward i is).text = String.ofList (Label.numerals (i :: is)) := by
  rw [text, ofForward, Label.flatMap_chars_forward]

theorem over_ofForward {ids : Set UInt32} {i : UInt32} {is : List UInt32} (h : ∀ k ∈ i :: is, k ∈ ids) :
    (ofForward i is).Over ids := fun l hl => by
  obtain ⟨k, hk, rfl⟩ := List.mem_map.1 hl
  exact h k hk

/-- Texts identify the sequences over a set of ids if and only if the ids are legible: sequences that only go
    forward are nothing but their ids. -/
theorem legible_iff (ids : Set UInt32) : Label.Legible ids ↔
    ∀ s t : LabelSequence, s.Over ids → t.Over ids → s.text = t.text → s = t := by
  constructor
  · intro h s t hs ht htext
    exact eq_of_labels_eq (h.eq_of_chars_eq hs ht (String.ofList_injective htext))
  · intro h is js his hjs heq
    rcases is with _ | ⟨i, is⟩
    · rcases js with _ | ⟨j, js⟩
      · rfl
      · simp [Label.numerals, Text.numeral_ne_nil] at heq
    · rcases js with _ | ⟨j, js⟩
      · simp [Label.numerals, Text.numeral_ne_nil] at heq
      · have hseq := h (ofForward i is) (ofForward j js) (over_ofForward his) (over_ofForward hjs)
          (by rw [text_ofForward, text_ofForward, heq])
        exact (List.map_inj_right fun _ _ hl => congrArg Label.id hl).1 (congrArg labels hseq)

theorem text_ne_empty (s : LabelSequence) : s.text ≠ "" := by
  obtain ⟨l, rest, hs⟩ := List.exists_cons_of_ne_nil s.nonempty
  rw [text, hs, ne_eq, String.ofList_eq_empty_iff]
  simp [Label.chars, Text.numeral_ne_nil]

theorem blank_notMem_text (s : LabelSequence) : ' ' ∉ s.text.toList := by
  rw [text, String.toList_ofList]
  intro h
  obtain ⟨l, _, hl⟩ := List.mem_flatMap.1 h
  rcases List.mem_append.1 hl with hl | hl
  · exact absurd (Text.isDigit_of_mem_numeral hl) (by decide)
  · split at hl
    · exact absurd (List.mem_singleton.1 hl) (by decide)
    · exact List.not_mem_nil hl

end LabelSequence

/-! ### Blocks -/

namespace Block

variable {ids : Set UInt32} {b b' : Block}

/-- The texts of the label sequences of a block. -/
def labelTexts (b : Block) : List String := b.labels.toList.map LabelSequence.text

/-- All ids in the label sequences of the block are of the set. -/
def Over (ids : Set UInt32) (b : Block) : Prop := ∀ s ∈ b.labels, s.Over ids

/-- The line with the label sequences is cut at its blanks. -/
theorem labelTexts_eq_of_line {cores cores' : Bool} (h : (b.lines cores)[2]? = (b'.lines cores')[2]?) :
    b.labelTexts = b'.labelTexts := by
  have hline : "  Labels: " ++ " ".intercalate b.labelTexts = "  Labels: " ++ " ".intercalate b'.labelTexts :=
    Option.some.inj h
  have hchars := congrArg String.toList hline
  rw [String.toList_append, String.toList_append, List.append_cancel_left_eq, String.toList_intercalate,
    String.toList_intercalate] at hchars
  have hwords : ∀ c : Block, ∀ w ∈ c.labelTexts.map String.toList, w ≠ [] ∧ ' ' ∉ w := by
    simp only [labelTexts, List.forall_mem_map]
    exact fun c s _ => ⟨fun hnil => s.text_ne_empty (String.toList_eq_nil_iff.1 hnil), s.blank_notMem_text⟩
  exact (List.map_inj_right fun _ _ => String.toList_inj.1).1 (Text.intercalate_inj (hwords b) (hwords b') hchars)

/-- The cells with the label sequences are those that are not empty. -/
theorem labelTexts_eq_of_part {height height' : Nat}
    (h : TableShape.part height b.labelTexts = TableShape.part height' b'.labelTexts) :
    b.labelTexts = b'.labelTexts := by
  have hfilter : ∀ (c : Block) (n : Nat), (TableShape.part n c.labelTexts).filter (· ≠ "") = c.labelTexts := by
    intro c n
    have htexts : ∀ text ∈ c.labelTexts, decide (text ≠ "") = true := by
      simp only [labelTexts, List.forall_mem_map]
      exact fun s _ => decide_eq_true s.text_ne_empty
    rw [TableShape.part, List.filter_append, List.filter_eq_self.2 htexts]
    simp
  rw [← hfilter b height, h, hfilter]

theorem labelTexts_eq_of_json (h : (Index.blockJson b).member? "labels" = (Index.blockJson b').member? "labels") :
    b.labelTexts = b'.labelTexts := by
  have hmember : ∀ c : Block, (Index.blockJson c).member? "labels" = some (.array (c.labelTexts.map .text)) := by
    intro c
    rw [labelTexts, List.map_map]
    rfl
  rw [hmember, hmember, Option.some.injEq, Text.Json.array.injEq] at h
  exact (List.map_inj_right fun _ _ => Text.Json.text.inj).1 h

theorem nodup_labelTexts (hids : Label.Legible ids) (hb : b.Over ids) : b.labelTexts.Nodup := by
  apply List.Nodup.map_on _ b.labels.nodup_toList
  intro s hs t ht heq
  exact (LabelSequence.legible_iff ids).1 hids s t (hb s hs) (hb t ht) heq

theorem labels_eq_of_labelTexts (hids : Label.Legible ids) (hb : b.Over ids) (hb' : b'.Over ids)
    (h : ∀ text, text ∈ b.labelTexts ↔ text ∈ b'.labelTexts) : b.labels = b'.labels := by
  have hshown : ∀ {c d : Block}, c.Over ids → d.Over ids → (∀ text ∈ c.labelTexts, text ∈ d.labelTexts) →
      ∀ s ∈ c.labels, s ∈ d.labels := by
    intro c d hc hd hcd s hs
    obtain ⟨t, ht, htext⟩ := List.mem_map.1 (hcd s.text (List.mem_map_of_mem hs))
    rw [(LabelSequence.legible_iff ids).1 hids s t (hc s hs) (hd t ht) htext.symm]
    exact ht
  apply OrderedSet.ext_mem
  intro s
  exact ⟨hshown hb hb' (fun text => (h text).1) s, hshown hb' hb (fun text => (h text).2) s⟩

end Block

/-! ### Tables -/

theorem le_greatest {n : Nat} {ns : List Nat} (h : n ∈ ns) : n ≤ greatest ns := by
  have hfold : ∀ (ns : List Nat) (m : Nat), m ≤ ns.foldl max m ∧ ∀ n ∈ ns, n ≤ ns.foldl max m := by
    intro ns
    induction ns with
    | nil => exact fun m => ⟨Nat.le_refl m, fun _ hn => nomatch hn⟩
    | cons k ns ih =>
        intro m
        obtain ⟨hstart, hns⟩ := ih (max m k)
        refine ⟨Nat.le_trans (Nat.le_max_left m k) hstart, List.forall_mem_cons.2 ⟨?_, hns⟩⟩
        exact Nat.le_trans (Nat.le_max_right m k) hstart
  exact (hfold ns 0).2 n h

theorem TableShape.length_part {height : Nat} {cells : List String} (h : cells.length ≤ height) :
    (part height cells).length = height := by
  rw [part, List.length_append, List.length_replicate]
  omega

namespace Index

variable {index : Index} {b b' : Block}

/-- The cells for the label sequences in the column of a block: they stand below the id, a blank cell, the pairs
    and a rule. -/
def labelCells (index : Index) (b : Block) : List String :=
  (((TableShape.ofBlocks index.blocks).column b).drop (3 + (TableShape.ofBlocks index.blocks).pairs)).take
    (TableShape.ofBlocks index.blocks).labels

theorem labelCells_eq (hb : b ∈ index.blocks) :
    index.labelCells b = TableShape.part (TableShape.ofBlocks index.blocks).labels b.labelTexts := by
  have hpairs : (b.pairs.map Pair.text).length ≤ (TableShape.ofBlocks index.blocks).pairs := by
    rw [List.length_map]
    exact le_greatest (List.mem_map_of_mem hb)
  have hlabels : b.labelTexts.length ≤ (TableShape.ofBlocks index.blocks).labels := by
    rw [Block.labelTexts, List.length_map]
    exact le_greatest (List.mem_map_of_mem hb)
  have hcolumn : (TableShape.ofBlocks index.blocks).column b =
      ([s!"{b.id}", ""] ++ TableShape.part (TableShape.ofBlocks index.blocks).pairs (b.pairs.map Pair.text) ++
        [TableShape.rule]) ++ (TableShape.part (TableShape.ofBlocks index.blocks).labels b.labelTexts ++
        ([TableShape.rule] ++ TableShape.part (TableShape.ofBlocks index.blocks).cores
          (b.cores.map fun core => core.query.text))) := by
    simp only [TableShape.column, Block.labelTexts, List.append_assoc]
  rw [labelCells, hcolumn, List.drop_left', List.take_left']
  · exact TableShape.length_part hlabels
  · simp only [List.length_append, TableShape.length_part hpairs, List.length_cons, List.length_nil]
    omega

/-- A block of the index whose label sequences are over legible ids shows none of them twice. If the lines, the
    cells of the table or the values that show the label sequences of two such blocks agree, or if just the same
    texts occur in both, then the blocks have the same label sequences. -/
def ShowsLabels (index : Index) : Prop :=
  ∀ b ∈ index.blocks, b.labelTexts.Nodup ∧ ∀ b' ∈ index.blocks,
    ((b.lines index.hasCores)[2]? = (b'.lines index.hasCores)[2]? ∨
      index.labelCells b = index.labelCells b' ∨
      (blockJson b).member? "labels" = (blockJson b').member? "labels" ∨
      (∀ text, text ∈ b.labelTexts ↔ text ∈ b'.labelTexts)) → b.labels = b'.labels

theorem showsLabels_of_over {ids : Set UInt32} (hids : Label.Legible ids)
    (hover : ∀ b ∈ index.blocks, b.Over ids) : index.ShowsLabels := by
  intro b hb
  refine ⟨Block.nodup_labelTexts hids (hover b hb), fun b' hb' hshown => ?_⟩
  apply Block.labels_eq_of_labelTexts hids (hover b hb) (hover b' hb')
  rcases hshown with hline | hcells | hjson | htexts
  · rw [Block.labelTexts_eq_of_line hline]
    exact fun _ => Iff.rfl
  · rw [labelCells_eq hb, labelCells_eq hb'] at hcells
    rw [Block.labelTexts_eq_of_part hcells]
    exact fun _ => Iff.rfl
  · rw [Block.labelTexts_eq_of_json hjson]
    exact fun _ => Iff.rfl
  · exact htexts

end Index

/-! ### The ids in an index -/

namespace Graph

/-- The set of the labels of the edges. -/
def usedIds (g : Graph) : Set UInt32 := {i | i ∈ g.usedLabels}

variable {g : Graph} {i : UInt32} {u v : Vertex} {ls : List Label}

theorem mem_usedIds : i ∈ g.usedIds ↔ ∃ e ∈ g.edges, e.label = i := by
  change i ∈ OrderedSet.ofList (g.edges.toList.map Edge.label) ↔ _
  rw [OrderedSet.mem_ofList, List.mem_map]
  rfl

/-- The labels of a walk are those of edges. -/
theorem Walk.ids (h : g.Walk u ls v) : ∀ l ∈ ls, l.id ∈ g.usedIds := by
  induction h with
  | stay u => exact fun _ hl => nomatch hl
  | @step u v w l ls hstep _ ih =>
      refine List.forall_mem_cons.2 ⟨mem_usedIds.2 ⟨_, hstep, ?_⟩, ih⟩
      split
      · rfl
      · rfl

end Graph

namespace Builder

variable {g : Graph} {p : Partition} {b b' : Builder} {done : List LayerRun} {r : LayerRun} {block : Block}
  {oc : Option Canonicalizer} {limit : Option Nat}

/-- The step: the label sequences of one more block are those of its first segment, hence of walks, or those of
    other blocks. -/
theorem over_appended (hp : p.Layered g) (hnext : done ++ [r] <+: p.runsUpTo p.depth)
    (ho : ∀ j other, b.blockAt j = some other → other.Over g.usedIds)
    (h : b.Appends r (r.layer + 1 == p.depth) block b') : block.Over g.usedIds := by
  intro ls hls
  rcases (h.mem_labels ls).1 hls with ⟨s, hhead, hls⟩ | ⟨_, _, i, _, other, hother, hls⟩
  · obtain ⟨hlayer, hrun⟩ := Partition.mem_runsUpTo.1 (mem_runsUpTo_of_next hnext)
    have hs := Partition.mem_layer_of_mem_run hrun (List.mem_of_head? hhead)
    exact ((hp.mem_labels_iff hlayer hs).1 hls).2.ids
  · exact ho i other hother ls hls

/-- The run: so it is in every construction, whether or not there are ids for all runs. -/
theorem over_of_ofPartition (hp : p.Layered g) (h : (ofPartition oc limit p).result = .ok b) :
    ∀ j block, b.blockAt j = some block → block.Over g.usedIds :=
  forall_block_of_ofPartition (fun _ _ _ _ _ hnext _ ho happends => over_appended hp hnext ho happends) h

end Builder

namespace Index

variable {g : Graph} {o : Options} {index : Index}

/-- The label sequences of the blocks of an index are over the labels of the edges of its graph. -/
theorem over_of_build (h : (build g o).result = .ok index) : ∀ b ∈ index.blocks, b.Over g.usedIds := by
  obtain ⟨p, hpart⟩ := exists_partition_of_build h
  obtain ⟨hp, _⟩ := Partition.layered_of_build hpart
  obtain ⟨b, hb, hblocks⟩ := exists_ofPartition_of_build hpart h
  rw [hblocks]
  intro block hblock
  obtain ⟨j, r, hr⟩ := Builder.comesFrom_of_mem_finish hp (Builder.built_of_ofPartition hb) hblock
  obtain ⟨draft, hdraft, _, hlabels⟩ := hr.labels
  intro s hs
  rw [hlabels] at hs
  exact Builder.over_of_ofPartition hp hb j draft hdraft s hs

theorem over_sort {ids : Set UInt32} (h : ∀ b ∈ index.blocks, b.Over ids) : ∀ b ∈ index.sort.blocks, b.Over ids := by
  intro b hb
  obtain ⟨c, hc, rfl⟩ := List.mem_map.1 (index.sort_blocks_perm.mem_iff.1 hb)
  exact h c hc

/-- Texts tell label sequences apart as far as the ids allow it. The texts of two different sequences over some ids
    always differ if and only if the numerals of these ids can be read back from what they form side by side. They
    can if no numeral is the beginning of another one; of the ids below some number they can if and only if this
    number is at most ten. If they can for the labels of the edges of a graph, then the blocks of its index, sorted
    or not, are shown with their label sequences. -/
theorem label_texts_identify :
    (∀ ids : Set UInt32, Label.Legible ids ↔
      ∀ s t : LabelSequence, s.Over ids → t.Over ids → s.text = t.text → s = t) ∧
    (∀ ids : Set UInt32, (∀ i ∈ ids, ∀ j ∈ ids, Text.numeral i.toNat <+: Text.numeral j.toNat → i = j) →
      Label.Legible ids) ∧
    (∀ n, Label.Legible {i | i.toNat < n} ↔ n ≤ 10) ∧
    ∀ (g : Graph) (o : Options) (index : Index), Label.Legible g.usedIds → (build g o).result = .ok index →
      index.ShowsLabels ∧ index.sort.ShowsLabels := by
  refine ⟨LabelSequence.legible_iff, fun ids => Label.legible_of_prefix, Label.legible_below_iff, ?_⟩
  intro g o index hids h
  have hover := over_of_build h
  exact ⟨showsLabels_of_over hids hover, showsLabels_of_over hids (over_sort hover)⟩

/-- The only label of two steps has one digit, so the blocks of their index are shown with their label sequences. -/
theorem label_texts_identify_two_steps : ∃ index, (build twoSteps blocksOnly).result = .ok index ∧
    twoSteps.usedIds ⊆ {i | i.toNat < 10} ∧ index.ShowsLabels ∧ index.sort.ShowsLabels := by
  obtain ⟨index, h, _⟩ := exists_ok_of_any (x := (build twoSteps blocksOnly).result) (f := fun _ => true) (by cbv)
  obtain ⟨_, _, hten, hshown⟩ := label_texts_identify
  have hids : twoSteps.usedIds ⊆ {i | i.toNat < 10} := by
    intro i hi
    obtain ⟨e, he, rfl⟩ := Graph.mem_usedIds.1 hi
    exact Nat.lt_of_lt_of_le (UInt32.lt_iff_toNat_lt.1 (twoSteps.inBounds e he).2) (by decide)
  exact ⟨index, h, hids, hshown twoSteps blocksOnly index (((hten 10).2 (Nat.le_refl 10)).mono hids) h⟩

/-- An edge labeled twelve beside two that are labeled one and two. -/
def besideTwelve : Graph where
  vertexCount := 3
  labelCount := 13
  edges := ⟨[⟨0, 1, 1⟩, ⟨0, 2, 12⟩, ⟨1, 2, 2⟩], by decide⟩
  inBounds := by decide

/-- The labels one and two are written like the label twelve, and so are one and twelve and eleven and two, which
    are equally many. A block that has both of the former shows one text twice. -/
theorem twelve_is_one_label_or_two :
    ((LabelSequence.ofForward 1 [2]).text = (LabelSequence.ofForward 12 []).text ∧
      LabelSequence.ofForward 1 [2] ≠ LabelSequence.ofForward 12 []) ∧
    ((LabelSequence.ofForward 1 [12]).text = (LabelSequence.ofForward 11 [2]).text ∧
      LabelSequence.ofForward 1 [12] ≠ LabelSequence.ofForward 11 [2]) ∧
    ∃ index, (build besideTwelve blocksOnly).result = .ok index ∧
      ∃ b ∈ index.blocks, b.labelTexts = ["12", "12"] := by
  refine ⟨⟨by decide, by decide⟩, ⟨by decide, by decide⟩, ?_⟩
  obtain ⟨index, h, hcheck⟩ := exists_ok_of_any (x := (build besideTwelve blocksOnly).result)
    (f := fun index => index.blocks.any fun b => b.labelTexts == ["12", "12"]) (by cbv)
  obtain ⟨b, hb, htexts⟩ := List.any_eq_true.1 hcheck
  exact ⟨index, h, b, hb, eq_of_beq htexts⟩

end Index

end PathQueryIndex

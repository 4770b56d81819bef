/-
Module: PathQueryIndex.Proofs.Graph.Reader
Layer: Proofs
Purpose: Reading graphs, against the format of their texts. Three numbers are read from a line if it holds just
  three; what is read from the first line and from each further one is what they are. A good line is taken over
  if its label is allowed, and the first line that is not good ends the reading, whatever labels are allowed.
  So either the bytes are a graph text, and the graph has its edges with these labels, or they have a first
  offending line, and this is the line that is reported.
Imports: PathQueryIndex.Proofs.Text.Lines
Main exports: readFields_eq_ok_iff, Graph.read_headerLine, Graph.read_edgeLine, Graph.readEdges_of_good,
  Graph.readEdges_of_bad, Graph.read_follows_format
-/
import PathQueryIndex.Proofs.Text.Lines

namespace PathQueryIndex

variable {n : Nat} {text : List Char} {a b c vertices labels : UInt32} {line : List UInt8}
  {lines : List (List UInt8)}

/-! ### Three numbers -/

theorem Text.holdsThree_iff : Text.HoldsThree text a b c ↔ ∃ x y z, Text.words text = [x, y, z] ∧
    Text.word32? x = some a ∧ Text.word32? y = some b ∧ Text.word32? z = some c := by
  simp only [Text.HoldsThree, ← Text.words_eq_iff, ← Text.word32?_eq_some_iff]

/-- The number that a word is, if the word is there. -/
def readField (number : Nat) (word : Option (List Char)) : Except Error UInt32 :=
  match word with
  | none => .error (.line number .threeIntegers)
  | some word =>
    match Text.word32? word with
    | none => .error (.line number (.notNatural (String.ofList word)))
    | some value => .ok value

theorem readFields_eq (number : Nat) (line : List Char) : readFields number line = (do
    let a ← readField number (Text.words line)[0]?
    let b ← readField number (Text.words line)[1]?
    let c ← readField number (Text.words line)[2]?
    if (Text.words line).length ≤ 3 then return (a, b, c) else throw (.line number .trailing)) := rfl

theorem readField_eq_ok_iff {word : Option (List Char)} :
    readField n word = .ok a ↔ ∃ w, word = some w ∧ Text.word32? w = some a := by
  unfold readField
  cases word with
  | none => exact ⟨fun h => (nomatch h), fun ⟨_, hw, _⟩ => nomatch hw⟩
  | some w =>
      simp only [Option.some_inj, exists_eq_left']
      cases Text.word32? w with
      | none => exact ⟨fun h => (nomatch h), fun h => nomatch h⟩
      | some value => rw [Except.ok.injEq, Option.some_inj]

theorem exists_fault_of_readField {word : Option (List Char)} {e : Error} (h : readField n word = .error e) :
    ∃ fault, e = .line n fault := by
  unfold readField at h
  split at h
  · cases h
    exact ⟨_, rfl⟩
  · split at h
    · cases h
      exact ⟨_, rfl⟩
    · cases h

/-- Three numbers are read from a line if it holds them and nothing else. -/
theorem readFields_eq_ok_iff : readFields n text = .ok (a, b, c) ↔ Text.HoldsThree text a b c := by
  rw [Text.holdsThree_iff, readFields_eq]
  simp only [bind_eq_ok, readField_eq_ok_iff]
  constructor
  · rintro ⟨_, ⟨x, hx, hxa⟩, _, ⟨y, hy, hyb⟩, _, ⟨z, hz, hzc⟩, h⟩
    split at h
    · rename_i hlen
      cases h
      refine ⟨x, y, z, ?_, hxa, hyb, hzc⟩
      rcases hwords : Text.words text with _ | ⟨x', _ | ⟨y', _ | ⟨z', rest⟩⟩⟩
      all_goals rw [hwords] at hx hy hz hlen
      · cases hx
      · cases hy
      · cases hz
      · cases hx
        cases hy
        cases hz
        simp only [List.length_cons] at hlen
        have hrest : rest = [] := List.eq_nil_of_length_eq_zero (by omega)
        rw [hrest]
    · cases h
  · rintro ⟨x, y, z, hwords, hxa, hyb, hzc⟩
    rw [hwords]
    exact ⟨a, ⟨x, rfl, hxa⟩, b, ⟨y, rfl, hyb⟩, c, ⟨z, rfl, hzc⟩, rfl⟩

theorem exists_fault_of_readFields {e : Error} (h : readFields n text = .error e) :
    ∃ fault, e = .line n fault := by
  rw [readFields_eq] at h
  rcases bind_eq_error.1 h with h | ⟨a, _, h⟩
  · exact exists_fault_of_readField h
  rcases bind_eq_error.1 h with h | ⟨b, _, h⟩
  · exact exists_fault_of_readField h
  rcases bind_eq_error.1 h with h | ⟨c, _, h⟩
  · exact exists_fault_of_readField h
  split at h
  · cases h
  · cases h
    exact ⟨_, rfl⟩

/-- A line either holds three numbers, or a fault is found. -/
theorem readFields_cases (n : Nat) (text : List Char) :
    (∃ a b c, Text.HoldsThree text a b c) ∨ ∃ fault, readFields n text = .error (.line n fault) := by
  cases h : readFields n text with
  | ok x => exact .inl ⟨x.1, x.2.1, x.2.2, readFields_eq_ok_iff.1 h⟩
  | error e =>
      obtain ⟨fault, rfl⟩ := exists_fault_of_readFields h
      exact .inr ⟨fault, rfl⟩

/-! ### Single lines -/

namespace Graph

variable {e e' : Edge} {header : List UInt8}

/-- Three numbers are announced unless one of them is too large. -/
theorem readHeader_of_holdsThree (h : Text.HoldsThree text a b c) : readHeader text =
    if maxGraphVertices < a then .error (.line 1 (.tooManyVertices a))
    else if maxGraphLabels < c then .error (.line 1 (.tooManyLabels c)) else .ok (a, c) := by
  rw [readHeader, readFields_eq_ok_iff.2 h]
  by_cases ha : maxGraphVertices < a
  · simp only [bind, Except.bind, if_pos ha]
    rfl
  · by_cases hc : maxGraphLabels < c
    · simp only [bind, Except.bind, if_neg ha, if_pos hc]
      rfl
    · simp only [bind, Except.bind, if_neg ha, if_neg hc]
      rfl

/-- Three numbers are an edge unless one of them is out of its bounds. -/
theorem readEdge_of_holdsThree (h : Text.HoldsThree text a b c) : readEdge vertices labels n text =
    if vertices ≤ a ∨ vertices ≤ b then .error (.line n (.vertexOutside vertices))
    else if labels ≤ c then .error (.line n (.labelOutside c labels)) else .ok (some ⟨a, b, c⟩) := by
  have hwords : ¬ text.all Text.isBlank = true := by
    intro hblank
    obtain ⟨x, y, z, hwords, _⟩ := Text.holdsThree_iff.1 h
    rw [Text.words_eq_nil_iff.2 (List.all_eq_true.1 hblank)] at hwords
    cases hwords
  rw [readEdge, if_neg hwords, readFields_eq_ok_iff.2 h]
  by_cases hends : vertices ≤ a ∨ vertices ≤ b
  · simp only [bind, Except.bind, if_pos hends]
    rfl
  · by_cases hlabel : labels ≤ c
    · simp only [bind, Except.bind, if_neg hends, if_pos hlabel]
      rfl
    · simp only [bind, Except.bind, if_neg hends, if_neg hlabel]
      rfl

theorem not_lt_maxGraphVertices : ¬ maxGraphVertices < a ↔ a.toNat ≤ 50000000 := by
  rw [UInt32.lt_iff_toNat_lt]
  exact Nat.not_lt

theorem not_lt_maxGraphLabels : ¬ maxGraphLabels < a ↔ a.toNat ≤ 1000000 := by
  rw [UInt32.lt_iff_toNat_lt]
  exact Nat.not_lt

theorem read_headerLine (h : HeaderLine header vertices labels) :
    (decodeLine header >>= readHeader) = .ok (vertices, labels) := by
  obtain ⟨text, edges, htext, hthree, hvertices, hlabels⟩ := h
  refine bind_eq_ok.2 ⟨text, Text.decodeLine_eq_ok_iff.2 htext, ?_⟩
  rw [readHeader_of_holdsThree hthree, if_neg (not_lt_maxGraphVertices.2 hvertices),
    if_neg (not_lt_maxGraphLabels.2 hlabels)]

/-- The first line announces numbers, or it is reported. -/
theorem header_cases (header : List UInt8) : (∃ vertices labels, HeaderLine header vertices labels) ∨
    ∃ err, (decodeLine header >>= readHeader) = .error err ∧ Reports 1 (some header) err := by
  cases hdecode : decodeLine header with
  | error err =>
      obtain ⟨hnone, rfl⟩ := Text.decodeLine_eq_error hdecode
      exact .inr ⟨_, rfl, .encoding hnone⟩
  | ok text =>
      have htext := Text.decodeLine_eq_ok_iff.1 hdecode
      have hread : (Except.ok text >>= readHeader) = readHeader text := rfl
      rw [hread]
      rcases readFields_cases 1 text with ⟨a, b, c, hthree⟩ | ⟨fault, hfault⟩
      · rw [readHeader_of_holdsThree hthree]
        by_cases ha : maxGraphVertices < a
        · rw [if_pos ha]
          exact .inr ⟨_, rfl, .fault _ htext⟩
        · by_cases hc : maxGraphLabels < c
          · rw [if_neg ha, if_pos hc]
            exact .inr ⟨_, rfl, .fault _ htext⟩
          · exact .inl ⟨a, c, text, b, htext, hthree, not_lt_maxGraphVertices.1 ha,
              not_lt_maxGraphLabels.1 hc⟩
      · rw [readHeader, hfault]
        exact .inr ⟨_, rfl, .fault fault htext⟩

theorem read_blankLine (h : BlankLine line) : (decodeLine line >>= readEdge vertices labels n) = .ok none := by
  obtain ⟨text, htext, hblank⟩ := h
  refine bind_eq_ok.2 ⟨text, Text.decodeLine_eq_ok_iff.2 htext, ?_⟩
  rw [readEdge, if_pos (List.all_eq_true.2 hblank)]
  rfl

theorem read_edgeLine (h : EdgeLine vertices labels line e) :
    (decodeLine line >>= readEdge vertices labels n) = .ok (some e) := by
  obtain ⟨text, htext, hthree, hends, hlabel⟩ := h
  refine bind_eq_ok.2 ⟨text, Text.decodeLine_eq_ok_iff.2 htext, ?_⟩
  have hends : ¬ (vertices ≤ e.source ∨ vertices ≤ e.target) := by
    rw [not_or, UInt32.not_le, UInt32.not_le]
    exact hends
  rw [readEdge_of_holdsThree hthree, if_neg hends, if_neg (UInt32.not_le.2 hlabel)]

/-- A further line is blank, or an edge, or it is reported. -/
theorem line_cases (vertices labels : UInt32) (n : Nat) (line : List UInt8) : BlankLine line ∨
    (∃ e, EdgeLine vertices labels line e) ∨
      ∃ err, (decodeLine line >>= readEdge vertices labels n) = .error err ∧ Reports n (some line) err := by
  cases hdecode : decodeLine line with
  | error err =>
      obtain ⟨hnone, rfl⟩ := Text.decodeLine_eq_error hdecode
      exact .inr (.inr ⟨_, rfl, .encoding hnone⟩)
  | ok text =>
      have htext := Text.decodeLine_eq_ok_iff.1 hdecode
      have hread : (Except.ok text >>= readEdge vertices labels n) = readEdge vertices labels n text := rfl
      rw [hread]
      by_cases hblank : text.all Text.isBlank = true
      · exact .inl ⟨text, htext, List.all_eq_true.1 hblank⟩
      rcases readFields_cases n text with ⟨a, b, c, hthree⟩ | ⟨fault, hfault⟩
      · rw [readEdge_of_holdsThree hthree]
        by_cases hends : vertices ≤ a ∨ vertices ≤ b
        · rw [if_pos hends]
          exact .inr (.inr ⟨_, rfl, .fault _ htext⟩)
        · by_cases hlabel : labels ≤ c
          · rw [if_neg hends, if_pos hlabel]
            exact .inr (.inr ⟨_, rfl, .fault _ htext⟩)
          · rw [not_or, UInt32.not_le, UInt32.not_le] at hends
            exact .inr (.inl ⟨⟨a, b, c⟩, text, htext, hthree, hends, UInt32.not_le.1 hlabel⟩)
      · rw [readEdge, if_neg hblank, hfault]
        exact .inr (.inr ⟨_, rfl, .fault fault htext⟩)

/-- A line is one edge at most. -/
theorem EdgeLine.unique (h : EdgeLine vertices labels line e) (h' : EdgeLine vertices labels line e') :
    e = e' :=
  Option.some.inj (Except.ok.inj ((read_edgeLine (n := 0) h).symm.trans (read_edgeLine h')))

theorem BlankLine.not_edgeLine (h : BlankLine line) : ¬ EdgeLine vertices labels line e := by
  intro he
  have hboth := (read_blankLine (n := 0) h).symm.trans (read_edgeLine he)
  cases hboth

/-- A line that is not good is reported. -/
theorem exists_reports_of_not_goodLine (n : Nat) (h : ¬ GoodLine vertices labels line) :
    ∃ err, (decodeLine line >>= readEdge vertices labels n) = .error err ∧ Reports n (some line) err := by
  rcases line_cases vertices labels n line with hblank | hedge | hreport
  · exact absurd (.inl hblank) h
  · exact absurd (.inr hedge) h
  · exact hreport

/-! ### All lines -/

variable {g : Graph} {allowed : UInt32 → Bool} {before after : List (List UInt8)}

theorem readEdges_cons (allowed : UInt32 → Bool) (g : Graph) (n : Nat) (line : List UInt8)
    (lines : List (List UInt8)) : g.readEdges allowed n (line :: lines) =
      (decodeLine line >>= readEdge g.vertexCount g.labelCount n) >>= fun edge? =>
        match edge? with
        | none => g.readEdges allowed (n + 1) lines
        | some edge => (if allowed edge.label then g.addEdge edge else .ok g) >>= fun g =>
            g.readEdges allowed (n + 1) lines := by
  rw [readEdges]
  cases decodeLine line with
  | error err => rfl
  | ok text =>
      change (readEdge _ _ _ text >>= _) = (readEdge _ _ _ text >>= _)
      cases readEdge g.vertexCount g.labelCount n text with
      | error err => rfl
      | ok edge? =>
          cases edge? with
          | none => rfl
          | some edge =>
              change (if allowed edge.label = true then _ else _) =
                (if allowed edge.label = true then _ else _) >>= _
              split
              · rfl
              · rfl

theorem addEdge_eq_ok (hends : e.source < g.vertexCount ∧ e.target < g.vertexCount)
    (hlabel : e.label < g.labelCount) : ∃ g', g.addEdge e = .ok g' ∧ g'.vertexCount = g.vertexCount ∧
      g'.labelCount = g.labelCount ∧ g'.edges = g.edges.insert e := by
  rw [addEdge, dif_pos hends, dif_pos hlabel]
  exact ⟨_, rfl, rfl, rfl, rfl⟩

/-- The step: the edge of a line is added if its label is allowed. -/
theorem exists_addEdge (allowed : UInt32 → Bool) (h : EdgeLine g.vertexCount g.labelCount line e) :
    ∃ g', (if allowed e.label then g.addEdge e else .ok g) = .ok g' ∧ g'.vertexCount = g.vertexCount ∧
      g'.labelCount = g.labelCount ∧ ∀ x, x ∈ g'.edges ↔ x ∈ g.edges ∨ allowed x.label = true ∧ x = e := by
  obtain ⟨_, _, _, hends, hlabel⟩ := h
  by_cases hallowed : allowed e.label = true
  · obtain ⟨g', hadd, hvertices, hlabels, hedges⟩ := addEdge_eq_ok hends hlabel
    refine ⟨g', by rw [if_pos hallowed, hadd], hvertices, hlabels, fun x => ?_⟩
    rw [hedges, OrderedSet.mem_insert, or_comm]
    refine or_congr_right ⟨?_, And.right⟩
    rintro rfl
    exact ⟨hallowed, rfl⟩
  · refine ⟨g, by rw [if_neg hallowed], rfl, rfl, fun x => (or_iff_left ?_).symm⟩
    rintro ⟨hx, rfl⟩
    exact hallowed hx

/-- The run over good lines: their edges with allowed labels are added. -/
theorem readEdges_of_good (allowed : UInt32 → Bool) (n : Nat)
    (h : ∀ line ∈ lines, GoodLine g.vertexCount g.labelCount line) :
    ∃ g', g.readEdges allowed n lines = .ok g' ∧ g'.vertexCount = g.vertexCount ∧
      g'.labelCount = g.labelCount ∧ ∀ x, x ∈ g'.edges ↔ x ∈ g.edges ∨
        allowed x.label = true ∧ ∃ line ∈ lines, EdgeLine g.vertexCount g.labelCount line x := by
  induction lines generalizing g n with
  | nil => exact ⟨g, rfl, rfl, rfl, fun x => by simp⟩
  | cons line lines ih =>
      obtain ⟨hline, hlines⟩ := List.forall_mem_cons.1 h
      rw [readEdges_cons]
      rcases hline with hblank | ⟨e, he⟩
      · obtain ⟨g', hread, hvertices, hlabels, hedges⟩ := ih (n + 1) hlines
        refine ⟨g', bind_eq_ok.2 ⟨none, read_blankLine hblank, hread⟩, hvertices, hlabels, fun x => ?_⟩
        rw [hedges]
        simp only [List.exists_mem_cons_iff, hblank.not_edgeLine, false_or]
      · obtain ⟨mid, hadd, hvertices, hlabels, hmid⟩ := exists_addEdge allowed he
        rw [← hvertices, ← hlabels] at hlines
        obtain ⟨g', hread, hvertices', hlabels', hedges⟩ := ih (n + 1) hlines
        refine ⟨g', bind_eq_ok.2 ⟨some e, read_edgeLine he, bind_eq_ok.2 ⟨mid, hadd, hread⟩⟩,
          hvertices'.trans hvertices, hlabels'.trans hlabels, fun x => ?_⟩
        have hx : EdgeLine g.vertexCount g.labelCount line x ↔ x = e :=
          ⟨fun hx => hx.unique he, fun hx => hx ▸ he⟩
        rw [hedges, hmid, hvertices, hlabels, or_assoc, ← and_or_left]
        simp only [List.exists_mem_cons_iff, hx]

/-- The run up to a line that is reported: what is allowed does not matter. -/
theorem readEdges_of_bad (allowed : UInt32 → Bool) (after : List (List UInt8)) {err : Error}
    (h : ∀ x ∈ before, GoodLine g.vertexCount g.labelCount x)
    (herr : (decodeLine line >>= readEdge g.vertexCount g.labelCount (n + before.length)) = .error err) :
    g.readEdges allowed n (before ++ line :: after) = .error err := by
  induction before generalizing g n with
  | nil =>
      rw [List.nil_append, readEdges_cons]
      exact bind_eq_error.2 (.inl herr)
  | cons x before ih =>
      obtain ⟨hx, hbefore⟩ := List.forall_mem_cons.1 h
      rw [List.length_cons, Nat.add_comm before.length, ← Nat.add_assoc] at herr
      rw [List.cons_append, readEdges_cons]
      rcases hx with hblank | ⟨e, he⟩
      · exact bind_eq_error.2 (.inr ⟨none, read_blankLine hblank, ih hbefore herr⟩)
      · obtain ⟨mid, hadd, hvertices, hlabels, _⟩ := exists_addEdge allowed he
        rw [← hvertices, ← hlabels] at hbefore herr
        exact bind_eq_error.2 (.inr ⟨some e, read_edgeLine he,
          bind_eq_error.2 (.inr ⟨mid, hadd, ih hbefore herr⟩)⟩)

/-- The bytes are a graph text, or there is a first line that keeps them from being one. -/
theorem wellFormed_or_firstOffence (bytes : List UInt8) :
    (∃ vertices labels lines, WellFormed bytes vertices labels lines) ∨
      ∃ n line?, FirstOffence bytes n line? := by
  classical
  have hlines := Text.lines_spec bytes
  cases hcut : byteLines bytes with
  | nil =>
      rw [hcut] at hlines
      exact .inr ⟨1, none, .missing hlines⟩
  | cons header lines =>
      rw [hcut] at hlines
      by_cases hheader : ∃ vertices labels, HeaderLine header vertices labels
      · obtain ⟨vertices, labels, hheader⟩ := hheader
        rcases Text.separator_cases (fun line => decide (¬ GoodLine vertices labels line)) lines with
          hall | ⟨before, line, after, rfl, hbefore, hline⟩
        · refine .inl ⟨vertices, labels, lines, ⟨header, hlines, hheader⟩, fun line hline => ?_⟩
          exact Decidable.not_not.1 (of_decide_eq_false (hall line hline))
        · exact .inr ⟨_, _, .line hlines hheader
            (fun x hx => Decidable.not_not.1 (of_decide_eq_false (hbefore x hx))) (of_decide_eq_true hline)⟩
      · exact .inr ⟨1, some header, .header hlines fun v l h => hheader ⟨v, l, h⟩⟩

theorem read_of_lines {bytes : List UInt8} (h : Text.Lines bytes (header :: lines)) :
    read allowed bytes = (decodeLine header >>= readHeader) >>= fun x =>
      (empty x.1 x.2).readEdges allowed 2 lines := by
  rw [read, Text.byteLines_eq_iff.2 h]
  exact (bind_assoc (decodeLine header) readHeader _).symm

theorem read_of_wellFormed {bytes : List UInt8} (h : WellFormed bytes vertices labels lines)
    (allowed : UInt32 → Bool) : ∃ g, read allowed bytes = .ok g ∧ g.vertexCount = vertices ∧
      g.labelCount = labels ∧ ∀ x, x ∈ g.edges ↔
        allowed x.label = true ∧ ∃ line ∈ lines, EdgeLine vertices labels line x := by
  obtain ⟨⟨header, hlines, hheader⟩, hgood⟩ := h
  obtain ⟨g, hread, hvertices, hlabels, hedges⟩ :=
    readEdges_of_good (g := empty vertices labels) allowed 2 hgood
  refine ⟨g, ?_, hvertices, hlabels, fun x => (hedges x).trans (or_iff_right fun hx => nomatch hx)⟩
  rw [read_of_lines hlines]
  exact bind_eq_ok.2 ⟨_, read_headerLine hheader, hread⟩

/-- The first line that is wrong is reported, whatever labels are allowed. -/
theorem read_of_firstOffence {bytes : List UInt8} {line? : Option (List UInt8)}
    (h : FirstOffence bytes n line?) :
    ∃ err, Reports n line? err ∧ ∀ allowed, read allowed bytes = .error err := by
  cases h with
  | missing hlines =>
      refine ⟨_, .missing, fun allowed => ?_⟩
      rw [read, Text.byteLines_eq_iff.2 hlines]
  | header hlines hheader =>
      rcases header_cases _ with ⟨v, l, hgood⟩ | ⟨err, herr, hreports⟩
      · exact absurd hgood (hheader v l)
      · refine ⟨err, hreports, fun allowed => ?_⟩
        rw [read_of_lines hlines]
        exact bind_eq_error.2 (.inl herr)
  | @line header line before after vertices labels hlines hheader hbefore hline =>
      obtain ⟨err, herr, hreports⟩ := exists_reports_of_not_goodLine (before.length + 2) hline
      refine ⟨err, hreports, fun allowed => ?_⟩
      rw [Nat.add_comm] at herr
      rw [read_of_lines hlines]
      exact bind_eq_error.2 (.inr ⟨_, read_headerLine hheader,
        readEdges_of_bad (g := empty vertices labels) allowed after hbefore herr⟩)

/-- A graph is determined by its bounds and its edges. -/
theorem eq_of_mem_edges_iff {g g' : Graph} (hvertices : g.vertexCount = g'.vertexCount)
    (hlabels : g.labelCount = g'.labelCount) (hedges : ∀ x, x ∈ g.edges ↔ x ∈ g'.edges) : g = g' := by
  cases g
  cases g'
  cases hvertices
  cases hlabels
  cases OrderedSet.ext_mem hedges
  rfl

/-- Labels may be left out while the lines are read or when the whole graph is there. -/
theorem read_eq_map_restrict (allowed : UInt32 → Bool) (bytes : List UInt8) :
    read allowed bytes = (read (fun _ => true) bytes).map (restrict allowed) := by
  rcases wellFormed_or_firstOffence bytes with ⟨v, l, lines, hwell⟩ | ⟨n, line?, hoffence⟩
  · obtain ⟨g, hg, hvertices, hlabels, hedges⟩ := read_of_wellFormed hwell allowed
    obtain ⟨g', hg', hvertices', hlabels', hedges'⟩ := read_of_wellFormed hwell fun _ => true
    have hsame : g = g'.restrict allowed := by
      refine eq_of_mem_edges_iff (hvertices.trans hvertices'.symm) (hlabels.trans hlabels'.symm) fun x => ?_
      rw [hedges, restrict, OrderedSet.mem_filter, hedges', and_comm]
      simp only [true_and]
    rw [hg, hg', hsame]
    rfl
  · obtain ⟨err, _, herr⟩ := read_of_firstOffence hoffence
    rw [herr, herr]
    rfl

/-- Reading is exact, and labels are left out as if the whole graph had been read before. A graph is read if and
    only if the bytes are a graph text. It has the vertices and labels that are announced, and just the edges of
    the lines, as far as their labels are allowed. Otherwise the first offending line is reported. What is
    allowed decides neither whether a graph is read nor what is reported. -/
theorem read_follows_format (allowed : UInt32 → Bool) (bytes : List UInt8) :
    ((∃ g, read allowed bytes = .ok g) ↔ ∃ vertices labels lines, WellFormed bytes vertices labels lines) ∧
    (∀ vertices labels lines, WellFormed bytes vertices labels lines →
      ∃ g, read allowed bytes = .ok g ∧ g.vertexCount = vertices ∧ g.labelCount = labels ∧
        ∀ e, e ∈ g.edges ↔ allowed e.label = true ∧ ∃ line ∈ lines, EdgeLine vertices labels line e) ∧
    (∀ err, read allowed bytes = .error err → ∃ n line?, FirstOffence bytes n line? ∧ Reports n line? err) ∧
    read allowed bytes = (read (fun _ => true) bytes).map (restrict allowed) := by
  have hcases := wellFormed_or_firstOffence bytes
  refine ⟨⟨?_, ?_⟩, fun v l lines h => read_of_wellFormed h allowed, ?_, read_eq_map_restrict allowed bytes⟩
  · rintro ⟨g, hg⟩
    refine hcases.resolve_right ?_
    rintro ⟨n, line?, hoffence⟩
    obtain ⟨err, _, herr⟩ := read_of_firstOffence hoffence
    rw [herr allowed] at hg
    cases hg
  · rintro ⟨v, l, lines, hwell⟩
    obtain ⟨g, hg, _⟩ := read_of_wellFormed hwell allowed
    exact ⟨g, hg⟩
  · intro err herr
    rcases hcases with ⟨v, l, lines, hwell⟩ | ⟨n, line?, hoffence⟩
    · obtain ⟨g, hg, _⟩ := read_of_wellFormed hwell allowed
      rw [hg] at herr
      cases herr
    · obtain ⟨err', hreports, herr'⟩ := read_of_firstOffence hoffence
      rw [herr' allowed] at herr
      cases herr
      exact ⟨n, line?, hoffence, hreports⟩

end Graph

end PathQueryIndex

/-
Module: PathQueryIndex.Proofs.Query.Derivation
Layer: Proofs
Purpose: Reading queries, against the grammar. Reading the tokens of a derivation leads from before an
  operand to behind one, whatever stands around them, and leaves a level that closes to the derived query.
  Conversely, the tokens behind a level derive its open operands, each with the sign that it waits behind, and
  every token that is read keeps this. Together with the tokens that are cut from a text, a query is parsed
  from a text if and only if the text writes it.
Imports: PathQueryIndex.Query.Parser, PathQueryIndex.Proofs.Query.Spelling
Main exports: Level.Reads, Level.Behind, Level.BehindAll, Query.derives_of_readTokens,
  Query.ofTokens_eq_ok_iff, Query.parse_follows_grammar
-/
import PathQueryIndex.Query.Parser
import PathQueryIndex.Proofs.Query.Spelling

namespace PathQueryIndex

variable {level m n around : Level} {outer : List Level} {pre before ts us : List Token} {p q : Query}

namespace Level

open Query

/-! ### Derivations are read -/

/-- Reading some tokens leads from before an operand of one level to behind the operand `q` of another,
    whatever the levels around them and the tokens behind them are. -/
def Reads (level : Level) (ts : List Token) (m : Level) (q : Query) : Prop :=
  ∀ (text : String) (position : Nat) (outer : List Level) (rest : List Token),
    readTokens text position level outer .before (ts ++ rest) =
      readTokens text (position + ts.length) m outer (.behind q) rest

namespace Reads

theorem identity (level : Level) : Reads level [.identity] level .identity :=
  fun _ _ _ _ => by rw [List.singleton_append, readTokens, List.length_singleton]

theorem label (level : Level) (l : Label) : Reads level [.label l] level (.label l) :=
  fun _ _ _ _ => by rw [List.singleton_append, readTokens, List.length_singleton]

/-- Behind a sign of concatenation the running concatenation goes on. -/
theorem concat (hp : Reads level ts m p) (hq : Reads (m.thenConcat p) us n q) :
    Reads level (ts ++ .concat :: us) n q := by
  intro text position outer rest
  rw [List.append_assoc, hp, List.cons_append, readTokens, hq, List.length_append, List.length_cons,
    Nat.add_assoc, Nat.add_assoc, Nat.add_comm 1]

/-- Behind a sign of intersection a new concatenation begins. -/
theorem intersect (hp : Reads level ts m p) (hq : Reads (m.thenIntersect p) us n q) :
    Reads level (ts ++ .intersect :: us) n q := by
  intro text position outer rest
  rw [List.append_assoc, hp, List.cons_append, readTokens, hq, List.length_append, List.length_cons,
    Nat.add_assoc, Nat.add_assoc, Nat.add_comm 1]

/-- Parentheses hand the query of their level to the level around them. -/
theorem group (h : Reads .start ts m q) (level : Level) :
    Reads level (.opened :: ts ++ [.closed]) level (m.close q) := by
  intro text position outer rest
  rw [List.cons_append, List.cons_append, readTokens, List.append_assoc, h, List.singleton_append,
    readTokens, List.length_cons, List.length_append, List.length_singleton]
  congr 1
  omega

end Reads

end Level

namespace Query

open Level

mutual

theorem DerivesOperand.reads : ∀ {ts : List Token} {q : Query}, DerivesOperand ts q →
    ∀ level, Reads level ts level q
  | _, _, .identity, level => .identity level
  | _, _, .label l, level => .label level l
  | _, _, .group h, level => by
      obtain ⟨m, last, hreads, rfl⟩ := h.reads
      exact hreads.group level

/-- A concatenation is read while nothing is concatenated yet. -/
theorem DerivesConcat.reads : ∀ {ts : List Token} {q : Query}, DerivesConcat ts q →
    ∀ intersected, ∃ concatenated last,
      Reads ⟨intersected, none⟩ ts ⟨intersected, concatenated⟩ last ∧
        Level.concatWith ⟨intersected, concatenated⟩ last = q
  | _, q, .operand h, _ => ⟨none, q, h.reads _, rfl⟩
  | _, _, .concat hp hq, intersected => by
      obtain ⟨concatenated, last, hreads, rfl⟩ := hp.reads intersected
      exact ⟨some _, _, hreads.concat (hq.reads _), rfl⟩

/-- An intersection is read from the start of a level. -/
theorem DerivesIntersection.reads : ∀ {ts : List Token} {q : Query}, DerivesIntersection ts q →
    ∃ m last, Reads .start ts m last ∧ m.close last = q
  | _, _, .single h => by
      obtain ⟨concatenated, last, hreads, rfl⟩ := h.reads none
      exact ⟨_, last, hreads, rfl⟩
  | _, _, .intersect hp hq => by
      obtain ⟨m, last, hreads, rfl⟩ := hp.reads
      obtain ⟨concatenated, last', hreads', rfl⟩ := hq.reads (some (m.close last))
      exact ⟨_, last', hreads.intersect hreads', rfl⟩

end

theorem ofTokens_of_derives (h : DerivesIntersection ts q) (text : String) :
    ofTokens text ts = .ok q := by
  obtain ⟨m, last, hreads, rfl⟩ := h.reads
  rw [ofTokens, ← List.append_nil ts, hreads, readTokens]

end Query

/-! ### What is read is derived -/

namespace Level

open Query

/-- The tokens of a level that stand before its next operand. -/
inductive Behind : Level → List Token → Prop where
  | start : Behind .start []
  | intersect {ts : List Token} {p : Query} :
      DerivesIntersection ts p → Behind ⟨some p, none⟩ (ts ++ [.intersect])
  | concat {intersected : Option Query} {pre ts : List Token} {p : Query} :
      Behind ⟨intersected, none⟩ pre → DerivesConcat ts p →
        Behind ⟨intersected, some p⟩ (pre ++ ts ++ [.concat])

/-- The tokens of the levels around the current one, each up to the parenthesis that opens the next. -/
inductive BehindAll : List Level → List Token → Prop where
  | none : BehindAll [] []
  | opened {around : Level} {outer : List Level} {before pre : List Token} :
      BehindAll outer before → Behind around pre → BehindAll (around :: outer) (before ++ pre ++ [.opened])

/-- One more operand ends the running concatenation. -/
theorem Behind.concatWith (h : Behind level pre) (hq : DerivesOperand ts q) :
    ∃ us vs, pre ++ ts = us ++ vs ∧ Behind ⟨level.intersected, none⟩ us ∧
      DerivesConcat vs (level.concatWith q) := by
  cases h with
  | start => exact ⟨[], ts, rfl, .start, .operand hq⟩
  | intersect hp => exact ⟨_, ts, rfl, .intersect hp, .operand hq⟩
  | @concat intersected pre us p hpre hp =>
      refine ⟨pre, us ++ .concat :: ts, ?_, hpre, .concat hp hq⟩
      simp only [List.append_assoc, List.singleton_append]

/-- One more operand ends the level. -/
theorem Behind.close (h : Behind level pre) (hq : DerivesOperand ts q) :
    DerivesIntersection (pre ++ ts) (level.close q) := by
  obtain ⟨us, vs, hsplit, hus, hvs⟩ := h.concatWith hq
  obtain ⟨intersected, concatenated⟩ := level
  rw [hsplit]
  cases hus with
  | start => exact .single hvs
  | intersect hp =>
      rw [List.append_assoc, List.singleton_append]
      exact .intersect hp hvs

theorem Behind.thenConcat (h : Behind level pre) (hq : DerivesOperand ts q) :
    Behind (level.thenConcat q) (pre ++ ts ++ [.concat]) := by
  obtain ⟨us, vs, hsplit, hus, hvs⟩ := h.concatWith hq
  rw [hsplit]
  exact .concat hus hvs

theorem Behind.thenIntersect (h : Behind level pre) (hq : DerivesOperand ts q) :
    Behind (level.thenIntersect q) (pre ++ ts ++ [.intersect]) :=
  .intersect (h.close hq)

end Level

/-- The tokens of the operand behind which reading stands, if it does. -/
inductive Reading.Covers : Reading → List Token → Prop where
  | before : Covers .before []
  | behind {ts : List Token} {q : Query} : Query.DerivesOperand ts q → Covers (.behind q) ts

namespace Query

open Level

/-- Reading keeps that the tokens read so far derive the open operands: what is read at last is derived from
    all tokens. -/
theorem derives_of_readTokens {text : String} {position : Nat} {reading : Reading}
    {tokens : List Token} {result : Query} (houter : BehindAll outer before) (hlevel : Behind level pre)
    (hreading : reading.Covers ts)
    (h : readTokens text position level outer reading tokens = .ok result) :
    DerivesIntersection (before ++ pre ++ ts ++ tokens) result := by
  fun_induction readTokens generalizing before pre ts with
  | case1 => cases h
  | case2 position level outer tokens ih =>
      cases hreading
      have hrest := ih houter hlevel (.behind .identity) h
      simpa only [List.append_assoc, List.nil_append, List.singleton_append] using hrest
  | case3 position level outer tokens l ih =>
      cases hreading
      have hrest := ih houter hlevel (.behind (.label l)) h
      simpa only [List.append_assoc, List.nil_append, List.singleton_append] using hrest
  | case4 position level outer tokens ih =>
      cases hreading
      have hrest := ih (houter.opened hlevel) .start .before h
      simpa only [List.append_assoc, List.nil_append, List.singleton_append] using hrest
  | case5 => cases h
  | case6 position level q =>
      cases hreading with
      | behind hq =>
          cases houter
          cases h
          rw [List.nil_append, List.append_nil]
          exact hlevel.close hq
  | case7 => cases h
  | case8 position level outer q tokens ih =>
      cases hreading with
      | behind hq =>
          have hrest := ih houter (hlevel.thenConcat hq) .before h
          simpa only [List.append_assoc, List.nil_append, List.singleton_append] using hrest
  | case9 position level outer q tokens ih =>
      cases hreading with
      | behind hq =>
          have hrest := ih houter (hlevel.thenIntersect hq) .before h
          simpa only [List.append_assoc, List.nil_append, List.singleton_append] using hrest
  | case10 position level q tokens around outer ih =>
      cases hreading with
      | behind hq =>
          cases houter with
          | opened houter haround =>
              have hrest := ih houter haround (.behind (.group (hlevel.close hq))) h
              simpa only [List.append_assoc, List.cons_append, List.nil_append] using hrest
  | case11 => cases h
  | case12 => cases h

theorem ofTokens_eq_ok_iff {text : String} : ofTokens text ts = .ok q ↔ DerivesIntersection ts q := by
  constructor
  · exact derives_of_readTokens .none .start .before
  · exact fun h => ofTokens_of_derives h text

/-! ### Texts -/

mutual

/-- Labels of a query are kept apart by signs and parentheses. -/
theorem DerivesOperand.apart : ∀ {ts : List Token} {q : Query}, DerivesOperand ts q → Token.Apart ts
  | _, _, .identity => .singleton _
  | _, _, .label _ => .singleton _
  | _, _, .group h => (Token.Apart.between .nil rfl h.apart).between rfl .nil

theorem DerivesConcat.apart : ∀ {ts : List Token} {q : Query}, DerivesConcat ts q → Token.Apart ts
  | _, _, .operand h => h.apart
  | _, _, .concat hp hq => hp.apart.between rfl hq.apart

theorem DerivesIntersection.apart : ∀ {ts : List Token} {q : Query}, DerivesIntersection ts q →
    Token.Apart ts
  | _, _, .single h => h.apart
  | _, _, .intersect hp hq => hp.apart.between rfl hq.apart

end

theorem parse_eq_ok_iff {text : String} : parse text = .ok q ↔ Written text q := by
  constructor
  · intro h
    unfold parse at h
    split at h
    · cases h
    · rename_i tokens hscan
      cases hread : ofTokens text tokens with
      | error fault =>
          rw [hread] at h
          cases h
      | ok r =>
          rw [hread] at h
          cases h
          exact ⟨tokens, Token.spells_of_scan hscan, ofTokens_eq_ok_iff.1 hread⟩
  · rintro ⟨tokens, hspells, hderives⟩
    rw [parse, Token.scan_of_spells hspells hderives.apart]
    exact congrArg (Except.mapError _) (ofTokens_of_derives hderives text)

theorem fault_of_parse {text : String} {e : Error} (h : parse text = .error e) :
    ∃ fault, e = .argument (.query fault) := by
  unfold parse at h
  split at h
  · cases h
    exact ⟨_, rfl⟩
  · rename_i tokens _
    cases hread : ofTokens text tokens with
    | error fault =>
        rw [hread] at h
        cases h
        exact ⟨fault, rfl⟩
    | ok r =>
        rw [hread] at h
        cases h

/-- A query is parsed from a text if and only if the text writes it: its characters, blanks between tokens
    aside, spell tokens from which the grammar derives the query. A text that writes no query is refused with a
    fault of query text, and no other text is. -/
theorem parse_follows_grammar (text : String) :
    (∀ q, parse text = .ok q ↔ Written text q) ∧
      ((¬∃ q, Written text q) ↔ ∃ fault, parse text = .error (.argument (.query fault))) := by
  refine ⟨fun q => parse_eq_ok_iff, ?_⟩
  constructor
  · intro hnone
    cases hparse : parse text with
    | ok q => exact absurd ⟨q, parse_eq_ok_iff.1 hparse⟩ hnone
    | error e =>
        obtain ⟨fault, rfl⟩ := fault_of_parse hparse
        exact ⟨fault, rfl⟩
  · rintro ⟨fault, hfault⟩ ⟨q, hwritten⟩
    rw [parse_eq_ok_iff.2 hwritten] at hfault
    cases hfault

end Query

end PathQueryIndex

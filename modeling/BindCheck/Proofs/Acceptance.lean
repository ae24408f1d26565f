import BindCheck.Proofs.Normalization
import BindCheck.Proofs.OperatorChains

/-!
# BindCheck.Proofs.Acceptance

**The parser accepts just what the grammar derives** (`parse_iff_derives`). What is left is the
rule for the tail of a query, and the induction over the calls.

A query of several parts is a row of parts, each closed by a `WITH`, and the parser goes down
the row by calling `queryTail` behind each `WITH`. When it starts on a part it cannot know
whether the part is the last one, so a tail is a query of one part or of several
(`Grammar.tailForm`). The parser asks for the projection that closes a part before it looks which
one it is; `Grammar.sortedTail` asks once, and takes the same.
-/

namespace BindCheck

open RegularExpression

/-! ### Tails of queries -/

namespace Grammar

/-- The clauses of a part in front of its `WITH`. -/
def partForm : Form := (Form.of .readingClause).star * (Form.of .updatingClause).star * .of .withClause

open Form in
/-- A tail, clause by clause. -/
def sortedTailForm : Form :=
  (of .readingClause).star *
    (oneOrMore (of .updatingClause) * (of .withClause * tailForm + optional (of .returnClause)) +
      (of .withClause * tailForm + of .returnClause))

/-- A `WITH`, and the rest of the query. -/
def withTail : Rule := .row [withClause, .call .queryTail]

/-- The rest of a query, where one look at the projection is enough. -/
def sortedTail : Rule :=
  .row [.many (.next [readingWord]) readingClause,
    .branch (.next [updatingWord])
      (.row [.many (.next [updatingWord]) updatingClause,
        .branch (.next [.keyword .WITH]) withTail (.whenNext (.keyword .RETURN) returnClause)])
      (.branch (.next [.keyword .WITH]) withTail returnClause)]

/-- All rules that are not looked into. -/
def leaves : List Leaf :=
  ⟨queryTail, tailForm, afterQuery⟩ :: ⟨sum, .of .sum, afterSum⟩ :: bracketed

/-- What is computed from the rules for queries, and from those that are called by name. -/
structure QueryChecks : Prop where
  sortedTail : Grammar.sortedTail.realizes calls sortedTailForm afterQuery = true
  parts : includes 0 sortedTailForm (Phrase.singlePartQuery.form + partForm * tailForm) = true ∧
    includes 0 (Phrase.singlePartQuery.form + partForm * tailForm) sortedTailForm = true
  /-- Several parts are one part in front of one or of several. -/
  severalParts :
    includes 0 Phrase.multiPartQuery.form
        (partForm * (Form.of .singlePartQuery + Phrase.multiPartQuery.form)) = true ∧
      includes 0 (partForm * (Form.of .singlePartQuery + Phrase.multiPartQuery.form))
        Phrase.multiPartQuery.form = true
  singleQuery : Grammar.singleQuery.realizes leaves (.of .singleQuery) afterQuery = true
  patternElement :
    Grammar.patternElement.realizes leaves (.of .patternElement) afterPattern = true
  expression : Grammar.expression.realizes leaves (.of .expression) afterExpression = true
  comparison : Grammar.comparison.realizes leaves (.of .comparison) afterComparison = true
  unary : Grammar.unary.reads leaves (.of .unary) = true
  cypher : Grammar.cypher.realizes leaves (.of .cypher) [.ending] = true

theorem queryChecks : QueryChecks := by
  constructor <;> decide +kernel

end Grammar

section

variable {m : Nat} {us vs : List Lexeme}

/-- What is behind a choice may be put into both alternatives. -/
theorem Rule.Accepts.seq_branch {l : Lookahead} {y n s : Rule} :
    (Rule.seq (branch l y n) s).Accepts us vs ↔
      (branch l (.seq y s) (.seq n s)).Accepts us vs := by
  rw [seq_iff, branch_iff]
  constructor
  · rintro ⟨us₁, us₂, rfl, hfirst, hs⟩
    rw [List.append_assoc]
    exact (branch_iff.mp hfirst).imp (fun h => ⟨h.1, h.2.seq hs⟩) fun h => ⟨h.1, h.2.seq hs⟩
  · rintro (⟨hl, h⟩ | ⟨hl, h⟩)
    · obtain ⟨us₁, us₂, rfl, hy, hs⟩ := seq_iff.mp h
      exact ⟨us₁, us₂, rfl, branch_iff.mpr (.inl ⟨by rwa [← List.append_assoc], hy⟩), hs⟩
    · obtain ⟨us₁, us₂, rfl, hn, hs⟩ := seq_iff.mp h
      exact ⟨us₁, us₂, rfl, branch_iff.mpr (.inr ⟨by rwa [← List.append_assoc], hn⟩), hs⟩

theorem Rule.Accepts.seq_demand {l : Lookahead} {e : Expectation} {s : Rule} :
    (Rule.seq (demand l e) s).Accepts us vs ↔ l.holds (us ++ vs) = true ∧ s.Accepts us vs := by
  rw [seq_iff]
  constructor
  · rintro ⟨_, us, rfl, ⟨_, hdemand⟩, hs⟩
    obtain ⟨rfl, hl, -⟩ := Run.demand_iff.mp hdemand
    exact ⟨hl, hs⟩
  · rintro ⟨hl, hs⟩
    exact ⟨[], us, rfl, ⟨_, .demand hl⟩, hs⟩

/-- Where a projection is demanded, it need not be looked for again. -/
theorem Rule.Accepts.demanded_projection {e : Expectation} :
    (Rule.seq (demand (.next [.keywords [.RETURN, .WITH]]) e)
      (branch (.next [.keyword .WITH]) Grammar.withTail
        (whenNext (.keyword .RETURN) Grammar.returnClause))).Accepts us vs ↔
      (branch (.next [.keyword .WITH]) Grammar.withTail Grammar.returnClause).Accepts us vs := by
  rw [seq_demand, branch_iff, branch_iff]
  constructor
  · rintro ⟨hdemand, hwith | ⟨hno, hreturn⟩⟩
    · exact .inl hwith
    · refine .inr ⟨hno, ?_⟩
      rcases branch_iff.mp hreturn with ⟨-, hreturn⟩ | ⟨hno', -⟩
      · exact hreturn
      · rw [Lookahead.holds_keywords, hno, hno'] at hdemand
        exact Bool.noConfusion hdemand
  · rintro (⟨hwith, h⟩ | ⟨hno, hreturn⟩)
    · exact ⟨Lookahead.holds_of_within hwith (by decide), .inl ⟨hwith, h⟩⟩
    · obtain ⟨_, run⟩ := hreturn
      have hnext : (Lookahead.next [.keyword .RETURN]).holds (us ++ vs) = true :=
        run.next_holds (by decide) (by decide)
      exact ⟨Lookahead.holds_of_within hnext (by decide), .inr ⟨hno, _, .yes hnext run⟩⟩

theorem Rule.Accepts.queryTail_iff :
    Grammar.queryTail.Accepts us vs ↔ Grammar.sortedTail.Accepts us vs := by
  refine fork_iff.trans (seq_assoc.trans (seq_congr (fun _ _ => Iff.rfl) fun us vs => ?_))
  refine seq_branch.trans (branch_iff.trans (Iff.trans ?_ branch_iff.symm))
  exact or_congr Iff.rfl (and_congr_right fun _ => demanded_projection)

/-! ### The form of a tail -/

theorem Grammar.yields_tailForm {ks : List Token} :
    Yields tailForm ks ↔ Yields (.of .singlePartQuery + Phrase.multiPartQuery.form) ks := by
  rw [tailForm, Yields.add_iff, Yields.add_iff, Yields.of_iff (p := .multiPartQuery)]

/-- A tail is spelled clause by clause. -/
theorem Grammar.yields_sortedTailForm {ks : List Token} :
    Yields sortedTailForm ks ↔ Yields tailForm ks := by
  have hsorted : Yields sortedTailForm ks ↔
      Yields (Phrase.singlePartQuery.form + partForm * tailForm) ks :=
    ⟨Yields.mono queryChecks.parts.1, Yields.mono queryChecks.parts.2⟩
  have hparts : Yields (partForm * tailForm) ks ↔ Yields (.of .multiPartQuery) ks := by
    rw [Yields.of_iff, Yields.mul_iff]
    simp only [yields_tailForm]
    rw [← Yields.mul_iff]
    exact ⟨Yields.mono queryChecks.severalParts.2, Yields.mono queryChecks.severalParts.1⟩
  rw [hsorted, Yields.add_iff, hparts, ← Yields.of_iff, ← Yields.add_iff, tailForm]

theorem Grammar.queryTail_exact (hcalls : ∀ leaf ∈ calls, leaf.Exact m) :
    Leaf.Exact m ⟨queryTail, tailForm, afterQuery⟩ := by
  have h : Leaf.Exact m ⟨queryTail, sortedTailForm, afterQuery⟩ :=
    .of_realizes hcalls queryChecks.sortedTail fun _ _ => Rule.Accepts.queryTail_iff
  exact ⟨fun hbelow run => yields_sortedTailForm.mp (h.sound hbelow run),
    fun hbelow hvs hyields => h.complete hbelow hvs (yields_sortedTailForm.mpr hyields)⟩

/-! ### All calls -/

theorem Grammar.leaves_exact (hcalls : ∀ leaf ∈ calls, leaf.Exact m) :
    ∀ leaf ∈ leaves, leaf.Exact m :=
  List.forall_mem_cons.mpr ⟨queryTail_exact hcalls,
    List.forall_mem_cons.mpr ⟨sum_exact hcalls, bracketed_exact hcalls⟩⟩

/-- A call takes fewer lexemes than there may be, as it stands behind one. -/
theorem Leaf.Exact.call {n : Nonterminal} {f : Form} {follow : List Terminal}
    (h : ∀ k < m, Leaf.Exact k ⟨Grammar.production n, f, follow⟩) :
    Leaf.Exact m ⟨.call n, f, follow⟩ := by
  have hbelow : ∀ us : List Lexeme, (Grammar.production n).Below us.length none us :=
    fun us => .of_le (Nat.le_refl _) (by rw [Grammar.callsFirst_production]; rfl)
  exact ⟨fun hb run => (h _ (hb.2 rfl)).sound (hbelow _) (Run.call_iff.mp run),
    fun hb hvs hyields =>
      Rule.Accepts.call_iff.mpr ((h _ (hb.2 rfl)).complete (hbelow _) hvs hyields)⟩

theorem Grammar.unary_sound (hcalls : ∀ leaf ∈ calls, leaf.Exact m) :
    Leaf.Sound m ⟨unary, .of .unary, []⟩ :=
  Leaf.Sound.of_reads (leaves_exact hcalls) queryChecks.unary fun _ _ h => h

/-- What the rule for signed operands takes is derived. -/
theorem Grammar.unary_exact (hcalls : ∀ leaf ∈ calls, leaf.Exact m) :
    Leaf.Exact m ⟨unary, (Form.token signs).star * .of .predicate, []⟩ where
  sound := fun hbelow run => Yields.of_iff.mp (unary_sound hcalls hbelow run)
  complete := by
    intro known us vs _ hvs _
    obtain ⟨_, hmem, -⟩ := hvs 1
    exact absurd hmem List.not_mem_nil

/-- **All rules that are called by name take just what their forms yield.** -/
theorem Grammar.calls_exact (m : Nat) : ∀ leaf ∈ calls, leaf.Exact m := by
  induction m using Nat.strong_induction_on with
  | h m ih =>
      have hcall : ∀ {n : Nonterminal} {p : Phrase} {follow : List Terminal},
          (production n).realizes leaves (.of p) follow = true →
          Leaf.Exact m ⟨.call n, .of p, follow⟩ :=
        fun h => .call fun k hk => .of_realizes (leaves_exact (ih k hk)) h fun _ _ => Iff.rfl
      simp only [calls, List.forall_mem_cons]
      exact ⟨hcall queryChecks.singleQuery, .call fun k hk => queryTail_exact (ih k hk),
        hcall queryChecks.patternElement, hcall queryChecks.expression,
        hcall queryChecks.comparison, .call fun k hk => sum_exact (ih k hk),
        .call fun k hk => unary_exact (ih k hk), List.forall_mem_nil _⟩

/-! ### The parser -/

/-- The rule for a whole text takes what is derived, up to the end. -/
theorem Grammar.accepts_cypher_iff {p : Position} :
    cypher.Accepts us [Lexeme.ending p] ↔ Yields (.of .cypher) (us.map Lexeme.token) := by
  have hexact : Leaf.Exact us.length ⟨cypher, .of .cypher, [.ending]⟩ :=
    .of_realizes (leaves_exact (calls_exact _)) queryChecks.cypher fun _ _ => Iff.rfl
  have hbelow : cypher.Below us.length none us := .of_le (Nat.le_refl _) (by decide)
  constructor
  · rintro ⟨_, run⟩
    exact hexact.sound hbelow run
  · exact hexact.complete hbelow (.tokens ⟨_, List.mem_singleton_self _, rfl⟩)

/-- A text with lexemes is parsed if and only if the rule for a whole text takes them. -/
theorem parse_iff_accepts {source : String} {p : Position}
    (h : tokenize source = .ok (us ++ [Lexeme.ending p])) :
    (∃ t, parse source = .ok t) ↔ Grammar.cypher.Accepts us [Lexeme.ending p] := by
  constructor
  · rintro ⟨t, ht⟩
    obtain ⟨c, hc, rfl⟩ := cover_of_parse ht
    obtain ⟨q, htokens, run⟩ := hc.run
    rw [h, Except.ok.injEq] at htokens
    obtain ⟨rfl, hend⟩ := List.append_inj' htokens rfl
    rw [(List.cons.inj hend).1]
    exact ⟨_, run⟩
  · rintro ⟨cs, run⟩
    obtain ⟨⟨c, rfl, -⟩, -⟩ := run.of_cypher
    exact ⟨c.tree, parse_eq_ok.mpr ⟨_, h, Session.request_eq_ok.mpr ⟨_, _, _, run.parse_cypher⟩⟩⟩

end

/-- **A text whose tokens can be told apart is parsed if and only if its tokens, without the end
of the text, are derived in the grammar.** -/
theorem parse_iff_derives {source : String} {ls : List Lexeme} (h : tokenize source = .ok ls) :
    (∃ t, parse source = .ok t) ↔
      Yields (.of .cypher) ((ls.map Lexeme.token).filter (· ≠ .eof)) := by
  obtain ⟨us, p, rfl, hw⟩ := tokenize_ok h
  have htokens : ((us ++ [Lexeme.ending p]).map Lexeme.token).filter (· ≠ .eof) =
      us.map Lexeme.token := by
    have hus : (us.map Lexeme.token).filter (· ≠ .eof) = us.map Lexeme.token := by
      refine List.filter_eq_self.mpr fun k hk => ?_
      obtain ⟨u, hu, rfl⟩ := List.mem_map.mp hk
      exact decide_eq_true (hw u hu).token_ne_eof
    rw [List.map_append, List.filter_append, hus]
    exact List.append_nil _
  rw [htokens, parse_iff_accepts h, Grammar.accepts_cypher_iff]

/-- The operand of a test may go on behind an operator, and may not be left out. -/
theorem parse_iff_derives_of_tests :
    Yields (.of .cypher) [.keyword .RETURN, .identifier "a", .keyword .IN, .identifier "b",
        .symbol .plus, .identifier "c"] ∧
      ¬Yields (.of .cypher) [.keyword .RETURN, .identifier "a", .keyword .IN] := by
  have hread : tokenize "RETURN a IN b+c" = .ok
      [⟨.keyword .RETURN, "RETURN", ⟨1, 0⟩⟩, ⟨.identifier "a", "a", ⟨1, 7⟩⟩,
       ⟨.keyword .IN, "IN", ⟨1, 9⟩⟩, ⟨.identifier "b", "b", ⟨1, 12⟩⟩, ⟨.symbol .plus, "+", ⟨1, 13⟩⟩,
       ⟨.identifier "c", "c", ⟨1, 14⟩⟩, .ending ⟨1, 15⟩] := by
    decide +kernel
  have hread' : tokenize "RETURN a IN" = .ok
      [⟨.keyword .RETURN, "RETURN", ⟨1, 0⟩⟩, ⟨.identifier "a", "a", ⟨1, 7⟩⟩,
       ⟨.keyword .IN, "IN", ⟨1, 9⟩⟩, .ending ⟨1, 11⟩] := by
    decide +kernel
  have hfail : (parse "RETURN a IN").toOption = none := by
    decide +kernel
  constructor
  · obtain ⟨t, ht, -⟩ : ∃ t, parse "RETURN a IN b+c" = .ok t ∧ t.kind = .cypher :=
      exists_parse_eq_ok (by decide +kernel)
    exact (parse_iff_derives hread).mp ⟨t, ht⟩
  · intro h
    obtain ⟨t, ht⟩ := (parse_iff_derives hread').mpr h
    rw [ht] at hfail
    exact Option.some_ne_none t hfail

end BindCheck

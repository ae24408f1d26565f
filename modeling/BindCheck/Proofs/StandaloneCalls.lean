import BindCheck.Proofs.Ladder

/-!
# BindCheck.Proofs.StandaloneCalls

**A call is a query of its own or the first clause of one, and never both.** This is the one
place where the parser goes back: it tries a query that is just a call, and takes the tokens
again if more follows. A run does not say which of the two was tried (`Run.attemptOther`), but
behind a call with nothing after it no other clause and no projection can stand
(`Run.not_regularQuery`). So every run over a whole query is what the parser does
(`Run.parse_cypher`), as it is for rules that never go back.
-/

namespace BindCheck

/-! ### Lookaheads for disjoint terminals -/

theorem Lookahead.fails_of_disjoint {t t' : Terminal} {ts : List Terminal} {ls : List Lexeme}
    (h : (next [t']).holds ls = true) (ht : t'.disjoint t = true) :
    (next (t :: ts)).holds ls = false := by
  cases ls with
  | nil => rfl
  | cons u ls =>
      rw [holds, nextIn, Bool.and_eq_true] at h
      exact next_disjoint h.1 ht

theorem Lookahead.holds_of_within {t t' : Terminal} {ls : List Lexeme}
    (h : (next [t]).holds ls = true) (ht : t.within t' = true) : (next [t']).holds ls = true := by
  cases ls with
  | nil => exact Bool.noConfusion h
  | cons u ls =>
      simp only [holds, nextIn, Bool.and_eq_true] at h ⊢
      exact ⟨Terminal.accepts_of_within ht h.1, h.2⟩

namespace Run

variable {us us' vs vs' : List Lexeme} {cs cs' : List Cover}

/-- A rule that never goes back takes the same lexemes whenever it succeeds. -/
theorem taken_unique {r : Rule} (hfree : r.attemptFree = true) (hr : r.progresses = true)
    (h : Run r us vs cs) (h' : Run r us' vs' cs') (heq : us ++ vs = us' ++ vs') :
    us = us' ∧ vs = vs' := by
  have hparse := h.parse hfree hr
  rw [heq, h'.parse hfree hr, Outcome.done.injEq] at hparse
  exact ⟨hparse.2.1.symm, hparse.2.2.symm⟩

/-! ### What follows a call -/

/-- A clause that starts with `CALL` is a call. -/
theorem callBody_of_readingClause (h : Run Grammar.readingClause us vs cs)
    (hcall : (Lookahead.next [.keyword .CALL]).holds (us ++ vs) = true) :
    ∃ cs', Run Grammar.callBody us vs cs' := by
  obtain ⟨_, -, hclause⟩ := node_iff.mp h
  rcases branch_iff.mp hclause with ⟨hunwind, -⟩ | ⟨-, hother⟩
  · rw [Lookahead.fails_of_disjoint hcall (by decide)] at hunwind
    exact Bool.noConfusion hunwind
  · rcases branch_iff.mp hother with ⟨-, hbody⟩ | ⟨hno, -⟩
    · obtain ⟨cs', -, hbody⟩ := node_iff.mp hbody
      exact ⟨cs', hbody⟩
    · rw [hcall] at hno
      exact Bool.noConfusion hno

/-- At the end of a query there are no more reading clauses. -/
theorem eq_nil_of_queryEnd
    (h : Run (.many (.next [Grammar.readingWord]) Grammar.readingClause) us vs cs)
    (hend : (Lookahead.next [.queryEnd]).holds (us ++ vs) = true) : us = [] := by
  rcases many_iff.mp h with ⟨rfl, -⟩ | ⟨_, _, _, _, -, -, holds, -⟩
  · rfl
  · rw [Lookahead.fails_of_disjoint hend (by decide)] at holds
    exact Bool.noConfusion holds

/-- The clauses of a part do not end with a call that ends the query: nothing is updated, and
no projection closes the part. -/
theorem not_partClauses (h : Run Grammar.callBody us vs cs)
    (hend : (Lookahead.next [.queryEnd]).holds vs = true) (heq : us ++ vs = us' ++ vs') :
    ¬Run Grammar.partClauses us' vs' cs' := by
  intro hclauses
  obtain ⟨_, us₂, _, _, rfl, -, hreading, hrest⟩ := seq_iff.mp hclauses
  have hcall : (Lookahead.next [.keyword .CALL]).holds (us ++ vs) = true :=
    h.next_holds (by decide) (by decide)
  rw [List.append_assoc] at heq
  rcases many_iff.mp hreading with ⟨rfl, -, hno⟩ | ⟨u, v, _, _, rfl, -, -, hfirst, hmore⟩
  · rw [heq] at hcall
    exact Bool.noConfusion (hno.symm.trans (Lookahead.holds_of_within hcall (by decide)))
  · rw [List.append_assoc] at heq
    obtain ⟨_, hbody⟩ := hfirst.callBody_of_readingClause (by rwa [← heq])
    obtain ⟨-, rfl⟩ := h.taken_unique (by decide) (by decide) hbody heq
    obtain rfl := hmore.eq_nil_of_queryEnd hend
    rw [List.nil_append] at hend
    rcases branch_iff.mp hrest with ⟨holds, -⟩ | ⟨-, hdemand⟩
    · rw [Lookahead.fails_of_disjoint hend (by decide)] at holds
      exact Bool.noConfusion holds
    · obtain ⟨rfl, holds, -⟩ := demand_iff.mp hdemand
      exact Bool.noConfusion (holds.symm.trans (Lookahead.fails_of_disjoint hend (by decide)))

/-- **Behind a call that may be a query of its own no other query goes on.** -/
theorem not_regularQuery (h : Run Grammar.callBody us vs cs)
    (hend : (Lookahead.next [.queryEnd]).holds vs = true) (heq : us ++ vs = us' ++ vs') :
    ¬Run Grammar.regularQuery us' vs' cs' := by
  intro hregular
  obtain ⟨_, -, hparts⟩ := node_iff.mp hregular
  obtain ⟨_, _, _, _, rfl, -, hsingle, -⟩ := seq_iff.mp hparts
  obtain ⟨_, -, hwrap⟩ := node_iff.mp hsingle
  obtain ⟨_, -, htail⟩ := wrap_iff.mp hwrap
  obtain ⟨_, _, _, _, rfl, hclauses, -⟩ := fork_iff.mp htail
  exact h.not_partClauses hend (by rw [heq, List.append_assoc, List.append_assoc]) hclauses

/-! ### Runs over whole queries -/

theorem parse_node {r : Rule} {ls : List Lexeme} (k : NodeKind)
    (h : r.parse ls = .done (cs.map Cover.tree) us vs) :
    (Rule.node k r).parse ls = .done [(Cover.mk k us cs).tree] us vs := by
  show (r.parse ls).shaped (.node k) = _
  rw [h, Outcome.shaped, ← Shape.map_tree_cover]
  rfl

theorem parse_attempt_first {r s : Rule} {l : Lookahead} {ls taken rest : List Lexeme}
    {ns : List Tree} (h : r.parse ls = .done ns taken rest) (hl : l.holds rest = true) :
    (Rule.attempt r l s).parse ls = .done ns taken rest := by
  rw [Rule.parse] at h ⊢
  rw [Rule.parseWith, h]
  exact if_pos hl

/-- The other rule is used where the first one fails, or the lookahead behind it does. -/
theorem parse_attempt_other {r s : Rule} {l : Lookahead} {ls : List Lexeme}
    (h : ∀ ns taken rest, r.parse ls = .done ns taken rest → l.holds rest = false) :
    (Rule.attempt r l s).parse ls = s.parse ls := by
  rw [Rule.parse] at h ⊢
  rw [Rule.parseWith]
  rcases hr : r.parseWith (Nonterminal.parseTo (ls.length + 1)) (ls.length + 1) ls with
    ⟨ns, taken, rest⟩ | ⟨e, rest⟩
  · exact if_neg (Bool.eq_false_iff.mp (h ns taken rest hr))
  · rfl

theorem parse_query (h : Run Grammar.query us vs cs) :
    Grammar.query.parse (us ++ vs) = .done (cs.map Cover.tree) us vs := by
  obtain ⟨cs, rfl, hattempt⟩ := node_iff.mp h
  refine parse_node .query ?_
  cases hattempt with
  | attemptFirst hcall hend =>
      exact parse_attempt_first (hcall.parse (by decide) (by decide)) hend
  | attemptOther hregular =>
      rw [parse_attempt_other, hregular.parse (by decide) (by decide)]
      intro ns taken rest hdone
      obtain ⟨hsplit, _, -, hcall⟩ := of_parse (by decide) hdone
      obtain ⟨_, -, hcall⟩ := node_iff.mp hcall
      exact Bool.eq_false_iff.mpr fun hend => hcall.not_regularQuery hend hsplit.symm hregular

/-- **Every run over a whole query is a success of the parser.** -/
theorem parse_cypher (h : Run Grammar.cypher us vs cs) :
    Grammar.cypher.parse (us ++ vs) = .done (cs.map Cover.tree) us vs := by
  obtain ⟨cs, rfl, hbody⟩ := node_iff.mp h
  refine parse_node .cypher ?_
  obtain ⟨us₁, us₂, _, cs₂, rfl, rfl, hstatement, htail⟩ := seq_iff.mp hbody
  obtain ⟨cs₁, rfl, hquery⟩ := node_iff.mp hstatement
  have hfirst := parse_node .statement hquery.parse_query
  have hrest := htail.parse (by decide) (by decide)
  rw [List.append_assoc]
  -- what closes a query repeats nothing and calls nothing, so no bound matters to it
  exact Outcome.andThen_done hfirst hrest

end Run

end BindCheck

import BindCheck.Proofs.ExpressionSyntax

/-!
# BindCheck.Proofs.OperatorChains

**Sums are taken as the grammar derives them, although the grammar is ambiguous.** In
`a IN b + c` the operand of the test may end before the `+` or go on behind it. The parser
takes all of `b + c`, and never goes back.

So derivations are not followed one by one. Whatever the levels say, the tokens of a sum are
operands with connectors between them (`Grammar.chain`): the forms of the five levels may be
replaced by that (`Grammar.chained_closed`). And the parser takes any chain
(`Rule.Accepts.sum_of_chain`), by induction on its length:

* behind an operand and a word, the rest is a chain, and is taken as the operand of the test;
* behind an operand and an operator, the rest is a chain, and so a sum; the operand and the
  operator go in front of the first part of the sum on the level of the operator
  (`Rule.Prepends`).
-/

namespace BindCheck

open RegularExpression

/-! ### The form of a chain -/

namespace Grammar

/-- The test for `NULL`, which has no operand. -/
def nullTest : Form := .word .IS * .optional (.word .NOT) * .word .NULL

/-- An operand with its signs, and tests for `NULL` behind it. -/
def signedOperand : Form := (Form.token signs).star * .of .accessed * nullTest.star

/-- The words between two operands. -/
def connectingWords : Form :=
  .token (.keywords [.STARTS, .ENDS]) * .word .WITH + .token (.keywords [.CONTAINS, .IN])

/-- The operators between two operands, from the loosest to the tightest. -/
def connectingOperator : Form :=
  .token (.symbols [.plus, .minus]) + .token (.symbols [.star, .slash, .percent]) +
    .token (.symbol .caret)

/-- Operands with a connector between each two. -/
def chain : Form := .separated signedOperand (connectingWords + connectingOperator)

/-- All levels from the sum down to the tests are chains. -/
def chained : Phrase → Form
  | .sum | .product | .power | .unary | .predicate => chain
  | p => .of p

/-- The test for `NULL`. -/
def nullTail : Rule := .row [.word .IS, .optional (.keyword .NOT), .word .NULL]

/-- The tests behind an operand. -/
def tests : Rule := .many (.next [predicateWord]) predicateTail

/-- The terminals that a sum goes on with, behind one of its operands. -/
def goesOn : List Terminal :=
  [predicateWord, .symbol .caret, .symbols [.star, .slash, .percent], .symbols [.plus, .minus]]

/-- What is computed from the rules for sums. -/
structure ChainChecks : Prop where
  sum : includes 0 (Phrase.sum.form.replace chained) chain = true
  product : includes 0 (Phrase.product.form.replace chained) chain = true
  power : includes 0 (Phrase.power.form.replace chained) chain = true
  unary : includes 0 (Phrase.unary.form.replace chained) chain = true
  predicate : includes 0 (Phrase.predicate.form.replace chained) chain = true
  /-- A chain begins with an operand. -/
  operand : includes 0 chain
    (signedOperand * (1 + connectingWords * chain + connectingOperator * chain)) = true
  nullTail : nullTail.realizes [] nullTest [.anything] = true
  closed : ∀ t ∈ goesOn, (Lookahead.next [t]).surelyNot (.tokens afterSum) = true
  reads : Grammar.sum.reads (⟨accessed, .of .accessed, afterOperand⟩ :: calls) (.of .sum) = true

set_option maxRecDepth 4000 in
theorem chainChecks : ChainChecks := by
  constructor <;> decide +kernel

theorem chained_closed (p : Phrase) : chained p = .of p ∨
    includes 0 (p.form.replace chained) (chained p) = true := by
  cases p
  case sum => exact .inr chainChecks.sum
  case product => exact .inr chainChecks.product
  case power => exact .inr chainChecks.power
  case unary => exact .inr chainChecks.unary
  case predicate => exact .inr chainChecks.predicate
  all_goals exact .inl rfl

end Grammar

/-! ### Tests behind an operand -/

section

variable {m : Nat} {us ws vs : List Lexeme} {follow : List Terminal}

/-- Behind a sum none of its operators follows. -/
theorem Grammar.not_goesOn (hvs : (Ahead.tokens afterSum).Holds vs) {t : Terminal}
    (ht : t ∈ goesOn) : (Lookahead.next [t]).holds vs = false :=
  Lookahead.fails_of_surelyNot (chainChecks.closed t ht) hvs

/-- What a lookahead for one token says about what stands ahead. -/
theorem Ahead.Holds.of_next {t : Terminal} {ls : List Lexeme}
    (h : (Lookahead.next [t]).holds ls = true) (ht : t ∈ follow) :
    (Ahead.tokens follow).Holds ls := by
  cases ls with
  | nil => exact Bool.noConfusion h
  | cons u ls => exact .tokens ⟨t, ht, (Bool.and_eq_true_iff.mp h).1⟩

/-- What may stand ahead, with more that may. -/
theorem Ahead.Holds.tokens_mono {ts ts' : List Terminal} {ls : List Lexeme}
    (h : (Ahead.tokens ts).Holds ls) (hsub : ts ⊆ ts') : (Ahead.tokens ts').Holds ls := by
  intro k
  obtain ⟨row, hrow, hnext⟩ := h k
  cases k with
  | zero => exact ⟨row, hrow, hnext⟩
  | succ k => exact ⟨row, List.map_subset _ hsub hrow, hnext⟩

/-- A repetition needs no check whether there is a round. -/
theorem Rule.Accepts.branch_many {l : Lookahead} {b : Rule} (h : (many l b).Accepts us vs) :
    (branch l (many l b) empty).Accepts us vs := by
  obtain ⟨cs, run⟩ := h
  rcases Run.many_iff.mp run with ⟨rfl, rfl, fails⟩ | ⟨_, _, _, _, -, -, holds, -⟩
  · exact ⟨_, .no fails .empty⟩
  · exact ⟨_, .yes holds run⟩

theorem Rule.Accepts.holds_tests (h : Grammar.tests.Accepts ws vs)
    (hvs : (Ahead.tokens Grammar.afterOperand).Holds vs) :
    (Ahead.tokens Grammar.afterOperand).Holds (ws ++ vs) := by
  obtain ⟨_, run⟩ := h
  rcases Run.many_iff.mp run with ⟨rfl, -⟩ | ⟨_, _, _, _, -, -, holds, -⟩
  · exact hvs
  · exact .of_next holds (by decide)

theorem Rule.Accepts.predicateTail_of_nullTest (hvs : (Ahead.tokens [.anything]).Holds vs)
    (h : Yields Grammar.nullTest (us.map Lexeme.token)) : Grammar.predicateTail.Accepts us vs := by
  obtain ⟨cs, run⟩ := accepts_of_realizes (List.forall_mem_nil _) Grammar.chainChecks.nullTail
    (Nat.le_refl _) hvs h
  exact ⟨cs, .no (run.next_fails_of_takes (by decide) (by decide))
    (.no (run.next_fails_of_takes (by decide) (by decide)) run)⟩

theorem Rule.Accepts.tests_of_nullTests (hvs : (Ahead.tokens [.anything]).Holds vs)
    (h : Yields Grammar.nullTest.star (us.map Lexeme.token)) (hws : Grammar.tests.Accepts ws vs) :
    Grammar.tests.Accepts (us ++ ws) vs := by
  refine Yields.star_rounds (P := fun us => Grammar.tests.Accepts (us ++ ws) vs) hws ?_ h
  rintro us us' hround - ⟨_, more⟩
  obtain ⟨_, run⟩ := predicateTail_of_nullTest (hvs.anything (us' ++ ws)) hround
  have holds : (Lookahead.next [Grammar.predicateWord]).holds (us ++ (us' ++ ws ++ vs)) = true :=
    Lookahead.holds_of_surely (by decide) (run.holds_firsts (by decide))
  rw [List.append_assoc]
  exact ⟨_, .step holds run more⟩

/-- A test whose operand goes on to the end of the sum. -/
theorem Rule.Accepts.tests_of_words (hsum : Grammar.sum.Accepts ws vs)
    (h : Yields Grammar.connectingWords (us.map Lexeme.token))
    (hvs : (Ahead.tokens Grammar.afterSum).Holds vs) : Grammar.tests.Accepts (us ++ ws) vs := by
  have htail : Grammar.predicateTail.Accepts (us ++ ws) vs := by
    obtain ⟨cs, run⟩ := hsum
    rcases Yields.add_iff.mp h with h | h
    · obtain ⟨_, _, rfl, hword, hwith⟩ := h.split
      obtain ⟨u, rfl, hu⟩ := hword.exists_token
      obtain ⟨w, rfl, hw⟩ := hwith.exists_token
      have hrow : Run (row [take (.keywords [.STARTS, .ENDS]), word .WITH, call .sum])
          ([u] ++ ([w] ++ ws)) vs ([] ++ ([] ++ cs)) := .seq (.token hu) (.seq (.token hw) (.call run))
      rw [List.append_assoc]
      exact ⟨_, .yes (Lookahead.holds_of_surely (by decide) (hrow.holds_firsts (by decide))) hrow⟩
    · obtain ⟨u, rfl, hu⟩ := h.exists_token
      have hrow : Run (row [take (.keywords [.CONTAINS, .IN]), call .sum]) ([u] ++ ws) vs
          ([] ++ cs) := .seq (.token hu) (.call run)
      exact ⟨_, .no (hrow.next_fails_of_takes (by decide) (by decide))
        (.yes (Lookahead.holds_of_surely (by decide) (hrow.holds_firsts (by decide))) hrow)⟩
  obtain ⟨_, run⟩ := htail
  have holds : (Lookahead.next [Grammar.predicateWord]).holds (us ++ ws ++ ([] ++ vs)) = true :=
    Lookahead.holds_of_surely (by decide) (run.holds_firsts (by decide))
  rw [← List.append_nil (us ++ ws)]
  exact ⟨_, .step holds run (.done (Grammar.not_goesOn hvs (by decide)))⟩

/-- An operand with its signs, and all tests behind it. -/
theorem Rule.Accepts.unary_of_signed (hcalls : ∀ leaf ∈ Grammar.calls, leaf.Exact m)
    (hlen : us.length ≤ m) (h : Yields Grammar.signedOperand (us.map Lexeme.token))
    (hws : Grammar.tests.Accepts ws vs) (hvs : (Ahead.tokens Grammar.afterOperand).Holds vs) :
    Grammar.unary.Accepts (us ++ ws) vs := by
  obtain ⟨_, nulls, rfl, h, hnulls⟩ := h.split
  obtain ⟨signs, operand, rfl, hsigns, hoperand⟩ := h.split
  simp only [List.length_append] at hlen
  have htests : Grammar.tests.Accepts (nulls ++ ws) vs :=
    tests_of_nullTests (hvs.anything []) hnulls hws
  have haccessed : Grammar.accessed.Accepts operand (nulls ++ ws ++ vs) :=
    (Grammar.accessed_exact hcalls).complete
      (.of_le (by omega) (by decide)) (htests.holds_tests hvs) hoperand
  have hpredicate : Grammar.predicate.Accepts (operand ++ (nulls ++ ws)) vs :=
    fork_iff.mpr (haccessed.seq htests.branch_many)
  have hunsigned : Grammar.unary.Accepts (operand ++ (nulls ++ ws)) vs := by
    obtain ⟨_, run⟩ := hpredicate
    exact ⟨_, .no (run.next_fails_of_takes (by decide) (by decide)) run⟩
  rw [List.append_assoc, List.append_assoc]
  refine Yields.star_rounds (P := fun us => Grammar.unary.Accepts (us ++ (operand ++ (nulls ++ ws))) vs)
    hunsigned ?_ hsigns
  rintro _ us hsign - ⟨cs, run⟩
  obtain ⟨u, rfl, hu⟩ := hsign.exists_token
  have hrow : Run (row [take Grammar.signs, call .unary])
      ([u] ++ (us ++ (operand ++ (nulls ++ ws)))) vs ([] ++ cs) := .seq (.token hu) (.call run)
  rw [List.append_assoc]
  exact ⟨_, .yes (Lookahead.holds_of_surely (by decide) (hrow.holds_firsts (by decide)))
    (.wrap hrow)⟩

/-! ### Levels of operators -/

namespace Rule

variable {k : NodeKind} {t : Terminal} {item : Rule}

/-- A single operand, with none of the operators of the level behind it. -/
theorem Accepts.level (h : item.Accepts us vs) (hvs : (Lookahead.next [t]).holds vs = false) :
    (Rule.level k t item).Accepts us vs := by
  obtain ⟨_, run⟩ := h
  have hlist : Run (.sepBy item t) (us ++ []) vs _ := .sepBy run (.done hvs)
  rw [List.append_nil] at hlist
  exact ⟨_, .wrap hlist⟩

/-- That whatever a rule takes of some lexemes, it takes with others in front. -/
def Prepends (r : Rule) (ws ls : List Lexeme) : Prop :=
  ∀ us vs, us ++ vs = ls → r.Accepts us vs → r.Accepts (ws ++ us) vs

/-- An operand and an operator go in front of a row of operands of their level. -/
theorem Prepends.of_operand {u : Lexeme} {ls : List Lexeme} (h : item.Accepts us (u :: ls))
    (hu : t.accepts u.token = true) : (Rule.level k t item).Prepends (us ++ [u]) ls := by
  rintro us' vs rfl hlevel
  obtain ⟨_, operand⟩ := h
  obtain ⟨_, hlist⟩ := Accepts.wrap_iff.mp hlevel
  obtain ⟨us₁, us₂, _, _, rfl, -, first, more⟩ := Run.sepBy_iff.mp hlist
  rw [List.append_assoc] at operand
  have holds : (Lookahead.next [t]).holds ([u] ++ us₁ ++ (us₂ ++ vs)) = true := by
    rw [List.append_assoc, List.singleton_append, Lookahead.holds, Lookahead.nextIn, hu]
    cases us₁ ++ (us₂ ++ vs) <;> rfl
  have hall : Run (.sepBy item t) (us ++ ([u] ++ us₁ ++ us₂)) vs _ :=
    .sepBy (by simpa using operand) (.step holds (.seq (.token hu) first) more)
  rw [show us ++ [u] ++ (us₁ ++ us₂) = us ++ ([u] ++ us₁ ++ us₂) by simp]
  exact ⟨_, .wrap hall⟩

/-- What goes in front of the first operand goes in front of the row. -/
theorem Prepends.level {ls : List Lexeme} (h : item.Prepends ws ls) :
    (Rule.level k t item).Prepends ws ls := by
  rintro us vs rfl hlevel
  obtain ⟨_, hlist⟩ := Accepts.wrap_iff.mp hlevel
  obtain ⟨us₁, us₂, _, _, rfl, -, first, more⟩ := Run.sepBy_iff.mp hlist
  obtain ⟨_, first⟩ := h us₁ (us₂ ++ vs) (List.append_assoc ..).symm ⟨_, first⟩
  rw [← List.append_assoc]
  exact ⟨_, .wrap (.sepBy first more)⟩

end Rule

/-- An operand and an operator behind it go in front of a sum. -/
theorem Rule.Prepends.sum {op ls : List Lexeme} (h : Grammar.unary.Accepts us (op ++ ls))
    (hop : Yields Grammar.connectingOperator (op.map Lexeme.token)) :
    Grammar.sum.Prepends (us ++ op) ls := by
  rcases Yields.add_iff.mp hop with hop | hop
  · rcases Yields.add_iff.mp hop with hop | hop
    · obtain ⟨u, rfl, hu⟩ := hop.exists_token
      have hpower : Grammar.power.Accepts us (u :: ls) :=
        h.level (Lookahead.next_disjoint hu (by decide))
      have hproduct : Grammar.product.Accepts us (u :: ls) :=
        hpower.level (Lookahead.next_disjoint hu (by decide))
      exact .of_operand hproduct hu
    · obtain ⟨u, rfl, hu⟩ := hop.exists_token
      have hpower : Grammar.power.Accepts us (u :: ls) :=
        h.level (Lookahead.next_disjoint hu (by decide))
      have hproduct : Grammar.product.Prepends (us ++ [u]) ls := .of_operand hpower hu
      exact hproduct.level
  · obtain ⟨u, rfl, hu⟩ := hop.exists_token
    have hpower : Grammar.power.Prepends (us ++ [u]) ls := .of_operand h hu
    have hproduct : Grammar.product.Prepends (us ++ [u]) ls := hpower.level
    exact hproduct.level

/-- An operator stands ahead where one is derived. -/
theorem Yields.holds_operators {op : List Lexeme}
    (h : Yields Grammar.connectingOperator (op.map Lexeme.token)) (ls : List Lexeme) :
    (Ahead.tokens [Grammar.operators]).Holds (op ++ ls) := by
  have htoken : ∀ {t : Terminal}, t.within Grammar.operators = true →
      Yields (.token t) (op.map Lexeme.token) → (Ahead.tokens [Grammar.operators]).Holds (op ++ ls) := by
    intro t ht h
    obtain ⟨u, rfl, hu⟩ := h.exists_token
    exact .tokens ⟨_, List.mem_singleton_self _, Terminal.accepts_of_within ht hu⟩
  rcases add_iff.mp h with h | h
  · rcases add_iff.mp h with h | h
    · exact htoken (by decide) h
    · exact htoken (by decide) h
  · exact htoken (by decide) h

/-! ### Chains are sums -/

/-- **Every chain is taken as a sum.** -/
theorem Rule.Accepts.sum_of_chain (hcalls : ∀ leaf ∈ Grammar.calls, leaf.Exact m)
    (hvs : (Ahead.tokens Grammar.afterSum).Holds vs) (hlen : us.length ≤ m)
    (h : Yields Grammar.chain (us.map Lexeme.token)) : Grammar.sum.Accepts us vs := by
  induction hn : us.length using Nat.strong_induction_on generalizing us with
  | h n ih =>
      subst hn
      obtain ⟨operand, rest, rfl, hoperand, hrest⟩ := (h.mono Grammar.chainChecks.operand).split
      simp only [List.length_append] at hlen ih
      have hpos := List.length_pos_iff.mpr (hoperand.ne_nil (by decide))
      -- behind the operand of a test, and behind a sum, no operator follows
      have hlift : Grammar.unary.Accepts (operand ++ rest) vs →
          Grammar.sum.Accepts (operand ++ rest) vs := by
        intro h
        have hpower : Grammar.power.Accepts (operand ++ rest) vs :=
          h.level (Grammar.not_goesOn hvs (by decide))
        have hproduct : Grammar.product.Accepts (operand ++ rest) vs :=
          hpower.level (Grammar.not_goesOn hvs (by decide))
        exact hproduct.level (Grammar.not_goesOn hvs (by decide))
      rcases Yields.add_iff.mp hrest with hrest | hrest
      · have hbehind : (Ahead.tokens Grammar.afterOperand).Holds vs :=
          hvs.tokens_mono fun t ht => List.mem_cons_of_mem _ (List.mem_cons_of_mem _ ht)
        refine hlift (unary_of_signed hcalls (by omega) hoperand ?_ hbehind)
        rcases Yields.add_iff.mp hrest with hrest | hrest
        · obtain rfl := hrest.eq_nil
          exact ⟨_, .done (Grammar.not_goesOn hvs (by decide))⟩
        · obtain ⟨words, rest, rfl, hwords, hchain⟩ := hrest.split
          simp only [List.length_append] at hlen ih
          exact tests_of_words (ih _ (by omega) (by omega) hchain rfl) hwords hvs
      · obtain ⟨op, rest, rfl, hop, hchain⟩ := hrest.split
        simp only [List.length_append] at hlen ih
        have hopens := hop.holds_operators (rest ++ vs)
        have hunary : Grammar.unary.Accepts (operand ++ []) (op ++ (rest ++ vs)) :=
          unary_of_signed hcalls (by omega) hoperand
            ⟨_, .done (Lookahead.fails_of_surelyNot (by decide) hopens)⟩
            (hopens.tokens_mono (by simp [Grammar.afterOperand]))
        rw [List.append_nil] at hunary
        rw [← List.append_assoc]
        exact Prepends.sum hunary hop rest vs rfl (ih _ (by omega) (by omega) hchain rfl)

/-- Sums are taken as they are derived. -/
theorem Grammar.sum_exact (hcalls : ∀ leaf ∈ calls, leaf.Exact m) :
    Leaf.Exact m ⟨sum, .of .sum, afterSum⟩ where
  sound := Leaf.Sound.of_reads (List.forall_mem_cons.mpr ⟨accessed_exact hcalls, hcalls⟩)
    chainChecks.reads fun _ _ h => h
  complete := fun hbelow hvs h =>
    Rule.Accepts.sum_of_chain hcalls hvs hbelow.1 (h.replace chained_closed)

end

end BindCheck

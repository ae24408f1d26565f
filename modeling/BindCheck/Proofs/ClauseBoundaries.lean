import BindCheck.Proofs.StandaloneCalls

/-!
# BindCheck.Proofs.ClauseBoundaries

**A clause is found in the same way in front of any other clause.** The word that a clause begins
with ends the clause before it, and which word it is does not matter (`Run.refollow`):

* a lookahead that reaches behind the clause asks there for none of these words
  (`Lookahead.settled`);
* only the one for calls of functions goes on over any number of lexemes. It goes over
  names behind dots, and these may be reserved words; but no clause ends with a dot.

That the clauses are of this kind is a question about their text (`Rule.settled`). It is asked as
`Rule.standsAlone` is, of which it differs in what stands behind a run before and after.
-/

namespace BindCheck

/-- The words that start a clause, a projection among them. -/
def Grammar.clauseWord : Terminal :=
  .keywords [.MATCH, .OPTIONAL, .UNWIND, .CALL, .CREATE, .MERGE, .SET, .DELETE, .DETACH, .REMOVE,
    .WITH, .RETURN]

/-- That the next lexeme starts a clause. -/
def ClauseNext (ls : List Lexeme) : Prop := (Lookahead.next [Grammar.clauseWord]).holds ls = true

theorem ClauseNext.exists_cons {ls : List Lexeme} (h : ClauseNext ls) :
    ∃ u ls', ls = u :: ls' ∧ Grammar.clauseWord.accepts u.token = true := by
  cases ls with
  | nil => exact Bool.noConfusion h
  | cons u ls => exact ⟨u, ls, rfl, (Bool.and_eq_true_iff.mp h).1⟩

/-! ### Lookaheads in front of a clause -/

namespace Lookahead

/-- Whether a lookahead before at least `k` lexemes of a clause does not tell which clause is
next behind them. -/
def settled (k : Nat) : Lookahead → Bool
  | next ts => (ts.drop k).all Grammar.clauseWord.disjoint
  | notNext t => 0 < k || Grammar.clauseWord.disjoint t
  | dottedCall => true

theorem nextIn_clause {ts : List Terminal} {k : Nat} {ws zs zs' : List Lexeme}
    (hts : (ts.drop k).all Grammar.clauseWord.disjoint = true) (hk : k ≤ ws.length)
    (hzs : ClauseNext zs) (hzs' : ClauseNext zs') :
    nextIn ts (ws ++ zs) = nextIn ts (ws ++ zs') := by
  induction ts generalizing k ws with
  | nil => simp only [nextIn]
  | cons t ts ih =>
      cases ws with
      | nil =>
          obtain rfl := Nat.le_zero.mp hk
          obtain ⟨ht, -⟩ := Bool.and_eq_true_iff.mp hts
          exact (fails_of_disjoint hzs ht).trans (fails_of_disjoint hzs' ht).symm
      | cons w ws =>
          rw [List.cons_append, List.cons_append, nextIn, nextIn]
          cases k with
          | zero => rw [ih (k := 0) (Bool.and_eq_true_iff.mp hts).2 (Nat.zero_le _)]
          | succ k => rw [ih hts (Nat.le_of_succ_le_succ hk)]

/-- That some lexemes do not end with a dot. -/
def NoDotLast (ws : List Lexeme) : Prop :=
  ∀ w ∈ ws.getLast?, (Terminal.symbol .dot).accepts w.token = false

theorem NoDotLast.right (us : List Lexeme) {ws : List Lexeme} (h : NoDotLast (us ++ ws)) :
    NoDotLast ws := by
  intro w hw
  cases ws with
  | nil => cases hw
  | cons v ws =>
      exact h w (by rwa [List.getLast?_append_of_ne_nil _ (List.cons_ne_nil v ws)])

theorem callFollows_clauseNext {zs : List Lexeme} (h : ClauseNext zs) :
    callFollows zs = false := by
  obtain ⟨z, zs, rfl, hz⟩ := h.exists_cons
  have hparen : (Terminal.symbol .leftParen).accepts z.token = false :=
    Terminal.accepts_eq_false_of_disjoint (by decide) hz
  have hdot : (Terminal.symbol .dot).accepts z.token = false :=
    Terminal.accepts_eq_false_of_disjoint (by decide) hz
  cases zs with
  | nil => exact hparen
  | cons y zs =>
      rw [callFollows, hdot, Bool.false_and, if_neg Bool.false_ne_true]
      exact hparen

theorem callFollows_clause {ws zs zs' : List Lexeme} (hws : NoDotLast ws) (hzs : ClauseNext zs)
    (hzs' : ClauseNext zs') : callFollows (ws ++ zs) = callFollows (ws ++ zs') := by
  induction ws using callFollows.induct with
  | case1 => exact (callFollows_clauseNext hzs).trans (callFollows_clauseNext hzs').symm
  | case2 l =>
      have hdot := hws l rfl
      have hone : ∀ {zs}, ClauseNext zs →
          callFollows (l :: zs) = (Terminal.symbol .leftParen).accepts l.token := by
        intro zs h
        obtain ⟨z, zs, rfl, -⟩ := h.exists_cons
        rw [callFollows, hdot, Bool.false_and, if_neg Bool.false_ne_true]
      exact (hone hzs).trans (hone hzs').symm
  | case3 l m ls hgo ih =>
      simp only [List.cons_append, callFollows, hgo, if_true]
      exact ih (NoDotLast.right [l, m] hws)
  | case4 l m ls hstop =>
      simp only [List.cons_append, callFollows, hstop, if_false, Bool.false_eq_true]

/-- **A lookahead does not tell clauses from each other.** -/
theorem holds_clause {l : Lookahead} {k : Nat} {ws zs zs' : List Lexeme}
    (hl : l.settled k = true) (hk : k ≤ ws.length) (hws : NoDotLast ws) (hzs : ClauseNext zs)
    (hzs' : ClauseNext zs') {b : Bool} (h : l.holds (ws ++ zs) = b) : l.holds (ws ++ zs') = b := by
  refine Eq.trans ?_ h
  cases l with
  | next ts => exact nextIn_clause hl hk hzs' hzs
  | notNext t =>
      cases ws with
      | cons w ws => rfl
      | nil =>
          obtain rfl := Nat.le_zero.mp hk
          have hnot : ∀ {zs}, ClauseNext zs → (notNext t).holds zs = true := by
            intro zs h
            obtain ⟨z, zs, rfl, hz⟩ := h.exists_cons
            rw [holds, Terminal.accepts_eq_false_of_disjoint (t := Grammar.clauseWord) hl hz]
            rfl
          exact (hnot hzs').trans (hnot hzs).symm
  | dottedCall =>
      cases ws with
      | cons w ws =>
          rw [List.cons_append, List.cons_append, holds, holds,
            callFollows_clause (NoDotLast.right [w] hws) hzs' hzs]
      | nil =>
          have hno : ∀ {zs}, ClauseNext zs → dottedCall.holds zs = false := by
            intro zs h
            obtain ⟨z, zs, rfl, hz⟩ := h.exists_cons
            rw [holds, Terminal.accepts_eq_false_of_disjoint (by decide) hz, Bool.false_and]
          exact (hno hzs').trans (hno hzs).symm

end Lookahead

/-! ### Rules that are settled in front of a clause -/

/-- The rules that are called by name within a clause. -/
def Nonterminal.ofClauses : List Nonterminal :=
  [.patternElement, .expression, .comparison, .sum, .unary]

/-- Whether what a rule finds does not depend on which clause is next; `more` says that lexemes
of the same clause follow. -/
def Rule.settled (more : Bool) : Rule → Bool
  | empty | token _ _ => true
  | demand l _ => l.settled more.toNat
  | call n => Nonterminal.ofClauses.contains n
  | seq r s => r.settled (more || 0 < s.least none) && s.settled more
  | branch l y n =>
    l.settled (min (y.least (some l)) (n.least none) + more.toNat) && y.settled more &&
      n.settled more
  | many l b => l.settled more.toNat && b.settled more
  | sepBy item t => item.settled more && Grammar.clauseWord.disjoint t
  | wrap _ b => b.settled more
  | fork first l _ y _ n =>
    l.settled (min (y.least none) (n.least none) + more.toNat) && first.settled more &&
      y.settled more && n.settled more
  | attempt _ _ _ => false

theorem Grammar.settled_production {n : Nonterminal}
    (h : Nonterminal.ofClauses.contains n = true) : (production n).settled false = true := by
  revert h
  cases n <;> decide

/-- The clauses that another one may follow. -/
def Grammar.clauseRules : List Rule := [readingClause, updatingClause, withClause]

theorem Grammar.settled_clauses : ∀ r ∈ clauseRules, r.settled false = true ∧
    r.lasts.all (Terminal.symbol .dot).disjoint = true := by
  decide

/-- What is to hold of the lexemes `ws` of a clause that stand behind a run over `us`. -/
structure Lexeme.Within (more : Bool) (us ws : List Lexeme) : Prop where
  more : more = true → ws ≠ []
  noDot : Lookahead.NoDotLast (us ++ ws)

namespace Lexeme.Within

variable {more : Bool} {us us' ws : List Lexeme}

/-- Behind the first of two runs stands the second one. -/
theorem left (h : Within more (us ++ us') ws) : Within more us (us' ++ ws) :=
  ⟨fun hm => List.append_ne_nil_of_right_ne_nil _ (h.more hm), by
    rw [← List.append_assoc]; exact h.noDot⟩

theorem right (h : Within more (us ++ us') ws) : Within more us' ws :=
  ⟨h.more, Lookahead.NoDotLast.right us (by rw [← List.append_assoc]; exact h.noDot)⟩

theorem least_le (h : Within more us ws) {k : Nat} (hk : k ≤ us.length) :
    k + more.toNat ≤ (us ++ ws).length := by
  have hmore := length_add_toNat_le h.more
  rw [List.length_append]
  omega

theorem toNat_le (h : Within more us ws) : more.toNat ≤ (us ++ ws).length := by
  simpa using h.least_le (Nat.zero_le _)

end Lexeme.Within

/-- A run keeps what it has found when, behind some lexemes of the clause around it, another
clause takes the place of the next one. -/
theorem Run.refollow_within {zs zs' : List Lexeme} (hzs : ClauseNext zs) (hzs' : ClauseNext zs')
    {r : Rule} {us vs : List Lexeme} {cs : List Cover} (h : Run r us vs cs) :
    ∀ {ws : List Lexeme} {more : Bool}, vs = ws ++ zs → r.settled more = true →
      Lexeme.Within more us ws → Run r us (ws ++ zs') cs := by
  have ask : ∀ (us : List Lexeme) {l : Lookahead} {k : Nat} {ws : List Lexeme} {b : Bool},
      l.settled k = true → k ≤ (us ++ ws).length → Lookahead.NoDotLast (us ++ ws) →
        l.holds (us ++ (ws ++ zs)) = b → l.holds (us ++ (ws ++ zs')) = b := by
    intro us l k ws b hl hk hdot h
    rw [← List.append_assoc] at h ⊢
    exact Lookahead.holds_clause hl hk hdot hzs hzs' h
  induction h with
  | empty => exact fun _ _ _ => .empty
  | token accepts => exact fun _ _ _ => .token accepts
  | demand holds =>
      intro ws more hrest hr hw
      subst hrest
      exact .demand (ask [] hr hw.toNat_le hw.noDot holds)
  | @seq r s us us' vs cs cs' first second ih₁ ih₂ =>
      intro ws more hrest hr hw
      subst hrest
      obtain ⟨hr, hs⟩ := Bool.and_eq_true_iff.mp hr
      have hw' : Lexeme.Within (more || decide (0 < s.least none)) us (us' ++ ws) :=
        ⟨second.append_ne_nil hw.more, hw.left.noDot⟩
      have h₁ := ih₁ (List.append_assoc ..).symm hr hw'
      rw [List.append_assoc] at h₁
      exact .seq h₁ (ih₂ rfl hs hw.right)
  | @yes l y n us vs cs holds run ih =>
      intro ws more hrest hr hw
      subst hrest
      simp only [Rule.settled, Bool.and_eq_true] at hr
      have hlen := run.least_le (Rule.holds_some holds)
      refine .yes (ask _ hr.1.1 (hw.least_le ?_) hw.noDot holds) (ih rfl hr.1.2 hw)
      exact Nat.le_trans (Nat.min_le_left _ _) hlen
  | @no l y n us vs cs fails run ih =>
      intro ws more hrest hr hw
      subst hrest
      simp only [Rule.settled, Bool.and_eq_true] at hr
      have hlen := run.least_le (Rule.holds_none _)
      refine .no (ask _ hr.1.1 (hw.least_le ?_) hw.noDot fails) (ih rfl hr.2 hw)
      exact Nat.le_trans (Nat.min_le_right _ _) hlen
  | done fails =>
      intro ws more hrest hr hw
      subst hrest
      obtain ⟨hl, -⟩ := Bool.and_eq_true_iff.mp hr
      exact .done (ask [] hl hw.toNat_le hw.noDot fails)
  | @step l b us us' vs cs cs' holds first rounds ih₁ ih₂ =>
      intro ws more hrest hr hw
      subst hrest
      obtain ⟨hl, hb⟩ := Bool.and_eq_true_iff.mp hr
      have h₁ := ih₁ (List.append_assoc ..).symm hb hw.left
      have holds' : l.holds (us ++ (us' ++ ws ++ zs)) = true := by rwa [List.append_assoc]
      have hnext := ask us hl hw.left.toNat_le hw.left.noDot holds'
      rw [List.append_assoc] at h₁ hnext
      exact .step hnext h₁ (ih₂ rfl hr hw.right)
  | @sepBy item t us us' vs cs cs' first rounds ih₁ ih₂ =>
      intro ws more hrest hr hw
      subst hrest
      obtain ⟨hitem, ht⟩ := Bool.and_eq_true_iff.mp hr
      have h₁ := ih₁ (List.append_assoc ..).symm hitem hw.left
      rw [List.append_assoc] at h₁
      refine .sepBy h₁ (ih₂ rfl ?_ hw.right)
      have hl : (Lookahead.next [t]).settled more.toNat = true := by
        cases more <;> simp [Lookahead.settled, ht]
      simp [Rule.settled, hl, hitem]
  | wrap run ih => exact fun hrest hr hw => .wrap (ih hrest hr hw)
  | @forkYes first y n l ys ns us us' vs cs cs' run holds rest ih₁ ih₂ =>
      intro ws more hrest hr hw
      subst hrest
      simp only [Rule.settled, Bool.and_eq_true] at hr
      have h₁ := ih₁ (List.append_assoc ..).symm hr.1.1.2 hw.left
      rw [List.append_assoc] at h₁
      have hlen := rest.least_le (Rule.holds_none _)
      have hnext := ask us' hr.1.1.1 (hw.right.least_le (Nat.le_trans (Nat.min_le_left _ _) hlen))
        hw.right.noDot holds
      exact .forkYes h₁ hnext (ih₂ rfl hr.1.2 hw.right)
  | @forkNo first y n l ys ns us us' vs cs cs' run fails rest ih₁ ih₂ =>
      intro ws more hrest hr hw
      subst hrest
      simp only [Rule.settled, Bool.and_eq_true] at hr
      have h₁ := ih₁ (List.append_assoc ..).symm hr.1.1.2 hw.left
      rw [List.append_assoc] at h₁
      have hlen := rest.least_le (Rule.holds_none _)
      have hnext := ask us' hr.1.1.1 (hw.right.least_le (Nat.le_trans (Nat.min_le_right _ _) hlen))
        hw.right.noDot fails
      exact .forkNo h₁ hnext (ih₂ rfl hr.2 hw.right)
  | call run ih =>
      intro ws more hrest hr hw
      exact .call (ih hrest (Grammar.settled_production hr) ⟨Bool.noConfusion, hw.noDot⟩)
  | attemptFirst | attemptOther => exact fun _ hr => Bool.noConfusion hr

/-- **A clause is found in the same way in front of any other clause.** -/
theorem Run.refollow {r : Rule} (hr : r ∈ Grammar.clauseRules) {us zs zs' : List Lexeme}
    {cs : List Cover} (h : Run r us zs cs) (hzs : ClauseNext zs) (hzs' : ClauseNext zs') :
    Run r us zs' cs := by
  obtain ⟨hsettled, hlasts⟩ := Grammar.settled_clauses r hr
  have hdot : Lookahead.NoDotLast (us ++ []) := by
    intro u hu
    rw [List.append_nil] at hu
    obtain ⟨t, ht, hu⟩ := h.getLast_lasts u hu
    by_contra hdot
    have hno := Terminal.accepts_eq_false_of_disjoint (List.all_eq_true.mp hlasts t ht)
      (Bool.of_not_eq_false hdot)
    rw [hu] at hno
    exact Bool.noConfusion hno
  exact h.refollow_within hzs hzs' (List.nil_append zs).symm hsettled ⟨Bool.noConfusion, hdot⟩

end BindCheck

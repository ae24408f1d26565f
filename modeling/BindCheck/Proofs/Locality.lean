import BindCheck.Proofs.Sites

/-!
# BindCheck.Proofs.Locality

**An expression is found in the same way wherever it stands.** Parsing is greedy and looks
ahead, in the case of function names over any number of lexemes. Still, what a run of an
expression has found does not change when all that stands behind it is replaced by the end
of the text (`Run.alone`):

* a lookahead that held looked at lexemes of the run alone (`Lookahead.heldWithin`);
* a lookahead that failed fails at the end of the text too (`Lookahead.failsAlone`), unless
  it asks for any lexeme but one, which the grammar does only where the run goes on.

That the grammar of expressions is of this kind is a question about its text
(`Rule.standsAlone`), for which the number of lexemes that a rule takes at least is
computed as well (`Rule.least`).
-/

namespace BindCheck

/-! ### Repetitions -/

/-- Induction over the repetitions of a rule. -/
theorem Run.many_induction {l : Lookahead} {b : Rule} {vs : List Lexeme}
    {P : List Lexeme → List Cover → Prop} (done : l.holds vs = false → P [] [])
    (step : ∀ us us' cs cs', l.holds (us ++ (us' ++ vs)) = true → Run b us (us' ++ vs) cs →
      Run (.many l b) us' vs cs' → P us' cs' → P (us ++ us') (cs ++ cs'))
    {us : List Lexeme} {cs : List Cover} (h : Run (.many l b) us vs cs) : P us cs := by
  generalize hr : Rule.many l b = r at h
  induction h with
  | done fails =>
      obtain ⟨rfl, rfl⟩ := Rule.many.inj hr
      exact done fails
  | step holds first more ih₁ ih₂ =>
      obtain ⟨rfl, rfl⟩ := Rule.many.inj hr
      exact step _ _ _ _ holds first more (ih₂ done step rfl)
  | _ => exact Rule.noConfusion hr

/-! ### How many lexemes a rule takes -/

/-- Whether a lookahead holds wherever another one does, as far as their text tells. -/
def Lookahead.implies : Lookahead → Lookahead → Bool
  | next [.symbol s], next [.symbols ss] => ss.contains s
  | l, l' => l == l'

theorem Lookahead.holds_of_implies {l l' : Lookahead} (h : l.implies l' = true) {ls : List Lexeme}
    (hl : l.holds ls = true) : l'.holds ls = true := by
  unfold implies at h
  split at h
  · next s ss =>
      cases ls with
      | nil => exact Bool.noConfusion hl
      | cons u ls =>
          obtain ⟨hu, hnil⟩ := Bool.and_eq_true_iff.mp hl
          refine Bool.and_eq_true_iff.mpr ⟨?_, hnil⟩
          cases ht : u.token <;> rw [ht] at hu <;>
            first | exact Bool.noConfusion hu | exact eq_of_beq hu ▸ h
  · exact eq_of_beq h ▸ hl

/-- A lookahead that fails is not implied by what is known to hold. -/
theorem Lookahead.any_implies_eq_false {known : Option Lookahead} {l : Lookahead}
    {ls : List Lexeme} (hk : ∀ l' ∈ known, l'.holds ls = true) (fails : l.holds ls = false) :
    known.any (·.implies l) = false := by
  refine Bool.eq_false_iff.mpr fun himplies => ?_
  obtain ⟨l', hl', himplies⟩ := (Option.any_eq_true _ _).mp himplies
  have hl := holds_of_implies himplies (hk l' hl')
  rw [fails] at hl
  exact Bool.noConfusion hl

/-- A number of lexemes that a rule takes at least, given a lookahead that holds where it
starts. -/
def Rule.least (known : Option Lookahead) : Rule → Nat
  | empty | demand _ _ => 0
  | token _ _ => 1
  | call n => if takesCall n then 1 else 0
  | seq r s => r.least known + s.least none
  | branch l y n => min (y.least (some l)) (n.least known)
  | many l b => if known.any (·.implies l) then b.least (some l) else 0
  | sepBy item _ => item.least known
  | wrap _ b => b.least known
  | fork first _ _ y _ n => first.least known + min (y.least none) (n.least none)
  | attempt first _ other => min (first.least known) (other.least known)

theorem Run.least_le {r : Rule} {us vs : List Lexeme} {cs : List Cover} (h : Run r us vs cs) :
    ∀ {known : Option Lookahead}, (∀ l ∈ known, l.holds (us ++ vs) = true) →
      r.least known ≤ us.length := by
  induction h with
  | empty | demand => intro known _; exact Nat.le_refl 0
  | token => intro known _; exact Nat.le_refl 1
  | seq first second ih₁ ih₂ =>
      intro known hk
      have h₁ := ih₁ (by simpa using hk)
      have h₂ := ih₂ (Rule.holds_none _)
      rw [Rule.least, List.length_append]
      omega
  | yes holds run ih =>
      intro known _
      exact Nat.le_trans (Nat.min_le_left _ _) (ih (Rule.holds_some holds))
  | no fails run ih => intro known hk; exact Nat.le_trans (Nat.min_le_right _ _) (ih hk)
  | @done l b vs fails =>
      intro known hk
      rw [Rule.least, Lookahead.any_implies_eq_false hk fails]
      exact Nat.le_refl 0
  | step holds first more ih₁ ih₂ =>
      intro known _
      have h₁ := ih₁ (Rule.holds_some holds)
      rw [Rule.least, List.length_append]
      split <;> omega
  | sepBy first more ih₁ ih₂ =>
      intro known hk
      have h₁ := ih₁ (by simpa using hk)
      rw [Rule.least, List.length_append]
      omega
  | wrap run ih => intro known hk; exact ih hk
  | forkYes run holds more ih₁ ih₂ | forkNo run fails more ih₁ ih₂ =>
      intro known hk
      have h₁ := ih₁ (by simpa using hk)
      have h₂ := ih₂ (Rule.holds_none _)
      rw [Rule.least, List.length_append]
      omega
  | @call n us vs cs run ih =>
      intro known _
      rw [Rule.least]
      split
      · next ht =>
          exact List.length_pos_iff.mpr
            (run.taken_ne_nil (Rule.holds_none _) (Grammar.takes_production ht))
      · exact Nat.zero_le _
  | attemptFirst run holds ih => intro known hk; exact Nat.le_trans (Nat.min_le_left _ _) (ih hk)
  | attemptOther run ih => intro known hk; exact Nat.le_trans (Nat.min_le_right _ _) (ih hk)

/-! ### Lookaheads in front of the end of the text -/

namespace Lookahead

/-- Whether a lookahead that holds before at least `k` lexemes of a run holds too when the
end of the text stands behind the run. -/
def heldWithin (k : Nat) : Lookahead → Bool
  | next ts => ts.length ≤ k
  | notNext t => !t.accepts .eof
  | dottedCall => false

/-- Whether a lookahead that fails before at least `k` lexemes of a run fails too when the
end of the text stands behind the run. -/
def failsAlone (k : Nat) : Lookahead → Bool
  | next ts => ts.all fun t => !t.accepts .eof
  | notNext _ => 0 < k
  | dottedCall => true

theorem nextIn_append {ts : List Terminal} {ws : List Lexeme} (h : ts.length ≤ ws.length)
    (vs : List Lexeme) : nextIn ts (ws ++ vs) = nextIn ts ws := by
  induction ts generalizing ws with
  | nil => cases ws <;> rfl
  | cons t ts ih =>
      cases ws with
      | nil => exact absurd h (Nat.not_succ_le_zero _)
      | cons w ws =>
          rw [List.cons_append, nextIn, nextIn, ih (Nat.le_of_succ_le_succ h)]

theorem nextIn_ending {ts : List Terminal} {ws vs : List Lexeme} {e : Lexeme}
    (hts : ∀ t ∈ ts, t.accepts .eof = false) (he : e.token = .eof)
    (h : nextIn ts (ws ++ vs) = false) : nextIn ts (ws ++ [e]) = false := by
  induction ts generalizing ws with
  | nil => cases hws : ws ++ vs <;> rw [hws] at h <;> exact Bool.noConfusion h
  | cons t ts ih =>
      cases ws with
      | nil =>
          rw [List.nil_append, nextIn, he, hts t List.mem_cons_self, Bool.false_and]
      | cons w ws =>
          rw [List.cons_append, nextIn, Bool.and_eq_false_iff] at h ⊢
          rcases h with h | h
          · exact .inl h
          · exact .inr (ih (fun t' ht' => hts t' (List.mem_cons_of_mem t ht')) h)

theorem not_leftParen_of_dot {t : Token} (h : (Terminal.symbol .dot).accepts t = true) :
    (Terminal.symbol .leftParen).accepts t = false := by
  cases t with
  | symbol s => cases s <;> first | rfl | exact Bool.noConfusion h
  | _ => rfl

/-- Where no call follows, no parenthesis does. -/
theorem not_leftParen_of_callFollows {u : Lexeme} {ls : List Lexeme}
    (h : callFollows (u :: ls) = false) : (Terminal.symbol .leftParen).accepts u.token = false := by
  cases ls with
  | nil => exact h
  | cons v ls =>
      rw [callFollows] at h
      split at h
      · next hdot => exact not_leftParen_of_dot (Bool.and_eq_true_iff.mp hdot).1
      · exact h

theorem callFollows_ending {ws vs : List Lexeme} {e : Lexeme} (he : e.token = .eof)
    (h : callFollows (ws ++ vs) = false) : callFollows (ws ++ [e]) = false := by
  induction ws using callFollows.induct with
  | case1 =>
      rw [List.nil_append, callFollows, he]
      rfl
  | case2 l =>
      have hl : (Terminal.symbol .leftParen).accepts l.token = false :=
        not_leftParen_of_callFollows h
      have hend : Terminal.name.accepts e.token = false := by rw [he]; rfl
      rw [List.cons_append, List.nil_append, callFollows, hend, Bool.and_false, hl]
      rfl
  | case3 l m ls hdot ih =>
      simp only [List.cons_append, callFollows, hdot, if_true] at h ⊢
      exact ih h
  | case4 l m ls hdot =>
      simp only [List.cons_append, callFollows, hdot, if_false, Bool.false_eq_true] at h ⊢
      exact h

variable {l : Lookahead} {k : Nat} {ws vs : List Lexeme} {e : Lexeme}

theorem holds_ending (hl : l.heldWithin k = true) (hk : k ≤ ws.length) (he : e.token = .eof)
    (h : l.holds (ws ++ vs) = true) : l.holds (ws ++ [e]) = true := by
  cases l with
  | next ts =>
      have hlen : ts.length ≤ ws.length := Nat.le_trans (of_decide_eq_true hl) hk
      rw [holds, nextIn_append hlen] at h ⊢
      exact h
  | notNext t =>
      cases ws with
      | nil =>
          show (!t.accepts e.token) = true
          rw [he]
          exact hl
      | cons w ws => exact h
  | dottedCall => exact Bool.noConfusion hl

theorem fails_ending (hl : l.failsAlone k = true) (hk : k ≤ ws.length) (he : e.token = .eof)
    (h : l.holds (ws ++ vs) = false) : l.holds (ws ++ [e]) = false := by
  cases l with
  | next ts =>
      refine nextIn_ending (fun t ht => ?_) he h
      simpa using List.all_eq_true.mp hl t ht
  | notNext t =>
      cases ws with
      | nil =>
          have hpos : 0 < k := of_decide_eq_true hl
          exact absurd hk (Nat.not_le_of_lt hpos)
      | cons w ws => exact h
  | dottedCall =>
      cases ws with
      | nil =>
          show (Terminal.identifier.accepts e.token && callFollows []) = false
          rw [he]
          rfl
      | cons w ws =>
          rw [List.cons_append, holds, Bool.and_eq_false_iff] at h ⊢
          rcases h with h | h
          · exact .inl h
          · exact .inr (callFollows_ending he h)

end Lookahead

/-! ### Calls of functions -/

/-- Behind dots and names, an opening parenthesis is seen. -/
theorem Run.callFollows_dots {us vs : List Lexeme} {cs : List Cover}
    (h : Run (.many (.next [.symbol .dot]) (.row [.sign .dot, Grammar.someName])) us vs cs)
    {p : Lexeme} (hp : (Terminal.symbol .leftParen).accepts p.token = true) (ws : List Lexeme) :
    Lookahead.callFollows (us ++ p :: ws) = true := by
  refine Run.many_induction (P := fun us _ => Lookahead.callFollows (us ++ p :: ws) = true)
    ?_ ?_ h
  · intro _
    have hdot : (Terminal.symbol .dot).accepts p.token = false :=
      Bool.eq_false_iff.mpr fun hdot =>
        absurd hp (by rw [Lookahead.not_leftParen_of_dot hdot]; exact Bool.false_ne_true)
    cases ws with
    | nil => exact hp
    | cons w ws =>
        rw [List.nil_append, Lookahead.callFollows, hdot, Bool.false_and]
        exact hp
  · intro us us' _ _ _ first _ ih
    obtain ⟨_, _, _, _, rfl, -, hdot, hname⟩ := Run.seq_iff.mp first
    obtain ⟨d, rfl, hd, -⟩ := Run.token_iff.mp hdot
    obtain ⟨m, rfl, hm, -⟩ := Run.token_iff.mp hname
    show Lookahead.callFollows (d :: m :: (us' ++ p :: ws)) = true
    rw [Lookahead.callFollows, hd, hm]
    exact ih

/-- A call of a function is a name, further names behind dots, a parenthesis and what is read
up to the closing one. -/
theorem Run.lexemes_of_functionInvocation {us vs : List Lexeme} {cs : List Cover}
    (h : Run Grammar.functionInvocation us vs cs) :
    ∃ f dots p args cs₁ cs₂, us = f :: (dots ++ p :: args) ∧
      Run (.many (.next [.symbol .dot]) (.row [.sign .dot, Grammar.someName])) dots
        (p :: args ++ vs) cs₁ ∧
      (Terminal.symbol .leftParen).accepts p.token = true ∧
      Run (.row [.optional (.keyword .DISTINCT), Grammar.expressionsUpTo .rightParen,
        .sign .rightParen]) args vs cs₂ := by
  obtain ⟨_, -, hbody⟩ := Run.node_iff.mp h
  obtain ⟨_, _, _, _, rfl, -, hname, htail⟩ := Run.seq_iff.mp hbody
  obtain ⟨_, -, hdotted⟩ := Run.node_iff.mp hname
  obtain ⟨_, dots, _, _, rfl, -, hfirst, hdots⟩ := Run.seq_iff.mp hdotted
  obtain ⟨f, rfl, -, -⟩ := Run.token_iff.mp hfirst
  obtain ⟨_, args, _, _, rfl, -, hparen, hargs⟩ := Run.seq_iff.mp htail
  obtain ⟨p, rfl, hp, -⟩ := Run.token_iff.mp hparen
  exact ⟨f, dots, p, args, _, _, by simp, hdots, hp, hargs⟩

/-- A call of a function is told by its own lexemes, if the first name is no reserved word. -/
theorem Run.dottedCall {us vs : List Lexeme} {cs : List Cover}
    (h : Run Grammar.functionInvocation us vs cs)
    (hu : ∀ u ∈ us.head?, Terminal.identifier.accepts u.token = true) (vs' : List Lexeme) :
    Lookahead.dottedCall.holds (us ++ vs') = true := by
  obtain ⟨f, dots, p, args, _, _, rfl, hdots, hp, -⟩ := h.lexemes_of_functionInvocation
  rw [List.cons_append, List.append_assoc, List.cons_append, Lookahead.holds, hu f rfl,
    hdots.callFollows_dots hp]
  rfl

/-- The name before a dotted call is no reserved word. -/
theorem Lookahead.identifier_of_dottedCall {us vs : List Lexeme}
    (h : dottedCall.holds (us ++ vs) = true) :
    ∀ u ∈ us.head?, Terminal.identifier.accepts u.token = true := by
  intro u hu
  obtain ⟨us, rfl⟩ : ∃ us', us = u :: us' := List.head?_eq_some_iff.mp hu
  exact (Bool.and_eq_true_iff.mp h).1

/-! ### Rules that find the same alone -/

/-- Whether what a rule finds does not change when the end of the text takes the place of
what stands behind a node around it; `more` says that lexemes of the node follow. -/
def Rule.standsAlone (more : Bool) : Rule → Bool
  | empty | token _ _ => true
  | demand l _ => l.heldWithin more.toNat
  | call n => Nonterminal.ofExpressions.contains n
  | seq r s => r.standsAlone (more || 0 < s.least none) && s.standsAlone more
  | branch l y n =>
    (l.heldWithin (y.least (some l) + more.toNat) ||
        l == .dottedCall && y == Grammar.functionInvocation) &&
      l.failsAlone (n.least none + more.toNat) && y.standsAlone more && n.standsAlone more
  | many l b =>
    l.heldWithin (b.least (some l)) && l.failsAlone more.toNat && b.standsAlone more
  | sepBy item t => item.standsAlone more && !t.accepts .eof
  | wrap _ b => b.standsAlone more
  | fork first l _ y _ n =>
    l.heldWithin (y.least (some l) + more.toNat) && l.failsAlone (n.least none + more.toNat) &&
      first.standsAlone more && y.standsAlone more && n.standsAlone more
  | attempt _ _ _ => false

theorem Grammar.standsAlone_production {n : Nonterminal}
    (h : Nonterminal.ofExpressions.contains n = true) :
    (production n).standsAlone false = true := by
  revert h
  cases n <;> decide

theorem length_add_toNat_le {ws : List Lexeme} {more : Bool} (h : more = true → ws ≠ []) :
    more.toNat ≤ ws.length := by
  cases more with
  | false => exact Nat.zero_le _
  | true => exact List.length_pos_iff.mpr (h rfl)

section

variable {r : Rule} {us ws vs : List Lexeme} {cs : List Cover} {l : Lookahead} {more : Bool}
  {e : Lexeme}

/-- A lookahead in front of a run holds alone if what the run takes decides it. -/
theorem Run.holds_alone (run : Run r us (ws ++ vs) cs) {known : Option Lookahead}
    (hk : ∀ l ∈ known, l.holds (us ++ (ws ++ vs)) = true)
    (hl : l.heldWithin (r.least known + more.toNat) = true) (hmore : more = true → ws ≠ [])
    (he : e.token = .eof) (holds : l.holds (us ++ (ws ++ vs)) = true) :
    l.holds (us ++ (ws ++ [e])) = true := by
  have hlen := run.least_le hk
  have hws := length_add_toNat_le hmore
  rw [← List.append_assoc] at holds ⊢
  exact Lookahead.holds_ending hl (by rw [List.length_append]; omega) he holds

/-- A lookahead in front of a run fails alone if what the run takes decides it. -/
theorem Run.fails_alone (run : Run r us (ws ++ vs) cs)
    (hl : l.failsAlone (r.least none + more.toNat) = true) (hmore : more = true → ws ≠ [])
    (he : e.token = .eof) (fails : l.holds (us ++ (ws ++ vs)) = false) :
    l.holds (us ++ (ws ++ [e])) = false := by
  have hlen := run.least_le (Rule.holds_none _)
  have hws := length_add_toNat_le hmore
  rw [← List.append_assoc] at fails ⊢
  exact Lookahead.fails_ending hl (by rw [List.length_append]; omega) he fails

/-- Lexemes follow the first of two parts if some follow the second one, or if it takes some. -/
theorem Run.append_ne_nil (second : Run r us vs cs) (hmore : more = true → ws ≠ [])
    (h : (more || decide (0 < r.least none)) = true) : us ++ ws ≠ [] := by
  rcases Bool.or_eq_true_iff.mp h with h | h
  · exact List.append_ne_nil_of_right_ne_nil _ (hmore h)
  · have hpos := Nat.lt_of_lt_of_le (of_decide_eq_true h) (second.least_le (Rule.holds_none _))
    exact List.append_ne_nil_of_left_ne_nil (List.length_pos_iff.mp hpos) _

end

/-- That a rule keeps what it has found when, behind some lexemes of the node around it, the end
of the text takes the place of all that follows. -/
def Rule.CutsTo (r : Rule) (us vs : List Lexeme) (cs : List Cover) : Prop :=
  ∀ {ws vs' : List Lexeme} {follows : Bool} {e : Lexeme}, vs = ws ++ vs' →
    r.standsAlone follows = true → (follows = true → ws ≠ []) → e.token = .eof →
    Run r us (ws ++ [e]) cs

/-- In front of another part of the node the rule keeps what it has found, too. -/
theorem Rule.CutsTo.first {r : Rule} {us us' ws vs : List Lexeme} {cs : List Cover}
    (h : r.CutsTo us (us' ++ (ws ++ vs)) cs) {follows : Bool} {e : Lexeme}
    (hr : r.standsAlone follows = true) (hmore : follows = true → us' ++ ws ≠ [])
    (he : e.token = .eof) : Run r us (us' ++ (ws ++ [e])) cs := by
  have run := h (List.append_assoc ..).symm hr hmore he
  rwa [List.append_assoc] at run

/-- **A run keeps what it has found** when the end of the text takes the place of what stands
behind the node around it. -/
theorem Run.cut {r : Rule} {us vs : List Lexeme} {cs : List Cover} (h : Run r us vs cs) :
    r.CutsTo us vs cs := by
  -- lexemes of the node that follow a second part also follow the first one
  have behind : ∀ {follows : Bool} {us' ws : List Lexeme}, (follows = true → ws ≠ []) →
      follows = true → us' ++ ws ≠ [] :=
    fun hmore hm => List.append_ne_nil_of_right_ne_nil _ (hmore hm)
  induction h with
  | empty => intro ws vs' follows e _ _ _ _; exact .empty
  | token accepts => intro ws vs' follows e _ _ _ _; exact .token accepts
  | demand holds =>
      intro ws vs' follows e hrest hr hmore he
      subst hrest
      exact .demand (Lookahead.holds_ending hr (length_add_toNat_le hmore) he holds)
  | seq first second ih₁ ih₂ =>
      intro ws vs' follows e hrest hr hmore he
      subst hrest
      obtain ⟨hr, hs⟩ := Bool.and_eq_true_iff.mp hr
      exact .seq (ih₁.first hr (second.append_ne_nil hmore) he) (ih₂ rfl hs hmore he)
  | yes holds run ih =>
      intro ws vs' follows e hrest hr hmore he
      subst hrest
      simp only [Rule.standsAlone, Bool.and_eq_true, Bool.or_eq_true] at hr
      obtain ⟨⟨⟨hl, -⟩, hy⟩, -⟩ := hr
      refine .yes ?_ (ih rfl hy hmore he)
      rcases hl with hl | ⟨hl, hcall⟩
      · exact run.holds_alone (Rule.holds_some holds) hl hmore he holds
      · obtain rfl := eq_of_beq hl
        obtain rfl := eq_of_beq hcall
        exact run.dottedCall (Lookahead.identifier_of_dottedCall holds) _
  | no fails run ih =>
      intro ws vs' follows e hrest hr hmore he
      subst hrest
      simp only [Rule.standsAlone, Bool.and_eq_true] at hr
      obtain ⟨⟨⟨-, hl⟩, -⟩, hn⟩ := hr
      exact .no (run.fails_alone hl hmore he fails) (ih rfl hn hmore he)
  | done fails =>
      intro ws vs' follows e hrest hr hmore he
      subst hrest
      simp only [Rule.standsAlone, Bool.and_eq_true] at hr
      exact .done (Lookahead.fails_ending hr.1.2 (length_add_toNat_le hmore) he fails)
  | @step l b us us' vs cs cs' holds first more ih₁ ih₂ =>
      intro ws vs' follows e hrest hr hmore he
      subst hrest
      have hb := hr
      simp only [Rule.standsAlone, Bool.and_eq_true] at hb
      refine .step ?_ (ih₁.first hb.2 (behind hmore) he) (ih₂ rfl hr hmore he)
      -- the lookahead sees no further than the round itself
      have hlen := first.least_le (Rule.holds_some holds)
      have hsplit : ∀ zs, us ++ (us' ++ (ws ++ zs)) = us ++ us' ++ ws ++ zs := by simp
      rw [hsplit] at holds ⊢
      refine Lookahead.holds_ending hb.1.1 ?_ he holds
      rw [List.length_append, List.length_append]
      omega
  | sepBy first more ih₁ ih₂ =>
      intro ws vs' follows e hrest hr hmore he
      subst hrest
      obtain ⟨hitem, ht⟩ := Bool.and_eq_true_iff.mp hr
      refine .sepBy (ih₁.first hitem (behind hmore) he) (ih₂ rfl ?_ hmore he)
      simp only [Bool.not_eq_true'] at ht
      simp [Rule.standsAlone, Lookahead.heldWithin, Lookahead.failsAlone, Rule.least, ht, hitem]
  | wrap run ih =>
      intro ws vs' follows e hrest hr hmore he
      exact .wrap (ih hrest hr hmore he)
  | forkYes run holds more ih₁ ih₂ =>
      intro ws vs' follows e hrest hr hmore he
      subst hrest
      simp only [Rule.standsAlone, Bool.and_eq_true] at hr
      obtain ⟨⟨⟨⟨hl, -⟩, hfirst⟩, hy⟩, -⟩ := hr
      exact .forkYes (ih₁.first hfirst (behind hmore) he)
        (more.holds_alone (Rule.holds_some holds) hl hmore he holds) (ih₂ rfl hy hmore he)
  | forkNo run fails more ih₁ ih₂ =>
      intro ws vs' follows e hrest hr hmore he
      subst hrest
      simp only [Rule.standsAlone, Bool.and_eq_true] at hr
      obtain ⟨⟨⟨⟨-, hl⟩, hfirst⟩, -⟩, hn⟩ := hr
      exact .forkNo (ih₁.first hfirst (behind hmore) he)
        (more.fails_alone hl hmore he fails) (ih₂ rfl hn hmore he)
  | call run ih =>
      intro ws vs' follows e hrest hr hmore he
      exact .call (ih hrest (Grammar.standsAlone_production hr) (by simp) he)
  | attemptFirst | attemptOther =>
      intro ws vs' follows e hrest hr
      exact Bool.noConfusion hr

/-- A rule that stands alone keeps what it has found, too, when only some of the lexemes
behind it are kept. -/
theorem Run.before {r : Rule} {us ws vs : List Lexeme} {cs : List Cover}
    (h : Run r us (ws ++ vs) cs) (hr : r.standsAlone false = true) {e : Lexeme}
    (he : e.token = .eof) : Run r us (ws ++ [e]) cs :=
  h.cut rfl hr (by simp) he

/-- **A run of a rule that stands alone is one at the end of the text too.** -/
theorem Run.alone {r : Rule} {us vs : List Lexeme} {cs : List Cover} (h : Run r us vs cs)
    (hr : r.standsAlone false = true) {e : Lexeme} (he : e.token = .eof) : Run r us [e] cs :=
  h.cut (List.nil_append vs).symm hr (by simp) he

end BindCheck

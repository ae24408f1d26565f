import BindCheck.Proofs.Sessions

/-!
# BindCheck.Proofs.Failures

**Failed parses as a relation, without bounds.** `Fails r us vs` says that the rule `r`, with
the lexemes `us ++ vs` ahead, takes `us` and then stops, as the next lexeme does not fit. It is to
failures what `Run` is to successes; what had been taken before the rule that failed is a run.

An attempt that is given up leaves no trace: the failure is that of the other rule, which
starts again on the same lexemes.
-/

namespace BindCheck

/-- With `us ++ vs` ahead a rule takes `us` and fails in front of `vs`. -/
inductive Fails : Rule → List Lexeme → List Lexeme → Prop where
  | token {t : Terminal} {e : Expectation} {vs : List Lexeme}
      (fails : (Lookahead.next [t]).holds vs = false) : Fails (.token t e) [] vs
  | demand {l : Lookahead} {e : Expectation} {vs : List Lexeme} (fails : l.holds vs = false) :
      Fails (.demand l e) [] vs
  | first {r s : Rule} {us vs : List Lexeme} (failure : Fails r us vs) : Fails (.seq r s) us vs
  | second {r s : Rule} {us us' vs : List Lexeme} {cs : List Cover}
      (first : Run r us (us' ++ vs) cs) (failure : Fails s us' vs) :
      Fails (.seq r s) (us ++ us') vs
  | yes {l : Lookahead} {y n : Rule} {us vs : List Lexeme} (holds : l.holds (us ++ vs) = true)
      (failure : Fails y us vs) : Fails (.branch l y n) us vs
  | no {l : Lookahead} {y n : Rule} {us vs : List Lexeme} (fails : l.holds (us ++ vs) = false)
      (failure : Fails n us vs) : Fails (.branch l y n) us vs
  | round {l : Lookahead} {b : Rule} {us vs : List Lexeme} (holds : l.holds (us ++ vs) = true)
      (failure : Fails b us vs) : Fails (.many l b) us vs
  | again {l : Lookahead} {b : Rule} {us us' vs : List Lexeme} {cs : List Cover}
      (holds : l.holds (us ++ (us' ++ vs)) = true) (first : Run b us (us' ++ vs) cs)
      (failure : Fails (.many l b) us' vs) : Fails (.many l b) (us ++ us') vs
  | item {item : Rule} {t : Terminal} {us vs : List Lexeme} (failure : Fails item us vs) :
      Fails (.sepBy item t) us vs
  | items {item : Rule} {t : Terminal} {us us' vs : List Lexeme} {cs : List Cover}
      (first : Run item us (us' ++ vs) cs) (failure : Fails (.separated item t) us' vs) :
      Fails (.sepBy item t) (us ++ us') vs
  | wrap {s : Shape} {b : Rule} {us vs : List Lexeme} (failure : Fails b us vs) :
      Fails (.wrap s b) us vs
  | forkFirst {first y n : Rule} {l : Lookahead} {ys ns : Shape} {us vs : List Lexeme}
      (failure : Fails first us vs) : Fails (.fork first l ys y ns n) us vs
  | forkYes {first y n : Rule} {l : Lookahead} {ys ns : Shape} {us us' vs : List Lexeme}
      {cs : List Cover} (run : Run first us (us' ++ vs) cs) (holds : l.holds (us' ++ vs) = true)
      (failure : Fails y us' vs) : Fails (.fork first l ys y ns n) (us ++ us') vs
  | forkNo {first y n : Rule} {l : Lookahead} {ys ns : Shape} {us us' vs : List Lexeme}
      {cs : List Cover} (run : Run first us (us' ++ vs) cs) (fails : l.holds (us' ++ vs) = false)
      (failure : Fails n us' vs) : Fails (.fork first l ys y ns n) (us ++ us') vs
  | call {n : Nonterminal} {us vs : List Lexeme} (failure : Fails (Grammar.production n) us vs) :
      Fails (.call n) us vs
  | other {first other : Rule} {l : Lookahead} {us vs : List Lexeme}
      (failure : Fails other us vs) : Fails (.attempt first l other) us vs

/-! ### What a failure of each rule consists of -/

namespace Fails

variable {r s y n b first item : Rule} {l : Lookahead} {t : Terminal} {e : Expectation}
  {us vs : List Lexeme}

theorem seq_cases (h : Fails (.seq r s) us vs) :
    Fails r us vs ∨ ∃ us₁ us₂ cs, us = us₁ ++ us₂ ∧ Run r us₁ (us₂ ++ vs) cs ∧ Fails s us₂ vs := by
  cases h with
  | first failure => exact .inl failure
  | second run failure => exact .inr ⟨_, _, _, rfl, run, failure⟩

theorem branch_cases (h : Fails (.branch l y n) us vs) :
    (l.holds (us ++ vs) = true ∧ Fails y us vs) ∨ l.holds (us ++ vs) = false ∧ Fails n us vs := by
  cases h with
  | yes holds failure => exact .inl ⟨holds, failure⟩
  | no fails failure => exact .inr ⟨fails, failure⟩

/-- A token that does not fit is not taken. -/
theorem eq_nil_of_token (h : Fails (.token t e) us vs) : us = [] := by
  cases h
  rfl

theorem eq_nil_of_demand (h : Fails (.demand l e) us vs) : us = [] := by
  cases h
  rfl

theorem wrap_iff {sh : Shape} : Fails (.wrap sh b) us vs ↔ Fails b us vs := by
  constructor
  · intro h
    cases h with
    | wrap failure => exact failure
  · exact .wrap

/-- A repetition fails where it is entered. -/
theorem holds_many (h : Fails (.many l b) us vs) : l.holds (us ++ vs) = true := by
  cases h with
  | round holds => exact holds
  | again holds => rwa [List.append_assoc]

/-- Induction over the rounds of a repetition in front of the one that fails. -/
theorem many_induction {P : List Lexeme → Prop}
    (round : ∀ us, l.holds (us ++ vs) = true → Fails b us vs → P us)
    (again : ∀ us us' cs, l.holds (us ++ (us' ++ vs)) = true → Run b us (us' ++ vs) cs →
      Fails (.many l b) us' vs → P us' → P (us ++ us'))
    (h : Fails (.many l b) us vs) : P us := by
  generalize hr : Rule.many l b = r at h
  induction h with
  | round holds failure =>
      obtain ⟨rfl, rfl⟩ := Rule.many.inj hr
      exact round _ holds failure
  | again holds first failure ih =>
      obtain ⟨rfl, rfl⟩ := Rule.many.inj hr
      exact again _ _ _ holds first failure (ih round again rfl)
  | _ => exact Rule.noConfusion hr

/-- What is left of a fork is one of two rules behind the first one, whatever the shapes. -/
theorem seq_of_fork {ys ns : Shape} (h : Fails (.fork first l ys y ns n) us vs) :
    Fails (.seq first (.branch l y n)) us vs := by
  cases h with
  | forkFirst failure => exact .first failure
  | forkYes run holds failure => exact .second run (.yes holds failure)
  | forkNo run fails failure => exact .second run (.no fails failure)

end Fails

/-! ### Failures of the parser -/

theorem Outcome.andThen_eq_failed {o : Outcome} {next : List Lexeme → Outcome} {e : Expectation}
    {rest : List Lexeme} (h : o.andThen next = .failed e rest) :
    o = .failed e rest ∨ ∃ ns us rest', o = .done ns us rest' ∧ next rest' = .failed e rest := by
  cases o with
  | failed e' rest' => exact .inl h
  | done ns us rest' =>
      rw [andThen] at h
      cases hnext : next rest' with
      | failed e' rest'' =>
          rw [hnext] at h
          exact .inr ⟨ns, us, rest', rfl, hnext.trans h⟩
      | done ns' us' rest'' =>
          rw [hnext] at h
          cases h

theorem Outcome.shaped_eq_failed {o : Outcome} {s : Shape} {e : Expectation} {rest : List Lexeme}
    (h : o.shaped s = .failed e rest) : o = .failed e rest := by
  cases o with
  | failed e' rest' => exact h
  | done ns us rest' => cases h

namespace Activation

/-- That a failure of an activation is one in the sense of the relation. -/
def FailsSoundly (a : Activation) : Prop :=
  ∀ e rest, a.rule.parse a.ahead = .failed e rest →
    ∃ us, a.ahead = us ++ rest ∧ Fails a.rule us rest

/-- A failure behind another rule. -/
theorem FailsSoundly.behind {r s : Rule} {ls us rest rest' : List Lexeme} {ns : List Tree}
    {e : Expectation} (hr : r.progresses = true) (hs : FailsSoundly ⟨s, rest⟩)
    (hdone : r.parse ls = .done ns us rest) (h : s.parse rest = .failed e rest') :
    ∃ us' cs, ls = us ++ us' ++ rest' ∧ Run r us (us' ++ rest') cs ∧ Fails s us' rest' := by
  obtain ⟨rfl, cs, -, run⟩ := Run.of_parse hr hdone
  obtain ⟨us', hsplit, failure⟩ := hs e rest' h
  have hrest : rest = us' ++ rest' := hsplit
  subst hrest
  exact ⟨us', cs, (List.append_assoc _ _ _).symm, run, failure⟩

/-- A failure of what a fork goes on with. -/
theorem FailsSoundly.fork {r s : Rule} {shape : Shape} {ls us rest rest' : List Lexeme}
    {ns : List Tree} {e : Expectation} (hr : r.progresses = true) (hs : FailsSoundly ⟨s, rest⟩)
    (hdone : r.parse ls = .done ns us rest)
    (h : ((Outcome.done ns us rest).andThen s.parse).shaped shape = .failed e rest') :
    ∃ us' cs, ls = us ++ us' ++ rest' ∧ rest = us' ++ rest' ∧ Run r us (us' ++ rest') cs ∧
      Fails s us' rest' := by
  rcases Outcome.andThen_eq_failed (Outcome.shaped_eq_failed h) with hno | ⟨_, _, _, hsame, hfailed⟩
  · cases hno
  · cases hsame
    obtain ⟨us', cs, hsplit, run, failure⟩ := behind hr hs hdone hfailed
    obtain ⟨hls, -⟩ := Run.of_parse hr hdone
    rw [hsplit, List.append_assoc] at hls
    exact ⟨us', cs, hsplit, (List.append_cancel_left hls).symm, run, failure⟩

/-- An activation fails soundly if those that it starts do. -/
theorem failsSoundly_step {a : Activation} (ha : a.rule.progresses = true)
    (ih : ∀ b, Starts a b → FailsSoundly b) : FailsSoundly a := by
  obtain ⟨r, ls⟩ := a
  intro e rest h
  have hprog : r.progresses = true := ha
  change r.parse ls = .failed e rest at h
  rw [Rule.parse_eq hprog] at h
  cases r with
  | empty => cases h
  | token t x =>
      cases ls with
      | nil =>
          cases h
          exact ⟨[], rfl, .token rfl⟩
      | cons u us =>
          simp only [Rule.parseBy, Rule.parseToken] at h
          split at h
          · cases h
          · next hu =>
              cases h
              exact ⟨[], rfl, .token (by simp [Lookahead.holds, Lookahead.nextIn, hu])⟩
  | demand l x =>
      simp only [Rule.parseBy] at h
      split at h
      · cases h
      · next hl =>
          cases h
          exact ⟨[], rfl, .demand (Bool.eq_false_iff.mpr hl)⟩
  | seq r s =>
      rcases Outcome.andThen_eq_failed h with hfailed | ⟨ns, us, rest', hdone, hfailed⟩
      · obtain ⟨us, hsplit, failure⟩ := ih _ .seqFirst e rest hfailed
        exact ⟨us, hsplit, .first failure⟩
      · obtain ⟨us', cs, hsplit, run, failure⟩ := FailsSoundly.behind
          (Bool.and_eq_true_iff.mp hprog).1 (ih _ (.seqSecond hdone)) hdone hfailed
        exact ⟨us ++ us', hsplit, .second run failure⟩
  | branch l y n =>
      simp only [Rule.parseBy] at h
      split at h
      case isTrue hl =>
        obtain ⟨us, hsplit, failure⟩ := ih _ (.yes hl) e rest h
        have hls : ls = us ++ rest := hsplit
        exact ⟨us, hsplit, .yes (hls ▸ hl) failure⟩
      case isFalse hl =>
        have hno := Bool.eq_false_iff.mpr hl
        obtain ⟨us, hsplit, failure⟩ := ih _ (.no hno) e rest h
        have hls : ls = us ++ rest := hsplit
        exact ⟨us, hsplit, .no (hls ▸ hno) failure⟩
  | many l b =>
      simp only [Rule.parseBy] at h
      split at h
      case isFalse => cases h
      case isTrue hl =>
        rcases Outcome.andThen_eq_failed h with hfailed | ⟨ns, us, rest', hdone, hfailed⟩
        · obtain ⟨us, hsplit, failure⟩ := ih _ (.round hl) e rest hfailed
          have hls : ls = us ++ rest := hsplit
          exact ⟨us, hsplit, .round (hls ▸ hl) failure⟩
        · obtain ⟨us', cs, hsplit, run, failure⟩ := FailsSoundly.behind
            (Bool.and_eq_true_iff.mp hprog).2 (ih _ (.again hl hdone)) hdone hfailed
          rw [hsplit, List.append_assoc] at hl
          exact ⟨us ++ us', hsplit, .again hl run failure⟩
  | sepBy item t =>
      have hitem : item.progresses = true := hprog
      rcases Outcome.andThen_eq_failed h with hfailed | ⟨ns, us, rest', hdone, hfailed⟩
      · obtain ⟨us, hsplit, failure⟩ := ih _ .item e rest hfailed
        exact ⟨us, hsplit, .item failure⟩
      · obtain ⟨us', cs, hsplit, run, failure⟩ :=
          FailsSoundly.behind hitem (ih _ (.items hdone)) hdone hfailed
        exact ⟨us ++ us', hsplit, .items run failure⟩
  | wrap s b =>
      obtain ⟨us, hsplit, failure⟩ := ih _ .body e rest (Outcome.shaped_eq_failed h)
      exact ⟨us, hsplit, .wrap failure⟩
  | fork first l ys y ns n =>
      simp only [Rule.progresses, Bool.and_eq_true] at hprog
      obtain ⟨⟨hfirst, -⟩, -⟩ := hprog
      simp only [Rule.parseBy] at h
      split at h
      case h_1 hfailed =>
        cases h
        obtain ⟨us, hsplit, failure⟩ := ih _ .forkFirst _ _ hfailed
        exact ⟨us, hsplit, .forkFirst failure⟩
      case h_2 cs us rest' hdone =>
        split at h
        case isTrue hl =>
          obtain ⟨us', cs, hsplit, rfl, run, failure⟩ :=
            FailsSoundly.fork hfirst (ih _ (.forkYes hdone hl)) hdone h
          exact ⟨us ++ us', hsplit, .forkYes run hl failure⟩
        case isFalse hl =>
          have hno := Bool.eq_false_iff.mpr hl
          obtain ⟨us', cs, hsplit, rfl, run, failure⟩ :=
            FailsSoundly.fork hfirst (ih _ (.forkNo hdone hno)) hdone h
          exact ⟨us ++ us', hsplit, .forkNo run hno failure⟩
  | call n =>
      obtain ⟨us, hsplit, failure⟩ := ih _ .call e rest h
      exact ⟨us, hsplit, .call failure⟩
  | attempt first l other =>
      have hother : FailsSoundly ⟨other, ls⟩ → other.parse ls = .failed e rest →
          ∃ us, ls = us ++ rest ∧ Fails (.attempt first l other) us rest := by
        intro hsound hfailed
        obtain ⟨us, hsplit, failure⟩ := hsound e rest hfailed
        exact ⟨us, hsplit, .other failure⟩
      simp only [Rule.parseBy] at h
      split at h
      case h_1 hfailed => exact hother (ih _ (.failed hfailed)) h
      case h_2 hdone =>
        split at h
        case isTrue => cases h
        case isFalse hl => exact hother (ih _ (.unfit hdone (Bool.eq_false_iff.mpr hl))) h

end Activation

/-- **Every failure of a rule takes some lexemes and stops in front of the rest.** -/
theorem Fails.of_parse {r : Rule} (hr : r.progresses = true) {ls rest : List Lexeme}
    {e : Expectation} (h : r.parse ls = .failed e rest) :
    ∃ us, ls = us ++ rest ∧ Fails r us rest := by
  have hsound : ∀ a : Activation, a.Ends → a.rule.progresses = true → a.FailsSoundly := by
    intro a hends
    induction hends with
    | intro a _ ih =>
        exact fun ha => Activation.failsSoundly_step ha fun b hb => ih b hb (hb.progresses ha)
  exact hsound ⟨r, ls⟩ (Activation.ends hr ls) hr e rest h

end BindCheck

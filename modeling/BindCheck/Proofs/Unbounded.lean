import BindCheck.Proofs.Runs

/-!
# BindCheck.Proofs.Unbounded

**The bounds of the parser do not show.** `Rule.parse` bounds the depth of calls and the number of
repetitions. `Rule.parseBy` is one step of a parser without any bound, given how the rules that a
rule is made of parse, and `Rule.parse_eq` is what it is for: parsing is a fixed point of this
step.

The reason is that any two bounds that are large enough give the same outcome (`Rule.Steady`), for
failures as well as for successes. How large a bound has to be depends on whether the rule may
call another one before it has taken a lexeme (`Rule.Enough`).
-/

namespace BindCheck

/-! ### One step of an unbounded parser -/

namespace Rule

/-- What stands behind the first of several items: each with a separator in front of it. -/
def separated (item : Rule) (t : Terminal) : Rule :=
  many (.next [t]) (seq (token t (.terminal t)) item)

/-- What a rule does itself, given how the rules that it is made of parse. -/
def parseBy (go : Rule → List Lexeme → Outcome) : Rule → List Lexeme → Outcome
  | empty, ls => .done [] [] ls
  | token t e, ls => parseToken t e ls
  | demand l e, ls => if l.holds ls then .done [] [] ls else .failed e ls
  | seq r s, ls => (go r ls).andThen (go s)
  | branch l y n, ls => if l.holds ls then go y ls else go n ls
  | many l b, ls => if l.holds ls then (go b ls).andThen (go (many l b)) else .done [] [] ls
  | sepBy item t, ls => (go item ls).andThen (go (separated item t))
  | wrap s b, ls => (go b ls).shaped s
  | fork first l ys y ns n, ls =>
    match go first ls with
    | .failed e rest => .failed e rest
    | .done cs taken rest =>
      if l.holds rest then ((Outcome.done cs taken rest).andThen (go y)).shaped ys
      else ((Outcome.done cs taken rest).andThen (go n)).shaped ns
  | call n, ls => go (Grammar.production n) ls
  | attempt first l other, ls =>
    match go first ls with
    | .failed _ _ => go other ls
    | .done cs taken rest => if l.holds rest then .done cs taken rest else go other ls

theorem progresses_separated {item : Rule} (h : item.progresses = true) (t : Terminal) :
    (separated item t).progresses = true := by
  simpa [separated, progresses, takes, Lookahead.holds, Lookahead.nextIn] using h

theorem callsFirst_separated (item : Rule) (t : Terminal) (known : Option Lookahead) :
    (separated item t).callsFirst known = false := by
  simp [separated, callsFirst, takes]

/-! ### Bounds that are large enough -/

/-- That a bound is enough for a rule with some lexemes ahead: it bounds them, and it is more
than that if the rule may call another one at once. -/
structure Enough (bound : Nat) (r : Rule) (known : Option Lookahead) (ls : List Lexeme) : Prop where
  length_le : ls.length ≤ bound
  length_lt : r.callsFirst known = true → ls.length < bound

/-- What is known behind lexemes that have been taken, if anything: what was known in front. -/
def knownBeyond (us : List Lexeme) (known : Option Lookahead) : Option Lookahead :=
  if us = [] then known else none

theorem holds_knownBeyond {us rest : List Lexeme} {known : Option Lookahead}
    (h : ∀ l ∈ known, l.holds (us ++ rest) = true) :
    ∀ l ∈ knownBeyond us known, l.holds rest = true := by
  unfold knownBeyond
  split
  · next hus =>
      subst hus
      exact h
  · exact holds_none rest

namespace Enough

variable {bound : Nat} {r s : Rule} {known known' : Option Lookahead} {us ls rest : List Lexeme}

/-- A bound that is more than the number of lexemes is enough for any rule. -/
theorem of_lt (h : ls.length < bound) : Enough bound r known ls := ⟨Nat.le_of_lt h, fun _ => h⟩

theorem of_imp (h : Enough bound r known ls)
    (himp : s.callsFirst known' = true → r.callsFirst known = true) : Enough bound s known' ls :=
  ⟨h.length_le, fun hc => h.length_lt (himp hc)⟩

/-- Behind lexemes that have been taken the bound is enough for any rule. -/
theorem behind (h : Enough bound r known (us ++ rest))
    (himp : us = [] → s.callsFirst known = true → r.callsFirst known = true) :
    Enough bound s (knownBeyond us known) rest := by
  cases us with
  | nil => exact h.of_imp (himp rfl)
  | cons u us =>
      have hle := h.length_le
      rw [List.cons_append, List.length_cons, List.length_append] at hle
      exact of_lt (by omega)

end Enough

end Rule

/-- Two ways to go on behind a success agree if they do so where they are used. -/
theorem Outcome.andThen_congr {o o' : Outcome} {next next' : List Lexeme → Outcome} (h : o = o')
    (hnext : ∀ ns us rest, o' = .done ns us rest → next rest = next' rest) :
    o.andThen next = o'.andThen next' := by
  subst h
  cases o with
  | failed e rest => rfl
  | done ns us rest => rw [andThen, andThen, hnext ns us rest rfl]

/-- That two bounds give the same outcome of a rule wherever they are enough. -/
def Rule.Steady (depth depth' : Nat) (r : Rule) : Prop :=
  ∀ (known : Option Lookahead) (ls : List Lexeme), Enough depth r known ls →
    Enough depth' r known ls → (∀ l ∈ known, l.holds ls = true) →
      r.parseWith (Nonterminal.parseTo depth) depth ls =
        r.parseWith (Nonterminal.parseTo depth') depth' ls

namespace Rule.Steady

variable {depth depth' : Nat} {r s : Rule}

/-- What a rule has taken where a bound is enough for it. -/
theorem run_of_eq_done (hr : r.progresses = true) {known : Option Lookahead}
    {ls us rest : List Lexeme} {ns : List Tree} (he : Enough depth r known ls)
    (hk : ∀ l ∈ known, l.holds ls = true)
    (h : r.parseWith (Nonterminal.parseTo depth) depth ls = .done ns us rest) :
    ls = us ++ rest ∧ ∃ cs, Run r us rest cs := by
  have hsound : SoundAt depth r := SoundAt.of_calls (.call depth) hr
  obtain ⟨hsplit, cs, -, run⟩ := hsound he.length_le hk he.length_lt h
  exact ⟨hsplit, cs, run⟩

/-- Going on with a rule behind another one, which calls no rule before it has taken a lexeme
unless both do. -/
theorem behind (hprog : r.progresses = true) (hs : Steady depth depth' s) {whole : Rule}
    {known : Option Lookahead} {ls us rest : List Lexeme} {ns : List Tree}
    (he : Enough depth whole known ls) (he' : Enough depth' whole known ls)
    (hk : ∀ l ∈ known, l.holds ls = true)
    (hfirst : r.callsFirst known = true → whole.callsFirst known = true)
    (hthen : r.takes known = false → s.callsFirst known = true → whole.callsFirst known = true)
    (h : r.parseWith (Nonterminal.parseTo depth') depth' ls = .done ns us rest) :
    s.parseWith (Nonterminal.parseTo depth) depth rest =
      s.parseWith (Nonterminal.parseTo depth') depth' rest := by
  obtain ⟨rfl, cs, run⟩ := run_of_eq_done hprog (he'.of_imp hfirst) hk h
  have himp : us = [] → s.callsFirst known = true → whole.callsFirst known = true := by
    rintro rfl hc
    exact hthen (run.takes_eq_false hk) hc
  exact hs _ _ (he.behind himp) (he'.behind himp) (holds_knownBeyond hk)

theorem seq (hprog : r.progresses = true) (hr : Steady depth depth' r)
    (hs : Steady depth depth' s) : Steady depth depth' (.seq r s) := by
  intro known ls he he' hk
  have hfirst : r.callsFirst known = true → (Rule.seq r s).callsFirst known = true :=
    fun hc => by simp [callsFirst, hc]
  have hthen : r.takes known = false → s.callsFirst known = true →
      (Rule.seq r s).callsFirst known = true :=
    fun ht hc => by simp [callsFirst, ht, hc]
  rw [parseWith, parseWith]
  apply Outcome.andThen_congr (hr _ _ (he.of_imp hfirst) (he'.of_imp hfirst) hk)
  intro ns us rest h
  exact hs.behind hprog he he' hk hfirst hthen h

theorem branch {l : Lookahead} {y n : Rule} (hy : Steady depth depth' y)
    (hn : Steady depth depth' n) : Steady depth depth' (.branch l y n) := by
  intro known ls he he' hk
  rw [parseWith, parseWith]
  split
  case isTrue hl =>
    have himp : y.callsFirst (some l) = true → (Rule.branch l y n).callsFirst known = true :=
      fun hc => by simp [callsFirst, hc]
    exact hy _ _ (he.of_imp himp) (he'.of_imp himp) (holds_some hl)
  case isFalse hl =>
    have himp : n.callsFirst known = true → (Rule.branch l y n).callsFirst known = true :=
      fun hc => by simp [callsFirst, hc]
    exact hn _ _ (he.of_imp himp) (he'.of_imp himp) hk

/-- Repetitions with two bounds of their own, which both are enough. -/
theorem parseMany {l : Lookahead} {b : Rule} (hprog : (Rule.many l b).progresses = true)
    (hb : Steady depth depth' b) {fuel fuel' : Nat} {ls : List Lexeme} (hfuel : ls.length ≤ fuel)
    (hfuel' : ls.length ≤ fuel') (he : Enough depth b (some l) ls)
    (he' : Enough depth' b (some l) ls) :
    Rule.parseMany l (b.parseWith (Nonterminal.parseTo depth) depth) fuel ls =
      Rule.parseMany l (b.parseWith (Nonterminal.parseTo depth') depth') fuel' ls := by
  simp only [progresses, Bool.and_eq_true, Bool.not_eq_true'] at hprog
  obtain ⟨⟨ht, hnil⟩, hbody⟩ := hprog
  have hend : ∀ step fuel, Rule.parseMany l step fuel [] = .done [] [] [] := by
    intro step fuel
    cases fuel <;> simp [Rule.parseMany, hnil]
  induction fuel generalizing fuel' ls with
  | zero =>
      obtain rfl : ls = [] := List.eq_nil_of_length_eq_zero (by omega)
      rw [hend, hend]
  | succ fuel ih =>
      cases fuel' with
      | zero =>
          obtain rfl : ls = [] := List.eq_nil_of_length_eq_zero (by omega)
          rw [hend, hend]
      | succ fuel' =>
          rw [Rule.parseMany, Rule.parseMany]
          split
          case isFalse => rfl
          case isTrue hl =>
            apply Outcome.andThen_congr (hb _ _ he he' (holds_some hl))
            intro ns us rest h
            obtain ⟨rfl, cs, run⟩ := run_of_eq_done hbody he' (holds_some hl) h
            have hpos := List.length_pos_iff.mpr (run.taken_ne_nil (holds_some hl) ht)
            have hle := he.length_le
            have hle' := he'.length_le
            rw [List.length_append] at hfuel hfuel' hle hle'
            exact ih (by omega) (by omega) (.of_lt (by omega)) (.of_lt (by omega))

theorem many {l : Lookahead} {b : Rule} (hprog : (Rule.many l b).progresses = true)
    (hb : Steady depth depth' b) : Steady depth depth' (.many l b) := by
  intro known ls he he' _
  exact parseMany hprog hb he.length_le he'.length_le (he.of_imp id) (he'.of_imp id)

theorem token (t : Terminal) (e : Expectation) : Steady depth depth' (.token t e) :=
  fun _ _ _ _ _ => rfl

theorem sepBy {item : Rule} {t : Terminal} (hprog : item.progresses = true)
    (hi : Steady depth depth' item) : Steady depth depth' (.sepBy item t) := by
  intro known ls he he' hk
  have hmore : Steady depth depth' (separated item t) :=
    many (progresses_separated hprog t) (seq rfl (token t _) hi)
  rw [parseWith, parseWith]
  apply Outcome.andThen_congr (hi _ _ (he.of_imp id) (he'.of_imp id) hk)
  intro ns us rest h
  exact hmore.behind hprog he he' hk id
    (fun _ hc => by rw [callsFirst_separated] at hc; exact Bool.noConfusion hc) h

theorem wrap {sh : Shape} (hr : Steady depth depth' r) : Steady depth depth' (.wrap sh r) := by
  intro known ls he he' hk
  rw [parseWith, parseWith, hr _ _ (he.of_imp id) (he'.of_imp id) hk]

theorem fork {l : Lookahead} {ys ns : Shape} {y n : Rule} (hprog : r.progresses = true)
    (hr : Steady depth depth' r) (hy : Steady depth depth' y) (hn : Steady depth depth' n) :
    Steady depth depth' (.fork r l ys y ns n) := by
  intro known ls he he' hk
  have hfirst : r.callsFirst known = true → (Rule.fork r l ys y ns n).callsFirst known = true :=
    fun hc => by simp [callsFirst, hc]
  rw [parseWith, parseWith, hr _ _ (he.of_imp hfirst) (he'.of_imp hfirst) hk]
  cases h : r.parseWith (Nonterminal.parseTo depth') depth' ls with
  | failed e rest => rfl
  | done cs us rest =>
      simp only
      split
      · congr 1
        refine Outcome.andThen_congr rfl fun _ _ _ hdone => ?_
        obtain ⟨-, -, rfl⟩ := Outcome.done.inj hdone
        exact hy.behind hprog he he' hk hfirst (fun ht hc => by simp [callsFirst, ht, hc]) h
      · congr 1
        refine Outcome.andThen_congr rfl fun _ _ _ hdone => ?_
        obtain ⟨-, -, rfl⟩ := Outcome.done.inj hdone
        exact hn.behind hprog he he' hk hfirst (fun ht hc => by simp [callsFirst, ht, hc]) h

theorem attempt {l : Lookahead} (hr : Steady depth depth' r) (hs : Steady depth depth' s) :
    Steady depth depth' (.attempt r l s) := by
  intro known ls he he' hk
  have hfirst : r.callsFirst known = true → (Rule.attempt r l s).callsFirst known = true :=
    fun hc => by simp [callsFirst, hc]
  have hother : s.callsFirst known = true → (Rule.attempt r l s).callsFirst known = true :=
    fun hc => by simp [callsFirst, hc]
  rw [parseWith, parseWith, hr _ _ (he.of_imp hfirst) (he'.of_imp hfirst) hk,
    hs _ _ (he.of_imp hother) (he'.of_imp hother) hk]

/-- What holds of the rules that are called by name holds of every rule. -/
theorem of_calls (hcalls : ∀ n, Steady depth depth' (.call n)) (hr : r.progresses = true) :
    Steady depth depth' r := by
  induction r with
  | empty => exact fun _ _ _ _ _ => rfl
  | token t e => exact token t e
  | demand l e => exact fun _ _ _ _ _ => rfl
  | call n => exact hcalls n
  | seq r s ihr ihs =>
      obtain ⟨hr, hs⟩ := Bool.and_eq_true_iff.mp hr
      exact seq hr (ihr hr) (ihs hs)
  | branch l y n ihy ihn =>
      obtain ⟨hy, hn⟩ := Bool.and_eq_true_iff.mp hr
      exact branch (ihy hy) (ihn hn)
  | many l b ih => exact many hr (ih (Bool.and_eq_true_iff.mp hr).2)
  | sepBy item t ih =>
      have hitem : item.progresses = true := hr
      exact sepBy hitem (ih hitem)
  | wrap sh b ih => exact wrap (ih hr)
  | fork r l ys y ns n ihr ihy ihn =>
      simp only [progresses, Bool.and_eq_true] at hr
      exact fork hr.1.1 (ihr hr.1.1) (ihy hr.1.2) (ihn hr.2)
  | attempt r l s ihr ihs =>
      obtain ⟨hr, hs⟩ := Bool.and_eq_true_iff.mp hr
      exact attempt (ihr hr) (ihs hs)

theorem call (depth depth' : Nat) (n : Nonterminal) : Steady depth depth' (.call n) := by
  induction depth generalizing depth' n with
  | zero => exact fun _ _ he _ _ => absurd (he.length_lt rfl) (Nat.not_lt_zero _)
  | succ depth ih =>
      cases depth' with
      | zero => exact fun _ _ _ he' _ => absurd (he'.length_lt rfl) (Nat.not_lt_zero _)
      | succ depth' =>
          intro known ls he he' _
          have hnone : ∀ {bound}, ls.length < bound + 1 →
              Enough bound (Grammar.production n) none ls := fun h =>
            ⟨Nat.le_of_lt_succ h, fun hc => by
              rw [Grammar.callsFirst_production n] at hc; exact Bool.noConfusion hc⟩
          have hprod : Steady depth depth' (Grammar.production n) :=
            of_calls (ih depth') (Grammar.progresses_production n)
          exact hprod _ _ (hnone (he.length_lt rfl)) (hnone (he'.length_lt rfl)) (holds_none ls)

end Rule.Steady

/-! ### Parsing as a fixed point -/

namespace Rule

/-- Any bound above the number of lexemes gives the outcome of a rule. -/
theorem parseWith_eq_parse {r : Rule} (hr : r.progresses = true) {bound : Nat} {ls : List Lexeme}
    (h : ls.length < bound) : r.parseWith (Nonterminal.parseTo bound) bound ls = r.parse ls := by
  have hsteady : Steady bound (ls.length + 1) r := Steady.of_calls (Steady.call _ _) hr
  exact hsteady none ls (.of_lt h) (.of_lt (Nat.lt_succ_self _)) (holds_none ls)

/-- What a success leaves is no longer than what was ahead. -/
theorem length_rest_le {r : Rule} (hr : r.progresses = true) {ls us rest : List Lexeme}
    {ns : List Tree} (h : r.parse ls = .done ns us rest) : rest.length ≤ ls.length := by
  obtain ⟨rfl, -⟩ := Run.of_parse hr h
  simp

/-- **Parsing is a fixed point of the step without bounds.** -/
theorem parse_eq {r : Rule} (hr : r.progresses = true) (ls : List Lexeme) :
    r.parse ls = r.parseBy parse ls := by
  have hsub : ∀ {s : Rule}, s.progresses = true → ∀ {us : List Lexeme}, us.length ≤ ls.length →
      s.parseWith (Nonterminal.parseTo (ls.length + 1)) (ls.length + 1) us = s.parse us :=
    fun hs _ hle => parseWith_eq_parse hs (Nat.lt_succ_of_le hle)
  cases r with
  | empty | token | demand => rfl
  | seq r s =>
      obtain ⟨hr, hs⟩ := Bool.and_eq_true_iff.mp hr
      rw [parse, parseWith, parseBy]
      apply Outcome.andThen_congr (hsub hr (Nat.le_refl _))
      exact fun _ _ _ h => hsub hs (length_rest_le hr h)
  | branch l y n =>
      obtain ⟨hy, hn⟩ := Bool.and_eq_true_iff.mp hr
      rw [parse, parseWith, parseBy, hsub hy (Nat.le_refl _), hsub hn (Nat.le_refl _)]
  | many l b =>
      have hb := (Bool.and_eq_true_iff.mp hr).2
      rw [parse, parseWith, parseMany, parseBy]
      split
      case isFalse => rfl
      case isTrue hl =>
        apply Outcome.andThen_congr (hsub hb (Nat.le_refl _))
        intro _ _ rest h
        have hle := length_rest_le hb h
        have hsteady : Steady (ls.length + 1) (rest.length + 1) b :=
          Steady.of_calls (Steady.call _ _) hb
        exact hsteady.parseMany hr hle (Nat.le_succ _) (.of_lt (by omega)) (.of_lt (by omega))
  | sepBy item t =>
      have hitem : item.progresses = true := hr
      rw [parse, parseWith, parseBy]
      apply Outcome.andThen_congr (hsub hitem (Nat.le_refl _))
      exact fun _ _ _ h => hsub (progresses_separated hitem t) (length_rest_le hitem h)
  | wrap s b =>
      have hb : b.progresses = true := hr
      rw [parse, parseWith, parseBy, hsub hb (Nat.le_refl _)]
  | fork first l ys y ns n =>
      simp only [progresses, Bool.and_eq_true] at hr
      obtain ⟨⟨hfirst, hy⟩, hn⟩ := hr
      rw [parse, parseWith, parseBy, hsub hfirst (Nat.le_refl _)]
      cases h : first.parse ls with
      | failed e rest => rfl
      | done cs us rest =>
          have hle := length_rest_le hfirst h
          simp only [Outcome.andThen, hsub hy hle, hsub hn hle]
  | call n =>
      -- one more level of calls is the bound that the production itself is parsed with
      have hsteady : Steady (ls.length + 1) (ls.length + 2) (.call n) := Steady.call _ _ n
      exact hsteady none ls (.of_lt (by omega)) (.of_lt (by omega)) (holds_none ls)
  | attempt first l other =>
      obtain ⟨hfirst, hother⟩ := Bool.and_eq_true_iff.mp hr
      rewrite [parse, parseWith, parseBy, hsub hfirst (Nat.le_refl _), hsub hother (Nat.le_refl _)]
      cases first.parse ls <;> rfl

end Rule

end BindCheck

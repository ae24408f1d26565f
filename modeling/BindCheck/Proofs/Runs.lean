import BindCheck.Grammar.Parser

/-!
# BindCheck.Proofs.Runs

**Successful parses as a relation, without bounds.** `Run r us vs cs` says that the rule
`r`, with the lexemes `us ++ vs` ahead, takes `us`, leaves `vs` and finds the nodes `cs`;
each node keeps the lexemes that it is over, which a `Tree` only keeps as a text.

What is shown of runs is shown by induction on runs. The two bridges to the parser are

* `Run.of_parse`: every success is a run;
* `Run.parse`: every run of a rule that does not go back is a success.

Why the bounds of the parser do not cut a run short: each repetition takes a lexeme
(`Rule.progresses`), and so does each rule before it calls another one by name
(`Rule.callsFirst`). Both are questions about the text of the grammar.
-/

namespace BindCheck

/-! ### Nodes with their lexemes -/

/-- A tree whose nodes still hold the lexemes that they are over. -/
structure Cover where
  kind : NodeKind
  own : List Lexeme
  children : List Cover

namespace Cover

mutual

/-- The tree that a cover is of. -/
def tree : Cover → Tree
  | ⟨k, us, cs⟩ => Tree.over k us (trees cs)

/-- The trees that several covers are of. -/
def trees : List Cover → List Tree
  | [] => []
  | c :: cs => c.tree :: trees cs

end

theorem trees_eq_map (cs : List Cover) : trees cs = cs.map tree := by
  induction cs with
  | nil => rfl
  | cons c cs ih => rw [trees, ih, List.map_cons]

@[simp] theorem tree_kind (c : Cover) : c.tree.kind = c.kind := by
  cases c; rfl

@[simp] theorem tree_text (c : Cover) : c.tree.text = Lexeme.join c.own := by
  cases c; rfl

@[simp] theorem tree_children (c : Cover) : c.tree.children = c.children.map tree := by
  cases c
  rw [tree, trees_eq_map]
  rfl

mutual

/-- All nodes, in the order of the text. -/
def nodes : Cover → List Cover
  | ⟨k, us, cs⟩ => ⟨k, us, cs⟩ :: nodesAll cs

/-- All nodes of several covers. -/
def nodesAll : List Cover → List Cover
  | [] => []
  | c :: cs => c.nodes ++ nodesAll cs

end

end Cover

/-- Gives nodes their shape over the lexemes that they were found in. -/
def Shape.cover (s : Shape) (us : List Lexeme) (cs : List Cover) : List Cover :=
  match s with
  | bare => cs
  | node k => [⟨k, us, cs⟩]
  | ifMany k => if 1 < cs.length then [⟨k, us, cs⟩] else cs

theorem Shape.map_tree_cover (s : Shape) (us : List Lexeme) (cs : List Cover) :
    (s.cover us cs).map Cover.tree = s.apply us (cs.map Cover.tree) := by
  cases s with
  | bare => rfl
  | node k => simp [cover, apply, Cover.tree, Cover.trees_eq_map]
  | ifMany k =>
      by_cases h : 1 < cs.length <;> simp [cover, apply, h, Cover.tree, Cover.trees_eq_map]

/-! ### Runs -/

/-- With `us ++ vs` ahead a rule takes `us`, leaves `vs` and finds `cs`. Of `attempt` the
relation does not say when the other rule is used. -/
inductive Run : Rule → List Lexeme → List Lexeme → List Cover → Prop where
  | empty {vs : List Lexeme} : Run .empty [] vs []
  | token {t : Terminal} {e : Expectation} {l : Lexeme} {vs : List Lexeme}
      (accepts : t.accepts l.token = true) : Run (.token t e) [l] vs []
  | demand {l : Lookahead} {e : Expectation} {vs : List Lexeme} (holds : l.holds vs = true) :
      Run (.demand l e) [] vs []
  | seq {r s : Rule} {us us' vs : List Lexeme} {cs cs' : List Cover}
      (first : Run r us (us' ++ vs) cs) (second : Run s us' vs cs') :
      Run (.seq r s) (us ++ us') vs (cs ++ cs')
  | yes {l : Lookahead} {y n : Rule} {us vs : List Lexeme} {cs : List Cover}
      (holds : l.holds (us ++ vs) = true) (run : Run y us vs cs) : Run (.branch l y n) us vs cs
  | no {l : Lookahead} {y n : Rule} {us vs : List Lexeme} {cs : List Cover}
      (fails : l.holds (us ++ vs) = false) (run : Run n us vs cs) : Run (.branch l y n) us vs cs
  | done {l : Lookahead} {b : Rule} {vs : List Lexeme} (fails : l.holds vs = false) :
      Run (.many l b) [] vs []
  | step {l : Lookahead} {b : Rule} {us us' vs : List Lexeme} {cs cs' : List Cover}
      (holds : l.holds (us ++ (us' ++ vs)) = true) (first : Run b us (us' ++ vs) cs)
      (more : Run (.many l b) us' vs cs') : Run (.many l b) (us ++ us') vs (cs ++ cs')
  | sepBy {item : Rule} {t : Terminal} {us us' vs : List Lexeme} {cs cs' : List Cover}
      (first : Run item us (us' ++ vs) cs)
      (more : Run (.many (.next [t]) (.seq (.token t (.terminal t)) item)) us' vs cs') :
      Run (.sepBy item t) (us ++ us') vs (cs ++ cs')
  | wrap {s : Shape} {b : Rule} {us vs : List Lexeme} {cs : List Cover} (run : Run b us vs cs) :
      Run (.wrap s b) us vs (s.cover us cs)
  | forkYes {first y n : Rule} {l : Lookahead} {ys ns : Shape} {us us' vs : List Lexeme}
      {cs cs' : List Cover} (run : Run first us (us' ++ vs) cs)
      (holds : l.holds (us' ++ vs) = true) (more : Run y us' vs cs') :
      Run (.fork first l ys y ns n) (us ++ us') vs (ys.cover (us ++ us') (cs ++ cs'))
  | forkNo {first y n : Rule} {l : Lookahead} {ys ns : Shape} {us us' vs : List Lexeme}
      {cs cs' : List Cover} (run : Run first us (us' ++ vs) cs)
      (fails : l.holds (us' ++ vs) = false) (more : Run n us' vs cs') :
      Run (.fork first l ys y ns n) (us ++ us') vs (ns.cover (us ++ us') (cs ++ cs'))
  | call {n : Nonterminal} {us vs : List Lexeme} {cs : List Cover}
      (run : Run (Grammar.production n) us vs cs) : Run (.call n) us vs cs
  | attemptFirst {first other : Rule} {l : Lookahead} {us vs : List Lexeme} {cs : List Cover}
      (run : Run first us vs cs) (holds : l.holds vs = true) : Run (.attempt first l other) us vs cs
  | attemptOther {first other : Rule} {l : Lookahead} {us vs : List Lexeme} {cs : List Cover}
      (run : Run other us vs cs) : Run (.attempt first l other) us vs cs

/-! ### What a run of each rule consists of -/

namespace Run

variable {r s y n b first item : Rule} {l : Lookahead} {t : Terminal} {e : Expectation}
  {us vs : List Lexeme} {cs : List Cover}

theorem empty_iff : Run .empty us vs cs ↔ us = [] ∧ cs = [] := by
  constructor
  · intro h
    obtain ⟨⟩ := h
    exact ⟨rfl, rfl⟩
  · intro h
    obtain ⟨rfl, rfl⟩ := h
    exact .empty

theorem token_iff :
    Run (.token t e) us vs cs ↔ ∃ l, us = [l] ∧ t.accepts l.token = true ∧ cs = [] := by
  constructor
  · intro h
    obtain ⟨h⟩ := h
    exact ⟨_, rfl, by assumption, rfl⟩
  · intro h
    obtain ⟨l, rfl, h, rfl⟩ := h
    exact .token h

theorem demand_iff : Run (.demand l e) us vs cs ↔ us = [] ∧ l.holds vs = true ∧ cs = [] := by
  constructor
  · intro h
    obtain ⟨h⟩ := h
    exact ⟨rfl, by assumption, rfl⟩
  · intro h
    obtain ⟨rfl, h, rfl⟩ := h
    exact .demand h

theorem seq_iff :
    Run (.seq r s) us vs cs ↔ ∃ us₁ us₂ cs₁ cs₂, us = us₁ ++ us₂ ∧ cs = cs₁ ++ cs₂ ∧
      Run r us₁ (us₂ ++ vs) cs₁ ∧ Run s us₂ vs cs₂ := by
  constructor
  · intro h
    cases h with
    | seq first second => exact ⟨_, _, _, _, rfl, rfl, first, second⟩
  · intro h
    obtain ⟨us₁, us₂, cs₁, cs₂, rfl, rfl, first, second⟩ := h
    exact .seq first second

theorem branch_iff :
    Run (.branch l y n) us vs cs ↔
      (l.holds (us ++ vs) = true ∧ Run y us vs cs) ∨
        l.holds (us ++ vs) = false ∧ Run n us vs cs := by
  constructor
  · intro h
    cases h with
    | yes holds run => exact .inl ⟨holds, run⟩
    | no fails run => exact .inr ⟨fails, run⟩
  · intro h
    rcases h with ⟨holds, run⟩ | ⟨fails, run⟩
    · exact .yes holds run
    · exact .no fails run

theorem many_iff :
    Run (.many l b) us vs cs ↔
      (us = [] ∧ cs = [] ∧ l.holds vs = false) ∨
        ∃ us₁ us₂ cs₁ cs₂, us = us₁ ++ us₂ ∧ cs = cs₁ ++ cs₂ ∧ l.holds (us ++ vs) = true ∧
          Run b us₁ (us₂ ++ vs) cs₁ ∧ Run (.many l b) us₂ vs cs₂ := by
  constructor
  · intro h
    cases h with
    | done fails => exact .inl ⟨rfl, rfl, fails⟩
    | step holds first more =>
        exact .inr ⟨_, _, _, _, rfl, rfl, by rwa [List.append_assoc], first, more⟩
  · intro h
    rcases h with ⟨rfl, rfl, fails⟩ | ⟨us₁, us₂, cs₁, cs₂, rfl, rfl, holds, first, more⟩
    · exact .done fails
    · exact .step (by rwa [List.append_assoc] at holds) first more

theorem sepBy_iff :
    Run (.sepBy item t) us vs cs ↔ ∃ us₁ us₂ cs₁ cs₂, us = us₁ ++ us₂ ∧ cs = cs₁ ++ cs₂ ∧
      Run item us₁ (us₂ ++ vs) cs₁ ∧
        Run (.many (.next [t]) (.seq (.token t (.terminal t)) item)) us₂ vs cs₂ := by
  constructor
  · intro h
    cases h with
    | sepBy first more => exact ⟨_, _, _, _, rfl, rfl, first, more⟩
  · intro h
    obtain ⟨us₁, us₂, cs₁, cs₂, rfl, rfl, first, more⟩ := h
    exact .sepBy first more

theorem wrap_iff {sh : Shape} :
    Run (.wrap sh b) us vs cs ↔ ∃ cs', cs = sh.cover us cs' ∧ Run b us vs cs' := by
  constructor
  · intro h
    cases h with
    | wrap run => exact ⟨_, rfl, run⟩
  · intro h
    obtain ⟨cs', rfl, run⟩ := h
    exact .wrap run

/-- A rule under a node finds just that node. -/
theorem node_iff {k : NodeKind} :
    Run (.node k b) us vs cs ↔ ∃ cs', cs = [⟨k, us, cs'⟩] ∧ Run b us vs cs' :=
  wrap_iff

theorem fork_iff {ys ns : Shape} :
    Run (.fork first l ys y ns n) us vs cs ↔ ∃ us₁ us₂ cs₁ cs₂, us = us₁ ++ us₂ ∧
      Run first us₁ (us₂ ++ vs) cs₁ ∧
        ((l.holds (us₂ ++ vs) = true ∧ Run y us₂ vs cs₂ ∧ cs = ys.cover us (cs₁ ++ cs₂)) ∨
          l.holds (us₂ ++ vs) = false ∧ Run n us₂ vs cs₂ ∧ cs = ns.cover us (cs₁ ++ cs₂)) := by
  constructor
  · intro h
    cases h with
    | forkYes run holds more => exact ⟨_, _, _, _, rfl, run, .inl ⟨holds, more, rfl⟩⟩
    | forkNo run fails more => exact ⟨_, _, _, _, rfl, run, .inr ⟨fails, more, rfl⟩⟩
  · intro h
    obtain ⟨us₁, us₂, cs₁, cs₂, rfl, run, ⟨holds, more, rfl⟩ | ⟨fails, more, rfl⟩⟩ := h
    · exact .forkYes run holds more
    · exact .forkNo run fails more

theorem call_iff {n : Nonterminal} :
    Run (.call n) us vs cs ↔ Run (Grammar.production n) us vs cs := by
  constructor
  · intro h
    obtain ⟨⟩ := h
    assumption
  · exact .call

end Run

/-! ### Rules that take a lexeme -/

namespace Rule

/-- Whether a named rule takes a lexeme for sure, which a look at its text can tell. Of
the two for queries it takes more than that, as a part may have no clauses. -/
def takesCall : Nonterminal → Bool
  | .singleQuery | .queryTail => false
  | .patternElement | .expression | .comparison | .sum | .unary => true

/-- Whether a rule takes a lexeme whenever it succeeds, given a lookahead that holds
where it starts. -/
def takes (known : Option Lookahead) : Rule → Bool
  | empty | demand _ _ => false
  | token _ _ => true
  | call n => takesCall n
  | seq r s => r.takes known || s.takes known
  | branch l y n => y.takes (some l) && n.takes known
  | many l b => known == some l && b.takes (some l)
  | sepBy item _ => item.takes known
  | wrap _ b => b.takes known
  | fork first _ _ y _ n => first.takes known || (y.takes known && n.takes known)
  | attempt first _ other => first.takes known && other.takes known

/-- Whether every repetition in a rule takes a lexeme each time. -/
def progresses : Rule → Bool
  | empty | token _ _ | demand _ _ | call _ => true
  | seq r s => r.progresses && s.progresses
  | branch _ y n => y.progresses && n.progresses
  | many l b => b.takes (some l) && !l.holds [] && b.progresses
  | sepBy item _ => item.progresses
  | wrap _ b => b.progresses
  | fork first _ _ y _ n => first.progresses && y.progresses && n.progresses
  | attempt first _ other => first.progresses && other.progresses

/-- Whether a rule may call another one by name before it has taken a lexeme, given a
lookahead that holds where it starts. -/
def callsFirst (known : Option Lookahead) : Rule → Bool
  | empty | token _ _ | demand _ _ => false
  | call _ => true
  | seq r s => r.callsFirst known || (!r.takes known && s.callsFirst known)
  | branch l y n => y.callsFirst (some l) || n.callsFirst known
  | many l b => b.callsFirst (some l)
  | sepBy item _ => item.callsFirst known
  | wrap _ b => b.callsFirst known
  | fork first _ _ y _ n =>
    first.callsFirst known || (!first.takes known && (y.callsFirst known || n.callsFirst known))
  | attempt first _ other => first.callsFirst known || other.callsFirst known

end Rule

theorem Grammar.takes_production {n : Nonterminal} (h : Rule.takesCall n = true) :
    (production n).takes none = true := by
  revert h
  cases n <;> decide

theorem Grammar.progresses_production (n : Nonterminal) : (production n).progresses = true := by
  cases n <;> decide

theorem Grammar.callsFirst_production (n : Nonterminal) :
    (production n).callsFirst none = false := by
  cases n <;> decide

/-- No lookahead is known. -/
theorem Rule.holds_none (ls : List Lexeme) : ∀ l ∈ (none : Option Lookahead), l.holds ls = true := by
  intro l hl
  exact absurd hl (Option.not_mem_none l)

/-- The lookahead that decided is known. -/
theorem Rule.holds_some {l : Lookahead} {ls : List Lexeme} (h : l.holds ls = true) :
    ∀ l' ∈ some l, l'.holds ls = true := by
  intro l' hl'
  rw [Option.mem_some_iff] at hl'
  exact hl' ▸ h

/-- A run of a rule that takes a lexeme has taken one. -/
theorem Run.taken_ne_nil {r : Rule} {us vs : List Lexeme} {cs : List Cover} (h : Run r us vs cs) :
    ∀ {known : Option Lookahead}, (∀ l ∈ known, l.holds (us ++ vs) = true) →
      r.takes known = true → us ≠ [] := by
  -- behind a rule that has taken nothing, the lookahead still holds
  have hseq : ∀ {known : Option Lookahead} {us us' vs : List Lexeme},
      (∀ l ∈ known, l.holds (us ++ us' ++ vs) = true) →
        ((∀ l ∈ known, l.holds (us' ++ vs) = true) → us' ≠ []) → us ++ us' ≠ [] := by
    intro known us us' vs hk h
    cases us with
    | nil => exact h (by simpa using hk)
    | cons l us => exact List.cons_ne_nil _ _
  induction h with
  | empty | demand => intro known _ ht; exact absurd ht Bool.false_ne_true
  | token => intro known _ _; exact List.cons_ne_nil _ _
  | seq first second ih₁ ih₂ =>
      intro known hk ht
      rw [Rule.takes, Bool.or_eq_true] at ht
      rcases ht with ht | ht
      · exact List.append_ne_nil_of_left_ne_nil (ih₁ (by simpa using hk) ht) _
      · exact hseq hk fun hk' => ih₂ hk' ht
  | yes holds run ih =>
      intro known hk ht
      rw [Rule.takes, Bool.and_eq_true] at ht
      exact ih (by simpa using holds) ht.1
  | no fails run ih =>
      intro known hk ht
      rw [Rule.takes, Bool.and_eq_true] at ht
      exact ih hk ht.2
  | done fails =>
      intro known hk ht
      simp only [Rule.takes, Bool.and_eq_true, beq_iff_eq] at ht
      obtain ⟨rfl, -⟩ := ht
      have := hk _ rfl
      rw [List.nil_append, fails] at this
      exact absurd this Bool.false_ne_true
  | step holds first more ih₁ ih₂ =>
      intro known hk ht
      simp only [Rule.takes, Bool.and_eq_true, beq_iff_eq] at ht
      exact List.append_ne_nil_of_left_ne_nil (ih₁ (by simpa using holds) ht.2) _
  | sepBy first more ih₁ ih₂ =>
      intro known hk ht
      exact List.append_ne_nil_of_left_ne_nil (ih₁ (by simpa using hk) ht) _
  | wrap run ih => intro known hk ht; exact ih hk ht
  | forkYes run holds more ih₁ ih₂ =>
      intro known hk ht
      rw [Rule.takes, Bool.or_eq_true, Bool.and_eq_true] at ht
      rcases ht with ht | ht
      · exact List.append_ne_nil_of_left_ne_nil (ih₁ (by simpa using hk) ht) _
      · exact hseq hk fun hk' => ih₂ hk' ht.1
  | forkNo run fails more ih₁ ih₂ =>
      intro known hk ht
      rw [Rule.takes, Bool.or_eq_true, Bool.and_eq_true] at ht
      rcases ht with ht | ht
      · exact List.append_ne_nil_of_left_ne_nil (ih₁ (by simpa using hk) ht) _
      · exact hseq hk fun hk' => ih₂ hk' ht.2
  | call run ih =>
      intro known hk ht
      exact ih (Rule.holds_none _) (Grammar.takes_production ht)
  | attemptFirst run holds ih =>
      intro known hk ht
      rw [Rule.takes, Bool.and_eq_true] at ht
      exact ih hk ht.1
  | attemptOther run ih =>
      intro known hk ht
      rw [Rule.takes, Bool.and_eq_true] at ht
      exact ih hk ht.2

/-- A rule that has taken nothing need not take anything. -/
theorem Run.takes_eq_false {r : Rule} {vs : List Lexeme} {cs : List Cover} (h : Run r [] vs cs)
    {known : Option Lookahead} (hk : ∀ l ∈ known, l.holds vs = true) : r.takes known = false :=
  Bool.eq_false_iff.mpr fun ht => h.taken_ne_nil hk ht rfl

/-! ### Successes are runs -/

theorem Outcome.andThen_eq_done {o : Outcome} {next : List Lexeme → Outcome} {ns : List Tree}
    {us rest : List Lexeme} (h : o.andThen next = .done ns us rest) :
    ∃ ns₁ us₁ rest₁ ns₂ us₂, o = .done ns₁ us₁ rest₁ ∧ next rest₁ = .done ns₂ us₂ rest ∧
      ns = ns₁ ++ ns₂ ∧ us = us₁ ++ us₂ := by
  cases o with
  | failed e rest' => simp [andThen] at h
  | done ns₁ us₁ rest₁ =>
      simp only [andThen] at h
      split at h
      · simp at h
      · next ns₂ us₂ rest₂ hnext =>
          simp only [done.injEq] at h
          obtain ⟨rfl, rfl, rfl⟩ := h
          exact ⟨ns₁, us₁, rest₁, ns₂, us₂, rfl, hnext, rfl, rfl⟩

theorem Outcome.shaped_eq_done {o : Outcome} {s : Shape} {ns : List Tree} {us rest : List Lexeme}
    (h : o.shaped s = .done ns us rest) :
    ∃ ns₁, o = .done ns₁ us rest ∧ ns = s.apply us ns₁ := by
  cases o with
  | failed e rest' => simp [shaped] at h
  | done ns₁ us₁ rest₁ =>
      simp only [shaped, done.injEq] at h
      obtain ⟨rfl, rfl, rfl⟩ := h
      exact ⟨ns₁, rfl, rfl⟩

/-- What is found behind a success, with the shape that is made of both. -/
theorem Outcome.shaped_andThen_eq_done {next : List Lexeme → Outcome} {s : Shape}
    {ns₁ ns : List Tree} {us₁ us rest₁ rest : List Lexeme}
    (h : ((Outcome.done ns₁ us₁ rest₁).andThen next).shaped s = .done ns us rest) :
    ∃ ns₂ us₂, next rest₁ = .done ns₂ us₂ rest ∧ us = us₁ ++ us₂ ∧
      ns = s.apply us (ns₁ ++ ns₂) := by
  obtain ⟨_, hboth, rfl⟩ := shaped_eq_done h
  obtain ⟨_, _, _, ns₂, us₂, hfirst, hnext, rfl, rfl⟩ := andThen_eq_done hboth
  rw [done.injEq] at hfirst
  obtain ⟨rfl, rfl, rfl⟩ := hfirst
  exact ⟨ns₂, us₂, hnext, rfl, rfl⟩

/-- At a depth, the successes of a rule are runs of it. With `depth` lexemes ahead the rule
must not call another one before it has taken one. -/
def Rule.SoundAt (depth : Nat) (r : Rule) : Prop :=
  ∀ {known : Option Lookahead} {ls us rest : List Lexeme} {ns : List Tree},
    ls.length ≤ depth → (∀ l ∈ known, l.holds ls = true) →
    (r.callsFirst known = true → ls.length < depth) →
    r.parseWith (Nonterminal.parseTo depth) depth ls = .done ns us rest →
    ls = us ++ rest ∧ ∃ cs : List Cover, ns = cs.map Cover.tree ∧ Run r us rest cs

namespace Rule.SoundAt

variable {depth : Nat} {r s : Rule}

theorem empty : SoundAt depth .empty := by
  intro known ls us rest ns _ _ _ h
  obtain ⟨rfl, rfl, rfl⟩ := Outcome.done.inj h
  exact ⟨rfl, [], rfl, .empty⟩

theorem token (t : Terminal) (e : Expectation) : SoundAt depth (.token t e) := by
  intro known ls us rest ns _ _ _ h
  change parseToken t e ls = .done ns us rest at h
  cases ls with
  | nil => simp [parseToken] at h
  | cons l ls =>
      rw [parseToken] at h
      split at h
      · next ht =>
          rw [Outcome.done.injEq] at h
          obtain ⟨rfl, rfl, rfl⟩ := h
          exact ⟨rfl, [], rfl, .token ht⟩
      · simp at h

theorem demand (l : Lookahead) (e : Expectation) : SoundAt depth (.demand l e) := by
  intro known ls us rest ns _ _ _ h
  change (if l.holds ls then Outcome.done [] [] ls else .failed e ls) = .done ns us rest at h
  split at h
  · next hl =>
      rw [Outcome.done.injEq] at h
      obtain ⟨rfl, rfl, rfl⟩ := h
      exact ⟨rfl, [], rfl, .demand hl⟩
  · simp at h

/-- A rule behind lexemes that have been taken; if there are none, the lookahead still
holds. -/
theorem behind (hs : SoundAt depth s) {known : Option Lookahead}
    {us₁ rest₁ us rest : List Lexeme} {ns : List Tree} (hlen : (us₁ ++ rest₁).length ≤ depth)
    (hk : ∀ l ∈ known, l.holds (us₁ ++ rest₁) = true)
    (hcall : us₁ = [] → s.callsFirst known = true → rest₁.length < depth)
    (h : s.parseWith (Nonterminal.parseTo depth) depth rest₁ = .done ns us rest) :
    rest₁ = us ++ rest ∧ ∃ cs : List Cover, ns = cs.map Cover.tree ∧ Run s us rest cs := by
  cases us₁ with
  | nil => exact hs hlen hk (hcall rfl) h
  | cons l us₁ =>
      simp only [List.cons_append, List.length_cons, List.length_append] at hlen
      exact hs (by omega) (holds_none _) (fun _ => by omega) h

theorem seq (hr : SoundAt depth r) (hs : SoundAt depth s) : SoundAt depth (.seq r s) := by
  intro known ls us rest ns hlen hk hcall h
  change (r.parseWith (Nonterminal.parseTo depth) depth ls).andThen
    (s.parseWith (Nonterminal.parseTo depth) depth) = .done ns us rest at h
  obtain ⟨ns₁, us₁, rest₁, ns₂, us₂, h₁, h₂, rfl, rfl⟩ := Outcome.andThen_eq_done h
  obtain ⟨rfl, cs₁, rfl, run₁⟩ := hr hlen hk (fun hc => hcall (by simp [callsFirst, hc])) h₁
  have hcall₂ : us₁ = [] → s.callsFirst known = true → rest₁.length < depth := by
    rintro rfl hc
    exact hcall (by simp [callsFirst, run₁.takes_eq_false hk, hc])
  obtain ⟨rfl, cs₂, rfl, run₂⟩ := hs.behind hlen hk hcall₂ h₂
  exact ⟨by rw [List.append_assoc], cs₁ ++ cs₂, by rw [List.map_append], .seq run₁ run₂⟩

theorem branch {l : Lookahead} {y n : Rule} (hy : SoundAt depth y) (hn : SoundAt depth n) :
    SoundAt depth (.branch l y n) := by
  intro known ls us rest ns hlen hk hcall h
  change (if l.holds ls then y.parseWith (Nonterminal.parseTo depth) depth ls
    else n.parseWith (Nonterminal.parseTo depth) depth ls) = .done ns us rest at h
  split at h
  case isTrue hl =>
    obtain ⟨rfl, cs, rfl, run⟩ :=
      hy hlen (holds_some hl) (fun hc => hcall (by simp [callsFirst, hc])) h
    exact ⟨rfl, cs, rfl, .yes hl run⟩
  case isFalse hl =>
    obtain ⟨rfl, cs, rfl, run⟩ := hn hlen hk (fun hc => hcall (by simp [callsFirst, hc])) h
    exact ⟨rfl, cs, rfl, .no (Bool.eq_false_iff.mpr hl) run⟩

theorem many {l : Lookahead} {b : Rule} (hb : SoundAt depth b) (ht : b.takes (some l) = true)
    (hnil : l.holds [] = false) (fuel : Nat) {ls us rest : List Lexeme} {ns : List Tree}
    (hfuel : ls.length ≤ fuel) (hlen : ls.length ≤ depth)
    (hcall : b.callsFirst (some l) = true → ls.length < depth)
    (h : parseMany l (b.parseWith (Nonterminal.parseTo depth) depth) fuel ls = .done ns us rest) :
    ls = us ++ rest ∧ ∃ cs : List Cover, ns = cs.map Cover.tree ∧ Run (.many l b) us rest cs := by
  induction fuel generalizing ls us rest ns with
  | zero =>
      have hls : ls = [] := List.eq_nil_of_length_eq_zero (by omega)
      subst hls
      rw [parseMany, Outcome.done.injEq] at h
      obtain ⟨rfl, rfl, rfl⟩ := h
      exact ⟨rfl, [], rfl, .done hnil⟩
  | succ fuel ih =>
      rw [parseMany] at h
      split at h
      case isTrue hl =>
        obtain ⟨ns₁, us₁, rest₁, ns₂, us₂, h₁, h₂, rfl, rfl⟩ := Outcome.andThen_eq_done h
        obtain ⟨rfl, cs₁, rfl, run₁⟩ := hb hlen (holds_some hl) hcall h₁
        have hne := run₁.taken_ne_nil (holds_some hl) ht
        have hpos := List.length_pos_iff.mpr hne
        rw [List.length_append] at hfuel hlen hcall
        obtain ⟨rfl, cs₂, rfl, run₂⟩ := ih (by omega) (by omega) (fun _ => by omega) h₂
        exact ⟨by rw [List.append_assoc], cs₁ ++ cs₂, by rw [List.map_append], .step hl run₁ run₂⟩
      case isFalse hl =>
        rw [Outcome.done.injEq] at h
        obtain ⟨rfl, rfl, rfl⟩ := h
        exact ⟨rfl, [], rfl, .done (Bool.eq_false_iff.mpr hl)⟩

theorem sepBy {item : Rule} {t : Terminal} (hi : SoundAt depth item) :
    SoundAt depth (.sepBy item t) := by
  intro known ls us rest ns hlen hk hcall h
  obtain ⟨ns₁, us₁, rest₁, ns₂, us₂, h₁, h₂, rfl, rfl⟩ := Outcome.andThen_eq_done h
  obtain ⟨rfl, cs₁, rfl, run₁⟩ := hi hlen hk hcall h₁
  have hstep : SoundAt depth (.seq (.token t (.terminal t)) item) := seq (token t _) hi
  rw [List.length_append] at hlen
  obtain ⟨rfl, cs₂, rfl, run₂⟩ := many hstep rfl rfl depth (by omega) (by omega)
    (fun hc => absurd hc (by simp [callsFirst, takes])) h₂
  exact ⟨by rw [List.append_assoc], cs₁ ++ cs₂, by rw [List.map_append], .sepBy run₁ run₂⟩

theorem wrap {sh : Shape} (hr : SoundAt depth r) : SoundAt depth (.wrap sh r) := by
  intro known ls us rest ns hlen hk hcall h
  change (r.parseWith (Nonterminal.parseTo depth) depth ls).shaped sh = .done ns us rest at h
  obtain ⟨ns₁, h₁, rfl⟩ := Outcome.shaped_eq_done h
  obtain ⟨rfl, cs, rfl, run⟩ := hr hlen hk hcall h₁
  exact ⟨rfl, sh.cover us cs, (sh.map_tree_cover us cs).symm, .wrap run⟩

theorem fork {l : Lookahead} {ys ns : Shape} {y n : Rule} (hr : SoundAt depth r)
    (hy : SoundAt depth y) (hn : SoundAt depth n) : SoundAt depth (.fork r l ys y ns n) := by
  intro known ls us rest nodes hlen hk hcall h
  unfold parseWith at h
  cases h₁ : r.parseWith (Nonterminal.parseTo depth) depth ls with
  | failed e rest₁ => simp [h₁] at h
  | done ns₁ us₁ rest₁ =>
      obtain ⟨rfl, cs₁, rfl, run₁⟩ := hr hlen hk (fun hc => hcall (by simp [callsFirst, hc])) h₁
      have hcall₂ : us₁ = [] → (y.callsFirst known || n.callsFirst known) = true →
          rest₁.length < depth := by
        rintro rfl hc
        exact hcall (by simp [callsFirst, run₁.takes_eq_false hk, hc])
      rw [h₁] at h
      simp only at h
      split at h
      case isTrue hl =>
        obtain ⟨_, us₂, h₂, rfl, rfl⟩ := Outcome.shaped_andThen_eq_done h
        obtain ⟨rfl, cs₂, rfl, run₂⟩ :=
          hy.behind hlen hk (fun hnil hc => hcall₂ hnil (by simp [hc])) h₂
        refine ⟨by rw [List.append_assoc], _, ?_, .forkYes run₁ hl run₂⟩
        rw [Shape.map_tree_cover, List.map_append]
      case isFalse hl =>
        obtain ⟨_, us₂, h₂, rfl, rfl⟩ := Outcome.shaped_andThen_eq_done h
        obtain ⟨rfl, cs₂, rfl, run₂⟩ :=
          hn.behind hlen hk (fun hnil hc => hcall₂ hnil (by simp [hc])) h₂
        refine ⟨by rw [List.append_assoc], _, ?_, .forkNo run₁ (Bool.eq_false_iff.mpr hl) run₂⟩
        rw [Shape.map_tree_cover, List.map_append]

theorem attempt {l : Lookahead} (hr : SoundAt depth r) (hs : SoundAt depth s) :
    SoundAt depth (.attempt r l s) := by
  intro known ls us rest ns hlen hk hcall h
  have other : s.parseWith (Nonterminal.parseTo depth) depth ls = .done ns us rest →
      ls = us ++ rest ∧ ∃ cs : List Cover, ns = cs.map Cover.tree ∧
        Run (.attempt r l s) us rest cs := by
    intro h
    obtain ⟨rfl, cs, rfl, run⟩ := hs hlen hk (fun hc => hcall (by simp [callsFirst, hc])) h
    exact ⟨rfl, cs, rfl, .attemptOther run⟩
  unfold parseWith at h
  split at h
  · exact other h
  · next ns₁ us₁ rest₁ h₁ =>
      split at h
      case isFalse => exact other h
      case isTrue hl =>
        rw [Outcome.done.injEq] at h
        obtain ⟨rfl, rfl, rfl⟩ := h
        obtain ⟨rfl, cs, rfl, run⟩ := hr hlen hk (fun hc => hcall (by simp [callsFirst, hc])) h₁
        exact ⟨rfl, cs, rfl, .attemptFirst run hl⟩

/-- What holds of the rules that are called by name holds of every rule. -/
theorem of_calls (hcalls : ∀ n, SoundAt depth (.call n)) (hr : r.progresses = true) :
    SoundAt depth r := by
  induction r with
  | empty => exact empty
  | token t e => exact token t e
  | demand l e => exact demand l e
  | call n => exact hcalls n
  | seq r s ihr ihs =>
      obtain ⟨hr, hs⟩ := Bool.and_eq_true_iff.mp hr
      exact seq (ihr hr) (ihs hs)
  | branch l y n ihy ihn =>
      obtain ⟨hy, hn⟩ := Bool.and_eq_true_iff.mp hr
      exact branch (ihy hy) (ihn hn)
  | many l b ih =>
      simp only [progresses, Bool.and_eq_true, Bool.not_eq_true'] at hr
      obtain ⟨⟨ht, hnil⟩, hb⟩ := hr
      intro known ls us rest ns hlen _ hcall h
      exact many (ih hb) ht hnil depth hlen hlen hcall h
  | sepBy item t ih => exact sepBy (ih hr)
  | wrap sh b ih => exact wrap (ih hr)
  | fork r l ys y ns n ihr ihy ihn =>
      simp only [progresses, Bool.and_eq_true] at hr
      exact fork (ihr hr.1.1) (ihy hr.1.2) (ihn hr.2)
  | attempt r l s ihr ihs =>
      obtain ⟨hr, hs⟩ := Bool.and_eq_true_iff.mp hr
      exact attempt (ihr hr) (ihs hs)

theorem call (depth : Nat) (n : Nonterminal) : SoundAt depth (.call n) := by
  induction depth generalizing n with
  | zero =>
      intro known ls us rest ns _ _ hcall _
      exact absurd (hcall rfl) (Nat.not_lt_zero _)
  | succ depth ih =>
      intro known ls us rest ns _ _ hcall h
      have hprod : SoundAt depth (Grammar.production n) :=
        of_calls ih (Grammar.progresses_production n)
      obtain ⟨rfl, cs, rfl, run⟩ := hprod (Nat.le_of_lt_succ (hcall rfl)) (holds_none _)
        (fun hc => by rw [Grammar.callsFirst_production n] at hc; exact Bool.noConfusion hc) h
      exact ⟨rfl, cs, rfl, .call run⟩

end Rule.SoundAt

/-- **Every success of a rule is a run of it.** -/
theorem Run.of_parse {r : Rule} {ls us rest : List Lexeme} {ns : List Tree}
    (hr : r.progresses = true) (h : r.parse ls = .done ns us rest) :
    ls = us ++ rest ∧ ∃ cs : List Cover, ns = cs.map Cover.tree ∧ Run r us rest cs := by
  have hsound : Rule.SoundAt (ls.length + 1) r := Rule.SoundAt.of_calls (.call _) hr
  exact hsound (Nat.le_succ _) (Rule.holds_none _) (fun _ => Nat.lt_succ_self _) h

/-! ### Runs are successes -/

namespace Rule

/-- Whether a rule never goes back. -/
def attemptFree : Rule → Bool
  | empty | token _ _ | demand _ _ | call _ => true
  | seq r s => r.attemptFree && s.attemptFree
  | branch _ y n => y.attemptFree && n.attemptFree
  | many _ b => b.attemptFree
  | sepBy item _ => item.attemptFree
  | wrap _ b => b.attemptFree
  | fork first _ _ y _ n => first.attemptFree && y.attemptFree && n.attemptFree
  | attempt _ _ _ => false

/-- Parsing with a bound of its own for the repetitions of the rule itself. -/
def parseFor (depth fuel : Nat) (r : Rule) (ls : List Lexeme) : Outcome :=
  match r with
  | many l b => parseMany l (b.parseWith (Nonterminal.parseTo depth) depth) fuel ls
  | r => r.parseWith (Nonterminal.parseTo depth) depth ls

theorem parseFor_self (depth : Nat) (r : Rule) (ls : List Lexeme) :
    r.parseFor depth depth ls = r.parseWith (Nonterminal.parseTo depth) depth ls := by
  cases r <;> rfl

end Rule

theorem Grammar.attemptFree_production (n : Nonterminal) :
    (production n).attemptFree = true := by
  cases n <;> decide

theorem Outcome.andThen_done {o : Outcome} {next : List Lexeme → Outcome} {ns ns' : List Tree}
    {us us' rest rest' : List Lexeme} (h : o = .done ns us rest)
    (h' : next rest = .done ns' us' rest') :
    o.andThen next = .done (ns ++ ns') (us ++ us') rest' := by
  simp only [h, andThen, h']

/-- That a rule succeeds with `us ++ vs` ahead, as a run of it says, whatever the bounds
that are large enough. -/
def Rule.Succeeds (r : Rule) (us vs : List Lexeme) (cs : List Cover) : Prop :=
  ∀ {depth fuel : Nat} {known : Option Lookahead}, r.attemptFree = true → r.progresses = true →
    (us ++ vs).length ≤ depth → (us ++ vs).length ≤ fuel →
    (∀ l ∈ known, l.holds (us ++ vs) = true) →
    (r.callsFirst known = true → (us ++ vs).length < depth) →
    r.parseFor depth fuel (us ++ vs) = .done (cs.map Cover.tree) us vs

theorem Rule.Succeeds.parseWith_eq {r : Rule} {us vs : List Lexeme} {cs : List Cover}
    (h : r.Succeeds us vs cs) {depth : Nat} {known : Option Lookahead}
    (hfree : r.attemptFree = true) (hprog : r.progresses = true) (hlen : (us ++ vs).length ≤ depth)
    (hk : ∀ l ∈ known, l.holds (us ++ vs) = true)
    (hcall : r.callsFirst known = true → (us ++ vs).length < depth) :
    r.parseWith (Nonterminal.parseTo depth) depth (us ++ vs) =
      .done (cs.map Cover.tree) us vs := by
  rw [← r.parseFor_self]
  exact h hfree hprog hlen hlen hk hcall

/-- A rule behind a run of another one. -/
theorem Rule.Succeeds.behind {r s : Rule} {us us' vs : List Lexeme} {cs cs' : List Cover}
    (h : s.Succeeds us' vs cs') (run : Run r us (us' ++ vs) cs) {depth : Nat}
    {known : Option Lookahead} (hfree : s.attemptFree = true) (hprog : s.progresses = true)
    (hlen : (us ++ us' ++ vs).length ≤ depth) (hk : ∀ l ∈ known, l.holds (us ++ us' ++ vs) = true)
    (hcall : r.takes known = false → s.callsFirst known = true →
      (us ++ us' ++ vs).length < depth) :
    s.parseWith (Nonterminal.parseTo depth) depth (us' ++ vs) =
      .done (cs'.map Cover.tree) us' vs := by
  cases us with
  | nil =>
      exact h.parseWith_eq hfree hprog hlen hk (hcall (run.takes_eq_false hk))
  | cons l us =>
      simp only [List.cons_append, List.length_cons, List.length_append] at hlen
      refine h.parseWith_eq hfree hprog ?_ (Rule.holds_none _) fun _ => ?_
      all_goals rw [List.length_append]; omega

theorem Run.succeeds {r : Rule} {us vs : List Lexeme} {cs : List Cover} (h : Run r us vs cs) :
    r.Succeeds us vs cs := by
  induction h with
  | empty => intro depth fuel known _ _ _ _ _ _; rfl
  | token accepts =>
      intro depth fuel known _ _ _ _ _ _
      simp [Rule.parseFor, Rule.parseWith, Rule.parseToken, accepts]
  | demand holds =>
      intro depth fuel known _ _ _ _ _ _
      simp [Rule.parseFor, Rule.parseWith, holds]
  | @seq r s us us' vs cs cs' first second ih₁ ih₂ =>
      intro depth fuel known hfree hprog hlen _ hk hcall
      obtain ⟨hf₁, hf₂⟩ := Bool.and_eq_true_iff.mp hfree
      obtain ⟨hp₁, hp₂⟩ := Bool.and_eq_true_iff.mp hprog
      have h₂ := ih₂.behind first hf₂ hp₂ hlen hk
        fun ht hc => hcall (by simp [Rule.callsFirst, ht, hc])
      rw [List.append_assoc] at hlen hk hcall ⊢
      have h₁ := ih₁.parseWith_eq hf₁ hp₁ hlen hk fun hc => hcall (by simp [Rule.callsFirst, hc])
      simp [Rule.parseFor, Rule.parseWith, Outcome.andThen_done h₁ h₂]
  | @yes l y n us vs cs holds run ih =>
      intro depth fuel known hfree hprog hlen _ hk hcall
      obtain ⟨hf, -⟩ := Bool.and_eq_true_iff.mp hfree
      obtain ⟨hp, -⟩ := Bool.and_eq_true_iff.mp hprog
      have h := ih.parseWith_eq hf hp hlen (Rule.holds_some holds)
        fun hc => hcall (by simp [Rule.callsFirst, hc])
      simp [Rule.parseFor, Rule.parseWith, holds, h]
  | no fails run ih =>
      intro depth fuel known hfree hprog hlen _ hk hcall
      obtain ⟨-, hf⟩ := Bool.and_eq_true_iff.mp hfree
      obtain ⟨-, hp⟩ := Bool.and_eq_true_iff.mp hprog
      have h := ih.parseWith_eq hf hp hlen hk fun hc => hcall (by simp [Rule.callsFirst, hc])
      simp [Rule.parseFor, Rule.parseWith, fails, h]
  | done fails =>
      intro depth fuel known _ _ _ _ _ _
      cases fuel <;> simp [Rule.parseFor, Rule.parseMany, fails]
  | @step l b us us' vs cs cs' holds first more ih₁ ih₂ =>
      intro depth fuel known hfree hprog hlen hfuel hk hcall
      have hp := hprog
      simp only [Rule.progresses, Bool.and_eq_true, Bool.not_eq_true'] at hp
      obtain ⟨⟨ht, -⟩, hb⟩ := hp
      have hl := Rule.holds_some holds
      have hpos := List.length_pos_iff.mpr (first.taken_ne_nil hl ht)
      rw [List.append_assoc] at hlen hfuel hcall ⊢
      have h₁ := ih₁.parseWith_eq hfree hb hlen hl hcall
      rw [List.length_append] at hlen hfuel
      obtain ⟨fuel, rfl⟩ : ∃ m, fuel = m + 1 := ⟨fuel - 1, by omega⟩
      have hlen' : (us' ++ vs).length ≤ depth := by omega
      have hfuel' : (us' ++ vs).length ≤ fuel := by omega
      have h₂ := ih₂ hfree hprog hlen' hfuel' (Rule.holds_none _) (fun _ => by omega)
      simp only [Rule.parseFor] at h₂
      simp [Rule.parseFor, Rule.parseMany, holds, Outcome.andThen_done h₁ h₂]
  | @sepBy item t us us' vs cs cs' first more ih₁ ih₂ =>
      intro depth fuel known hfree hprog hlen _ hk hcall
      have hmany : (Rule.many (.next [t])
          (.seq (.token t (.terminal t)) item)).progresses = true := by
        simpa [Rule.progresses, Rule.takes, Lookahead.holds, Lookahead.nextIn] using hprog
      rw [List.append_assoc] at hlen hk hcall ⊢
      have h₁ := ih₁.parseWith_eq hfree hprog hlen hk hcall
      rw [List.length_append] at hlen
      have hlen' : (us' ++ vs).length ≤ depth := by omega
      have h₂ := ih₂.parseWith_eq (by simpa [Rule.attemptFree] using hfree) hmany hlen'
        (Rule.holds_none _) (fun hc => absurd hc (by simp [Rule.callsFirst, Rule.takes]))
      simp only [Rule.parseWith] at h₂
      rw [Rule.parseFor, Rule.parseWith, Outcome.andThen_done h₁ h₂, List.map_append]
      exact fun _ _ h => Rule.noConfusion h
  | wrap run ih =>
      intro depth fuel known hfree hprog hlen _ hk hcall
      have h := ih.parseWith_eq hfree hprog hlen hk hcall
      simp [Rule.parseFor, Rule.parseWith, h, Outcome.shaped, Shape.map_tree_cover]
  | forkYes run holds more ih₁ ih₂ =>
      intro depth fuel known hfree hprog hlen _ hk hcall
      simp only [Rule.attemptFree, Rule.progresses, Bool.and_eq_true] at hfree hprog
      have h₂ := ih₂.behind run hfree.1.2 hprog.1.2 hlen hk
        fun ht hc => hcall (by simp [Rule.callsFirst, ht, hc])
      rw [List.append_assoc] at hlen hk hcall ⊢
      have h₁ := ih₁.parseWith_eq hfree.1.1 hprog.1.1 hlen hk
        fun hc => hcall (by simp [Rule.callsFirst, hc])
      simp [Rule.parseFor, Rule.parseWith, h₁, holds, Outcome.andThen, h₂, Outcome.shaped,
        Shape.map_tree_cover]
  | forkNo run fails more ih₁ ih₂ =>
      intro depth fuel known hfree hprog hlen _ hk hcall
      simp only [Rule.attemptFree, Rule.progresses, Bool.and_eq_true] at hfree hprog
      have h₂ := ih₂.behind run hfree.2 hprog.2 hlen hk
        fun ht hc => hcall (by simp [Rule.callsFirst, ht, hc])
      rw [List.append_assoc] at hlen hk hcall ⊢
      have h₁ := ih₁.parseWith_eq hfree.1.1 hprog.1.1 hlen hk
        fun hc => hcall (by simp [Rule.callsFirst, hc])
      simp [Rule.parseFor, Rule.parseWith, h₁, fails, Outcome.andThen, h₂, Outcome.shaped,
        Shape.map_tree_cover]
  | @call n us vs cs run ih =>
      intro depth fuel known _ _ hlen _ _ hcall
      have hlt := hcall rfl
      obtain ⟨depth, rfl⟩ : ∃ m, depth = m + 1 := ⟨depth - 1, by omega⟩
      exact ih.parseWith_eq (Grammar.attemptFree_production n)
        (Grammar.progresses_production n) (by omega) (Rule.holds_none _)
        fun hc => absurd hc (by rw [Grammar.callsFirst_production n]; exact Bool.false_ne_true)
  | attemptFirst | attemptOther => intro depth fuel known hfree; exact Bool.noConfusion hfree

/-- **Every run of a rule that does not go back is a success of it.** -/
theorem Run.parse {r : Rule} {us vs : List Lexeme} {cs : List Cover} (h : Run r us vs cs)
    (hfree : r.attemptFree = true) (hr : r.progresses = true) :
    r.parse (us ++ vs) = .done (cs.map Cover.tree) us vs :=
  Rule.Succeeds.parseWith_eq h.succeeds hfree hr (Nat.le_succ _) (Rule.holds_none _)
    fun _ => Nat.lt_succ_self _

end BindCheck

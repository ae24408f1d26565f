import BindCheck.Proofs.ChildKinds
import BindCheck.Proofs.QuerySyntax

/-!
# BindCheck.Proofs.RuleForms

**Every run of a rule is a derivation.** The form of a rule is read off its text
(`Rule.spelled`): shapes and lookaheads are forgotten, save that a repetition which is entered
at its own lookahead takes a round at least. A rule inside that stands for a syntactic category
(`Rule.phrase?`) is named by the category and not spelled out, so forms stay as short as the
right-hand sides of the grammar, and `Rule.conforms` compares the two as regular languages.

Rules that are not looked into are leaves: the rules that are called by name, and those whose
form is not what their text spells. What is shown of leaves is a hypothesis here, and **on
lexemes up to a number only**; a rule calls others only behind a lexeme that it has taken
(`Rule.callsFirst`), so the number carries the induction over the calls.
-/

namespace BindCheck

open RegularExpression

/-! ### Rules and categories -/

/-- The category of the rule that leaves nodes of a kind. -/
def NodeKind.phrase? : NodeKind → Option Phrase
  | cypher => some .cypher
  | statement => some .statement
  | query => some .query
  | regularQuery => some .regularQuery
  | union => some .union
  | singleQuery => some .singleQuery
  | readingClause => some .readingClause
  | matchClause => some .matchClause
  | unwindClause => some .unwindClause
  | inQueryCall => some .inQueryCall
  | standaloneCall => some .standaloneCall
  | procedureInvocation => some .procedureInvocation
  | yieldItems => some .yieldItems
  | yieldItem => some .yieldItem
  | updatingClause => some .updatingClause
  | createClause => some .createClause
  | mergeClause => some .mergeClause
  | mergeAction => some .mergeAction
  | setClause => some .setClause
  | setItem => some .setItem
  | deleteClause => some .deleteClause
  | removeClause => some .removeClause
  | removeItem => some .removeItem
  | withClause => some .withClause
  | returnClause => some .returnClause
  | projectionBody => some .projectionBody
  | projectionItems => some .projectionItems
  | projectionItem => some .projectionItem
  | orderClause => some .orderClause
  | sortItem => some .sortItem
  | skipClause => some .skipClause
  | limitClause => some .limitClause
  | whereClause => some .whereClause
  | pattern => some .pattern
  | patternPart => some .patternPart
  | nodePattern => some .nodePattern
  | relationshipPattern => some .relationshipPattern
  | relationshipDetail => some .relationshipDetail
  | relationshipTypes => some .relationshipTypes
  | rangeLiteral => some .rangeLiteral
  | nodeLabels => some .nodeLabels
  | properties => some .properties
  | expression => some .expression
  | orExpression => some .disjunction
  | xorExpression => some .exclusive
  | andExpression => some .conjunction
  | comparisonExpression => some .comparison
  | addOrSubtractExpression => some .sum
  | multiplyDivideModuloExpression => some .product
  | powerOfExpression => some .power
  | parenthesizedExpression => some .parenthesized
  | caseExpression => some .caseExpression
  | caseAlternative => some .caseAlternative
  | functionInvocation => some .functionInvocation
  | countStar => some .countStar
  | literal => some .literal
  | listLiteral => some .listLiteral
  | mapLiteral => some .mapLiteral
  | parameter => some .parameter
  | variableName => some .variableName
  -- a kind whose nodes have no category of their own, or come from several rules
  | singlePartQuery | multiPartQuery | procedureName | procedureResultField | patternElement
  | nodeLabel | notExpression | unaryAddOrSubtractExpression | predicateExpression
  | propertyExpression | propertyLookup | listOperator | labelsExpression | functionName
  | propertyKeyName => none

/-- The categories of the rules that leave a node in some cases only. -/
def Grammar.phrases : List (Rule × Phrase) :=
  [(patternElement, .patternElement), (negation, .negation), (unary, .unary),
   (predicate, .predicate), (accessed, .accessed), (atom, .atom)]

/-- The category that a rule stands for. -/
def Rule.phrase? : Rule → Option Phrase
  | wrap (.node k) _ | wrap (.ifMany k) _ => k.phrase?
  | r => (Grammar.phrases.find? (·.1 = r)).map Prod.snd

/-! ### Leaves -/

/-- A rule that is not looked into: the form of what it takes, and the tokens that may stand
behind it. -/
structure Leaf where
  rule : Rule
  form : Form
  follow : List Terminal

/-- That a rule has so few lexemes to take that what is known of calls can be used: at most
`m`, and fewer if it calls another rule before it takes one. -/
def Rule.Below (m : Nat) (known : Option Lookahead) (r : Rule) (us : List Lexeme) : Prop :=
  us.length ≤ m ∧ (r.callsFirst known = true → us.length < m)

/-- What a leaf takes is what its form yields. -/
def Leaf.Sound (m : Nat) (leaf : Leaf) : Prop :=
  ∀ {known : Option Lookahead} {us vs : List Lexeme} {cs : List Cover},
    leaf.rule.Below m known us → Run leaf.rule us vs cs → Yields leaf.form (us.map Lexeme.token)

namespace Rule

variable (leaves : List Leaf)

/-- The leaf that a rule is. -/
def leaf? (r : Rule) : Option Leaf := leaves.find? (·.rule = r)

/-! ### The form of a rule -/

/-- The form of a rule from outside: that of a leaf, the category, or what the rule spells. -/
def label (r : Rule) (f : Form) : Form :=
  match r.leaf? leaves, r.phrase? with
  | some leaf, _ => leaf.form
  | none, some p => .of p
  | none, none => f

/-- A dotted call begins with a name that is no reserved word. -/
def narrow (known : Option Lookahead) (t : Terminal) : Terminal :=
  if known = some .dottedCall then .identifier else t

/-- The form of what a rule takes, given a lookahead that holds where it starts. -/
def spelled (known : Option Lookahead) : Rule → Form
  | empty | demand _ _ => 1
  | call _ => 0
  | token t _ => Form.token (narrow known t)
  | seq r s =>
    times (r.label leaves (r.spelled known)) (s.label leaves (s.spelled (r.knownBehind known)))
  | branch l y n => y.label leaves (y.spelled (some l)) + n.label leaves (n.spelled known)
  | many l b =>
    let round := b.label leaves (b.spelled (some l))
    if known.any (·.implies l) then times round round.star else round.star
  | sepBy item t =>
    times (item.label leaves (item.spelled known))
      (times (Form.token t) (item.label leaves (item.spelled none))).star
  | wrap _ b => b.label leaves (b.spelled known)
  | fork first l _ y _ n =>
    times (first.label leaves (first.spelled known))
      (y.label leaves (y.spelled (some l)) + n.label leaves (n.spelled none))
  | attempt first _ other =>
    first.label leaves (first.spelled known) + other.label leaves (other.spelled known)

variable {leaves} in
theorem spelled_many {known : Option Lookahead} {l : Lookahead} {b : Rule} :
    (many l b).spelled leaves known =
      if known.any (·.implies l) then
        times (b.label leaves (b.spelled leaves (some l)))
          (b.label leaves (b.spelled leaves (some l))).star
      else (b.label leaves (b.spelled leaves (some l))).star := rfl

/-- Whether a rule that stands for a category spells what the category is. -/
def spellsPhrase (known : Option Lookahead) (r : Rule) : Bool :=
  match r.phrase? with
  | some p =>
    includes 0 (r.spelled leaves known) p.form && includes 0 p.form (r.spelled leaves known)
  | none => true

/-- Whether all categories in a rule are right, down to the leaves, and all calls are leaves. -/
def conforms (known : Option Lookahead) (r : Rule) : Bool :=
  (r.leaf? leaves).isSome || r.spellsPhrase leaves known &&
    match r with
    | empty | token _ _ | demand _ _ => true
    | call _ => false
    | seq r s =>
      let behind := r.knownBehind known
      r.conforms known && s.conforms behind &&
        (r.takes known || !s.callsFirst behind || s.callsFirst known)
    | branch l y n => y.conforms (some l) && n.conforms known
    | many l b => b.conforms (some l)
    | sepBy item _ => item.conforms known && item.conforms none
    | wrap _ b => b.conforms known
    | fork first l _ y _ n =>
      first.takes known && first.conforms known && y.conforms (some l) && n.conforms none
    | attempt first _ other => first.conforms known && other.conforms known

end Rule

/-! ### Lexemes to take -/

namespace Rule.Below

variable {m : Nat} {known : Option Lookahead} {r s y n : Rule} {l : Lookahead}
  {us us' : List Lexeme}

theorem mono (h : r.Below m known us) (hlen : us'.length ≤ us.length) : r.Below m known us' :=
  ⟨Nat.le_trans hlen h.1, fun hc => Nat.lt_of_le_of_lt hlen (h.2 hc)⟩

/-- Behind a lexeme, any rule may be called. -/
theorem of_lt (h : us.length < m) : r.Below m known us :=
  ⟨Nat.le_of_lt h, fun _ => h⟩

/-- A rule that another one begins with. -/
theorem start {behind : Option Lookahead} (h : r.Below m known us)
    (hc : s.callsFirst behind = true → r.callsFirst known = true) : s.Below m behind us :=
  ⟨h.1, fun hs => h.2 (hc hs)⟩

theorem seqFirst (h : (seq r s).Below m known us) : r.Below m known us :=
  h.start fun hc => by rw [callsFirst, hc, Bool.true_or]

theorem yes (h : (branch l y n).Below m known us) : y.Below m (some l) us :=
  h.start fun hc => by rw [callsFirst, hc, Bool.true_or]

theorem no (h : (branch l y n).Below m known us) : n.Below m known us :=
  h.start fun hc => by rw [callsFirst, hc, Bool.or_true]

theorem forkFirst {ys ns : Shape} (h : (fork r l ys y ns n).Below m known us) :
    r.Below m known us :=
  h.start fun hc => by rw [callsFirst, hc, Bool.true_or]

theorem attemptFirst (h : (attempt r l s).Below m known us) : r.Below m known us :=
  h.start fun hc => by rw [callsFirst, hc, Bool.true_or]

theorem attemptOther (h : (attempt r l s).Below m known us) : s.Below m known us :=
  h.start fun hc => by rw [callsFirst, hc, Bool.or_true]

/-- The first rule of two. -/
theorem first (h : (seq r s).Below m known (us ++ us')) : r.Below m known us :=
  h.seqFirst.mono (by simp)

/-- The second rule of two. -/
theorem second {behind : Option Lookahead} (h : (seq r s).Below m known (us ++ us'))
    (hne : r.takes known = true → us ≠ [])
    (hc : (r.takes known || !s.callsFirst behind || s.callsFirst known) = true) :
    s.Below m behind us' := by
  have hlen := h.1
  rw [List.length_append] at hlen
  cases ht : r.takes known with
  | true =>
      have hpos := List.length_pos_iff.mpr (hne ht)
      exact of_lt (by omega)
  | false =>
      refine ⟨by omega, fun hs => ?_⟩
      rw [ht, hs, Bool.not_true, Bool.or_false, Bool.false_or] at hc
      have hlt := h.2 (by rw [callsFirst, ht, hc, Bool.not_false, Bool.true_and, Bool.or_true])
      rw [List.length_append] at hlt
      omega

end Rule.Below

/-! ### Runs are derivations -/

section

variable {leaves : List Leaf} {m : Nat} {known : Option Lookahead} {r : Rule}

theorem Rule.leaf?_eq_some {leaf : Leaf} (h : r.leaf? leaves = some leaf) :
    leaf ∈ leaves ∧ leaf.rule = r :=
  ⟨List.mem_of_find?_eq_some h, by simpa using List.find?_some h⟩

/-- From what a rule spells to its form from outside. -/
theorem Rule.yields_label {parts : Bool} {us vs : List Lexeme} {cs : List Cover}
    (hleaves : ∀ leaf ∈ leaves, leaf.Sound m) (hbelow : r.Below m known us) (run : Run r us vs cs)
    (hr : ((r.leaf? leaves).isSome || r.spellsPhrase leaves known && parts) = true)
    (h : parts = true → Yields (r.spelled leaves known) (us.map Lexeme.token)) :
    Yields (r.label leaves (r.spelled leaves known)) (us.map Lexeme.token) := by
  unfold label
  cases hleaf : r.leaf? leaves with
  | some leaf =>
      obtain ⟨hmem, rfl⟩ := leaf?_eq_some hleaf
      exact hleaves leaf hmem hbelow run
  | none =>
      rw [hleaf, Option.isSome_none, Bool.false_or, Bool.and_eq_true] at hr
      obtain ⟨hspells, hparts⟩ := hr
      cases hp : r.phrase? with
      | none => exact h hparts
      | some p =>
          rw [spellsPhrase, hp, Bool.and_eq_true] at hspells
          exact Yields.of_iff.mpr ((h hparts).mono hspells.1)

/-- Rounds that each yield a form yield any number of it. -/
theorem Run.yields_rounds {l : Lookahead} {b : Rule} {f : Form} {n : Nat} {us vs : List Lexeme}
    {cs : List Cover} (h : Run (.many l b) us vs cs) (hlen : us.length ≤ n)
    (hround : ∀ {us vs : List Lexeme} {cs : List Cover}, us.length ≤ n →
      l.holds (us ++ vs) = true → Run b us vs cs → Yields f (us.map Lexeme.token)) :
    Yields f.star (us.map Lexeme.token) := by
  refine many_induction (P := fun us _ => us.length ≤ n → Yields f.star (us.map Lexeme.token))
    ?_ ?_ h hlen
  · exact fun _ _ => Yields.star_nil
  · intro us us' _ _ holds first _ ih hlen
    rw [List.length_append] at hlen
    rw [List.map_append]
    exact (hround (by omega) holds first).star_cons (ih (by omega))

/-- **What a rule takes is what its form yields.** -/
theorem Run.yields (hleaves : ∀ leaf ∈ leaves, leaf.Sound m) {us vs : List Lexeme}
    {cs : List Cover} (h : Run r us vs cs) (hr : r.conforms leaves known = true)
    (hbelow : r.Below m known us) (hk : ∀ l ∈ known, l.holds (us ++ vs) = true) :
    Yields (r.label leaves (r.spelled leaves known)) (us.map Lexeme.token) := by
  induction r generalizing known us vs cs with
  | empty =>
      refine Rule.yields_label hleaves hbelow h (by rwa [Rule.conforms] at hr) fun _ => ?_
      obtain ⟨rfl, -⟩ := empty_iff.mp h
      exact Yields.one_iff.mpr rfl
  | token t e =>
      refine Rule.yields_label hleaves hbelow h (by rwa [Rule.conforms] at hr) fun _ => ?_
      obtain ⟨u, rfl, hu, -⟩ := token_iff.mp h
      refine Yields.token_iff.mpr ⟨u.token, rfl, ?_⟩
      unfold Rule.narrow
      split
      · next hdotted => exact (Bool.and_eq_true_iff.mp (hk .dottedCall hdotted)).1
      · exact hu
  | demand l e =>
      refine Rule.yields_label hleaves hbelow h (by rwa [Rule.conforms] at hr) fun _ => ?_
      obtain ⟨rfl, -⟩ := demand_iff.mp h
      exact Yields.one_iff.mpr rfl
  | call n =>
      exact Rule.yields_label hleaves hbelow h (by rwa [Rule.conforms] at hr)
        fun hnot => Bool.noConfusion hnot
  | seq r s ihr ihs =>
      refine Rule.yields_label hleaves hbelow h (by rwa [Rule.conforms] at hr) fun hparts => ?_
      simp only [Bool.and_eq_true] at hparts
      obtain ⟨⟨hr, hs⟩, hcalls⟩ := hparts
      obtain ⟨us₁, us₂, _, _, rfl, -, first, second⟩ := seq_iff.mp h
      rw [List.append_assoc] at hk
      have h₁ := ihr first hr hbelow.first hk
      have h₂ := ihs second hs (hbelow.second (first.taken_ne_nil hk) hcalls)
        (first.holds_knownBehind hk)
      rw [List.map_append]
      exact Yields.times_iff.mpr (h₁.mul h₂)
  | branch l y n ihy ihn =>
      refine Rule.yields_label hleaves hbelow h (by rwa [Rule.conforms] at hr) fun hparts => ?_
      obtain ⟨hy, hn⟩ := Bool.and_eq_true_iff.mp hparts
      refine Yields.add_iff.mpr ?_
      rcases branch_iff.mp h with ⟨holds, run⟩ | ⟨-, run⟩
      · exact .inl (ihy run hy hbelow.yes (Rule.holds_some holds))
      · exact .inr (ihn run hn hbelow.no hk)
  | many l b ih =>
      refine Rule.yields_label hleaves hbelow h (by rwa [Rule.conforms] at hr) fun hb => ?_
      have hround : ∀ {us' vs : List Lexeme} {cs : List Cover}, us'.length ≤ us.length →
          l.holds (us' ++ vs) = true → Run b us' vs cs →
          Yields (b.label leaves (b.spelled leaves (some l))) (us'.map Lexeme.token) :=
        fun hlen holds run => ih run hb (hbelow.mono hlen) (Rule.holds_some holds)
      rw [Rule.spelled_many]
      split
      · next himplies =>
          rcases many_iff.mp h with ⟨rfl, -, fails⟩ | ⟨us₁, us₂, _, _, rfl, -, holds, first, more⟩
          · rw [Lookahead.any_implies_eq_false hk fails] at himplies
            exact Bool.noConfusion himplies
          · rw [List.append_assoc] at holds
            rw [List.map_append]
            exact Yields.times_iff.mpr
              ((hround (by simp) holds first).mul (more.yields_rounds (by simp) hround))
      · exact h.yields_rounds (Nat.le_refl _) hround
  | sepBy item t ih =>
      refine Rule.yields_label hleaves hbelow h (by rwa [Rule.conforms] at hr) fun hparts => ?_
      obtain ⟨hknown, hnone⟩ := Bool.and_eq_true_iff.mp hparts
      obtain ⟨us₁, us₂, _, _, rfl, -, first, more⟩ := sepBy_iff.mp h
      rw [List.append_assoc] at hk
      have h₁ := ih first hknown (hbelow.mono (by simp)) hk
      have h₂ : Yields (times (Form.token t) (item.label leaves (item.spelled leaves none))).star
          (us₂.map Lexeme.token) := by
        refine more.yields_rounds (n := m) (Nat.le_trans (by simp) hbelow.1) ?_
        intro _ _ _ hlen _ round
        obtain ⟨_, ws, _, _, rfl, -, sep, run⟩ := seq_iff.mp round
        obtain ⟨u, rfl, hu, -⟩ := token_iff.mp sep
        simp only [List.length_append, List.length_singleton] at hlen
        have hitem := ih run hnone (.of_lt (by omega)) (Rule.holds_none _)
        have hsep : Yields (Form.token t) [u.token] := Yields.token_iff.mpr ⟨_, rfl, hu⟩
        rw [List.map_append]
        exact Yields.times_iff.mpr (hsep.mul hitem)
      rw [List.map_append]
      exact Yields.times_iff.mpr (h₁.mul h₂)
  | wrap sh b ih =>
      refine Rule.yields_label hleaves hbelow h (by rwa [Rule.conforms] at hr) fun hb => ?_
      obtain ⟨_, -, run⟩ := wrap_iff.mp h
      exact ih run hb hbelow hk
  | fork first l ys y ns n ihfirst ihy ihn =>
      refine Rule.yields_label hleaves hbelow h (by rwa [Rule.conforms] at hr) fun hparts => ?_
      simp only [Bool.and_eq_true] at hparts
      obtain ⟨⟨⟨ht, hfirst⟩, hy⟩, hn⟩ := hparts
      obtain ⟨us₁, us₂, _, _, rfl, run, hrest⟩ := fork_iff.mp h
      rw [List.append_assoc] at hk
      have hlen := hbelow.1
      have hpos := List.length_pos_iff.mpr (run.taken_ne_nil hk ht)
      rw [List.length_append] at hlen
      have h₁ := ihfirst run hfirst (hbelow.forkFirst.mono (by simp)) hk
      rw [List.map_append]
      refine Yields.times_iff.mpr (h₁.mul (Yields.add_iff.mpr ?_))
      rcases hrest with ⟨holds, more, -⟩ | ⟨-, more, -⟩
      · exact .inl (ihy more hy (.of_lt (by omega)) (Rule.holds_some holds))
      · exact .inr (ihn more hn (.of_lt (by omega)) (Rule.holds_none _))
  | attempt first l other ihfirst ihother =>
      refine Rule.yields_label hleaves hbelow h (by rwa [Rule.conforms] at hr) fun hparts => ?_
      obtain ⟨hfirst, hother⟩ := Bool.and_eq_true_iff.mp hparts
      refine Yields.add_iff.mpr ?_
      cases h with
      | attemptFirst run holds => exact .inl (ihfirst run hfirst hbelow.attemptFirst hk)
      | attemptOther run => exact .inr (ihother run hother hbelow.attemptOther hk)

end

end BindCheck

import BindCheck.Grammar.Terminal
import BindCheck.Proofs.RegularInclusion

/-!
# BindCheck.Proofs.QuerySyntax

**The language of queries as a grammar, apart from any parser.** Each syntactic category
(`Phrase`) has one right-hand side, a regular expression over tokens and categories
(`Phrase.form`); there is no lookahead, no order among alternatives and no priority of one
operator over another one beyond the levels themselves. `Derives` is derivation in this
grammar, and `Yields` says which tokens a right-hand side stands for.

The grammar is ambiguous: `a IN b + c` is a test whose operand is a sum, and also a sum whose
first operand is a test. So a statement about all derivations is not one about trees.

`Derives.replace` is the tool for such statements: categories may be replaced by any regular
expressions that are closed under the rules of the grammar.
-/

namespace BindCheck

open RegularExpression
open scoped Computability

/-! ### The grammar -/

/-- A syntactic category. -/
inductive Phrase where
  -- The query as a whole
  | cypher | statement | query | regularQuery | union | singleQuery | multiPartQuery
  | singlePartQuery
  -- Reading clauses
  | readingClause | matchClause | unwindClause | inQueryCall | standaloneCall
  | procedureInvocation | yieldItems | yieldItem
  -- Updating clauses
  | updatingClause | createClause | mergeClause | mergeAction | setClause | setItem
  | deleteClause | removeClause | removeItem
  -- Projections
  | withClause | returnClause | projectionBody | projectionItems | projectionItem | orderClause
  | sortItem | skipClause | limitClause | whereClause
  -- Patterns
  | pattern | patternPart | patternElement | nodePattern | relationshipPattern
  | relationshipDetail | relationshipTypes | rangeLiteral | nodeLabels | properties
  -- Expressions, from the loosest operator to the tightest
  | expression | disjunction | exclusive | conjunction | negation | comparison | sum | product
  | power | unary | predicate | accessed | atom
  -- Atoms
  | literal | listLiteral | mapLiteral | parameter | caseExpression | caseAlternative
  | parenthesized | countStar | functionInvocation | variableName
  deriving Repr, DecidableEq

/-- What a right-hand side consists of: tokens of a set, and phrases of a category. -/
inductive Item where
  | terminal (t : Terminal)
  | phrase (p : Phrase)
  deriving Repr, DecidableEq

/-- A right-hand side. -/
abbrev Form := RegularExpression Item

namespace Form

/-- A token of a set. -/
def token (t : Terminal) : Form := char (.terminal t)

/-- A reserved word. -/
def word (k : Keyword) : Form := token (.keyword k)

/-- A symbol. -/
def sign (s : Symbol) : Form := token (.symbol s)

/-- A phrase of a category. -/
def of (p : Phrase) : Form := char (.phrase p)

/-- A name, which may be a reserved word. -/
def name : Form := token .name

/-- A form, or nothing. -/
def optional (f : Form) : Form := f + 1

/-- A form, once or more. -/
def oneOrMore (f : Form) : Form := f * f.star

/-- Forms with a separator between each two. -/
def separated (f separator : Form) : Form := f * (separator * f).star

/-- Forms with commas between them. -/
def list (f : Form) : Form := separated f (sign .comma)

end Form

open Form in
/-- **The grammar of queries.** -/
def Phrase.form : Phrase → Form
  | cypher => of statement * optional (sign .semicolon)
  | statement => of query
  | query => of regularQuery + of standaloneCall
  | regularQuery => of singleQuery * (of union).star
  | union => word .UNION * optional (word .ALL) * of singleQuery
  | singleQuery => of singlePartQuery + of multiPartQuery
  | multiPartQuery =>
    oneOrMore ((of readingClause).star * (of updatingClause).star * of withClause) *
      of singlePartQuery
  | singlePartQuery =>
    (of readingClause).star *
      (of returnClause + oneOrMore (of updatingClause) * optional (of returnClause))
  | readingClause => of matchClause + of unwindClause + of inQueryCall
  | matchClause =>
    optional (word .OPTIONAL) * word .MATCH * of pattern * optional (of whereClause)
  | unwindClause => word .UNWIND * of expression * word .AS * of variableName
  | inQueryCall | standaloneCall =>
    word .CALL * of procedureInvocation * optional (word .YIELD * of yieldItems)
  | procedureInvocation =>
    separated name (sign .dot) *
      optional (sign .leftParen * optional (list (of expression)) * sign .rightParen)
  | yieldItems => sign .star + list (of yieldItem) * optional (of whereClause)
  | yieldItem => optional (name * word .AS) * of variableName
  | updatingClause =>
    of createClause + of mergeClause + of setClause + of deleteClause + of removeClause
  | createClause => word .CREATE * of pattern
  | mergeClause => word .MERGE * of patternPart * (of mergeAction).star
  | mergeAction => word .ON * (word .MATCH + word .CREATE) * of setClause
  | setClause => word .SET * list (of setItem)
  | setItem =>
    of variableName * oneOrMore (sign .dot * name) * sign .equal * of expression +
      of variableName * of nodeLabels +
      of variableName * token (.symbols [.equal, .plusEqual]) * of expression
  | deleteClause => optional (word .DETACH) * word .DELETE * list (of expression)
  | removeClause => word .REMOVE * list (of removeItem)
  | removeItem => of variableName * of nodeLabels + of variableName * oneOrMore (sign .dot * name)
  | withClause => word .WITH * of projectionBody * optional (of whereClause)
  | returnClause => word .RETURN * of projectionBody
  | projectionBody =>
    optional (word .DISTINCT) * of projectionItems * optional (of orderClause) *
      optional (of skipClause) * optional (of limitClause)
  | projectionItems =>
    (sign .star + of projectionItem) * (sign .comma * of projectionItem).star
  | projectionItem => of expression * optional (word .AS * of variableName)
  | orderClause => word .ORDER * word .BY * list (of sortItem)
  | sortItem =>
    of expression * optional (token (.keywords [.ASCENDING, .ASC, .DESCENDING, .DESC]))
  | skipClause => word .SKIP * of expression
  | limitClause => word .LIMIT * of expression
  | whereClause => word .WHERE * of expression
  | pattern => list (of patternPart)
  | patternPart => optional (of variableName * sign .equal) * of patternElement
  | patternElement =>
    of nodePattern * (of relationshipPattern * of nodePattern).star +
      sign .leftParen * of patternElement * sign .rightParen
  | nodePattern =>
    sign .leftParen * optional (of variableName) * optional (of nodeLabels) *
      optional (of properties) * sign .rightParen
  | relationshipPattern =>
    optional (sign .less) * sign .minus * optional (of relationshipDetail) * sign .minus *
      optional (sign .greater)
  | relationshipDetail =>
    sign .leftBracket * optional (of variableName) * optional (of relationshipTypes) *
      optional (of rangeLiteral) * optional (of properties) * sign .rightBracket
  | relationshipTypes =>
    sign .colon * name * (sign .bar * optional (sign .colon) * name).star
  | rangeLiteral =>
    sign .star * optional (token .integer) *
      optional (sign .twoDots * optional (token .integer))
  | nodeLabels => oneOrMore (sign .colon * name)
  | properties => of mapLiteral + of parameter
  | expression => of disjunction
  | disjunction => separated (of exclusive) (word .OR)
  | exclusive => separated (of conjunction) (word .XOR)
  | conjunction => separated (of negation) (word .AND)
  | negation => (word .NOT).star * of comparison
  | comparison =>
    separated (of sum)
      (token (.symbols [.equal, .notEqual, .less, .greater, .atMost, .atLeast]))
  | sum => separated (of product) (token (.symbols [.plus, .minus]))
  | product => separated (of power) (token (.symbols [.star, .slash, .percent]))
  | power => separated (of unary) (token (.symbol .caret))
  | unary => (token (.symbols [.plus, .minus])).star * of predicate
  | predicate =>
    of accessed *
      (token (.keywords [.STARTS, .ENDS]) * word .WITH * of sum +
        token (.keywords [.CONTAINS, .IN]) * of sum +
        word .IS * optional (word .NOT) * word .NULL).star
  | accessed =>
    of atom *
      (sign .dot * name + sign .leftBracket * of expression * sign .rightBracket +
        sign .leftBracket * optional (of expression) * sign .twoDots *
          optional (of expression) * sign .rightBracket +
        of nodeLabels).star
  | atom =>
    of literal + of listLiteral + of mapLiteral + of parameter + of caseExpression +
      of parenthesized + of countStar + of functionInvocation + of variableName
  | literal => token .literal
  | listLiteral =>
    sign .leftBracket * optional (list (of expression) * optional (sign .comma)) *
      sign .rightBracket
  | mapLiteral =>
    sign .leftBrace *
      optional (list (name * sign .colon * of expression) * optional (sign .comma)) *
      sign .rightBrace
  | parameter => sign .dollar * token .parameterName
  | caseExpression =>
    word .CASE * optional (of expression) * oneOrMore (of caseAlternative) *
      optional (word .ELSE * of expression) * word .END
  | caseAlternative => word .WHEN * of expression * word .THEN * of expression
  | parenthesized => sign .leftParen * of expression * sign .rightParen
  | countStar => token .countWord * sign .leftParen * sign .star * sign .rightParen
  -- the first name of a function is no reserved word
  | functionInvocation =>
    token .identifier * (sign .dot * name).star * sign .leftParen * optional (word .DISTINCT) *
      optional (list (of expression)) * sign .rightParen
  | variableName => token .identifier

/-! ### Derivations -/

/-- The tokens that a row of items stands for. -/
inductive Derives : List Item → List Token → Prop where
  | nil : Derives [] []
  | terminal {t : Terminal} {k : Token} {is : List Item} {ks : List Token}
      (accepts : t.accepts k = true) (rest : Derives is ks) :
      Derives (.terminal t :: is) (k :: ks)
  | phrase {p : Phrase} {js is : List Item} {us vs : List Token} (form : js ∈ p.form.matches')
      (inner : Derives js us) (rest : Derives is vs) : Derives (.phrase p :: is) (us ++ vs)

/-- The tokens that a form stands for. -/
def Yields (f : Form) (ks : List Token) : Prop := ∃ is ∈ f.matches', Derives is ks

namespace Derives

variable {is js : List Item} {ks us vs : List Token}

theorem nil_iff : Derives [] ks ↔ ks = [] := by
  constructor
  · intro h
    obtain ⟨⟩ := h
    rfl
  · rintro rfl
    exact .nil

theorem append (h : Derives is us) (h' : Derives js vs) : Derives (is ++ js) (us ++ vs) := by
  induction h with
  | nil => exact h'
  | terminal accepts rest ih => exact .terminal accepts ih
  | phrase form inner rest _ ih =>
      rw [List.append_assoc]
      exact .phrase form inner ih

theorem exists_append (h : Derives (is ++ js) ks) :
    ∃ us vs, ks = us ++ vs ∧ Derives is us ∧ Derives js vs := by
  induction is generalizing ks with
  | nil => exact ⟨[], ks, rfl, .nil, h⟩
  | cons i is ih =>
      cases h with
      | terminal accepts rest =>
          obtain ⟨us, vs, rfl, hi, hj⟩ := ih rest
          exact ⟨_ :: us, vs, rfl, .terminal accepts hi, hj⟩
      | phrase form inner rest =>
          obtain ⟨us, vs, rfl, hi, hj⟩ := ih rest
          exact ⟨_ ++ us, vs, (List.append_assoc ..).symm, .phrase form inner hi, hj⟩

end Derives

namespace Yields

variable {f g : Form} {t : Terminal} {p : Phrase} {ks us vs : List Token}

theorem one_iff : Yields 1 ks ↔ ks = [] := by
  constructor
  · rintro ⟨is, rfl, h⟩
    exact Derives.nil_iff.mp h
  · rintro rfl
    exact ⟨[], rfl, .nil⟩

theorem token_iff : Yields (.token t) ks ↔ ∃ k, ks = [k] ∧ t.accepts k = true := by
  constructor
  · rintro ⟨is, rfl, h⟩
    cases h with
    | terminal accepts rest => exact ⟨_, by rw [Derives.nil_iff.mp rest], accepts⟩
  · rintro ⟨k, rfl, h⟩
    exact ⟨_, rfl, .terminal h .nil⟩

/-- A category yields what its right-hand side yields. -/
theorem of_iff : Yields (.of p) ks ↔ Yields p.form ks := by
  constructor
  · rintro ⟨is, rfl, h⟩
    cases h with
    | phrase form inner rest =>
        rw [Derives.nil_iff.mp rest, List.append_nil]
        exact ⟨_, form, inner⟩
  · rintro ⟨is, hform, h⟩
    refine ⟨_, rfl, ?_⟩
    rw [← List.append_nil ks]
    exact .phrase hform h .nil

theorem add_iff : Yields (f + g) ks ↔ Yields f ks ∨ Yields g ks := by
  simp only [Yields, mem_matches'_add, or_and_right, exists_or]

theorem mul_iff : Yields (f * g) ks ↔ ∃ us vs, ks = us ++ vs ∧ Yields f us ∧ Yields g vs := by
  constructor
  · rintro ⟨_, hmem, h⟩
    obtain ⟨is, hf, js, hg, rfl⟩ := mem_matches'_mul.mp hmem
    obtain ⟨us, vs, rfl, hi, hj⟩ := h.exists_append
    exact ⟨us, vs, rfl, ⟨is, hf, hi⟩, ⟨js, hg, hj⟩⟩
  · rintro ⟨us, vs, rfl, ⟨is, hf, hi⟩, ⟨js, hg, hj⟩⟩
    exact ⟨is ++ js, mem_matches'_mul.mpr ⟨is, hf, js, hg, rfl⟩, hi.append hj⟩

theorem mul (hf : Yields f us) (hg : Yields g vs) : Yields (f * g) (us ++ vs) :=
  mul_iff.mpr ⟨us, vs, rfl, hf, hg⟩

theorem times_iff : Yields (f.times g) ks ↔ Yields (f * g) ks := by
  simp only [Yields, matches'_times, matches'_mul]

theorem star_nil : Yields f.star [] :=
  ⟨[], nil_mem_matches'.mpr rfl, .nil⟩

theorem star_cons (hf : Yields f us) (hstar : Yields f.star vs) : Yields f.star (us ++ vs) := by
  obtain ⟨is, his, hi⟩ := hf
  obtain ⟨js, hjs, hj⟩ := hstar
  exact ⟨is ++ js, append_mem_star his hjs, hi.append hj⟩

/-- Induction over the rounds of a repetition, none of which is empty. -/
theorem star_induction {P : List Token → Prop} (nil : P [])
    (cons : ∀ us vs, Yields f us → Yields f.star vs → P vs → P (us ++ vs))
    (h : Yields f.star ks) : P ks := by
  obtain ⟨is, his, h⟩ := h
  rw [matches'_star] at his
  obtain ⟨S, rfl, hS⟩ := his
  induction S generalizing ks with
  | nil => exact Derives.nil_iff.mp h ▸ nil
  | cons js S ih =>
      obtain ⟨hj, hrest⟩ := List.forall_mem_cons.mp hS
      obtain ⟨us, vs, rfl, hus, hvs⟩ := h.exists_append
      have hstar : S.flatten ∈ f.star.matches' := ⟨S, rfl, hrest⟩
      exact cons us vs ⟨js, hj, hus⟩ ⟨_, hstar, hvs⟩ (ih hrest hvs)

theorem mono (h : includes 0 f g = true) (hf : Yields f ks) : Yields g ks := by
  obtain ⟨is, his, hi⟩ := hf
  exact ⟨is, mem_of_includes h (Nat.zero_le _) his, hi⟩

end Yields

/-! ### No category is empty -/

theorem Phrase.not_matchEpsilon (p : Phrase) : p.form.matchEpsilon = false := by
  cases p <;> decide

theorem Derives.eq_nil {is : List Item} (h : Derives is []) : is = [] := by
  generalize hks : ([] : List Token) = ks at h
  induction h with
  | nil => rfl
  | terminal => exact absurd hks.symm (List.cons_ne_nil _ _)
  | @phrase p js is us vs form inner rest ih _ =>
      obtain ⟨rfl, -⟩ := List.append_eq_nil_iff.mp hks.symm
      rw [ih rfl, nil_mem_matches', p.not_matchEpsilon] at form
      exact Bool.noConfusion form

/-- Whether a form yields no tokens can be read off. -/
theorem Yields.nil_iff {f : Form} : Yields f [] ↔ f.matchEpsilon = true := by
  rw [← nil_mem_matches']
  constructor
  · rintro ⟨is, his, h⟩
    rwa [h.eq_nil] at his
  · intro h
    exact ⟨[], h, .nil⟩

/-! ### Closed replacements -/

/-- What an item is replaced by. -/
def Item.replace (σ : Phrase → Form) : Item → Form
  | terminal t => .token t
  | phrase p => σ p

/-- Replaces the categories in a form. -/
def Form.replace (σ : Phrase → Form) : Form → Form
  | zero => zero
  | epsilon => epsilon
  | char i => i.replace σ
  | plus f g => replace σ f + replace σ g
  | comp f g => replace σ f * replace σ g
  | .star f => (replace σ f).star

/-- Replaces the categories in a row of items. -/
def Item.replaceAll (σ : Phrase → Form) (is : List Item) : Form :=
  is.foldr (fun i f => i.replace σ * f) 1

section

variable {σ : Phrase → Form} {ks : List Token}

theorem Item.yields_replaceAll_append {is js : List Item} (h : Yields (replaceAll σ (is ++ js)) ks) :
    ∃ us vs, ks = us ++ vs ∧ Yields (replaceAll σ is) us ∧ Yields (replaceAll σ js) vs := by
  induction is generalizing ks with
  | nil => exact ⟨[], ks, rfl, Yields.one_iff.mpr rfl, h⟩
  | cons i is ih =>
      obtain ⟨ws, _, rfl, hi, hrest⟩ := Yields.mul_iff.mp h
      obtain ⟨us, vs, rfl, hus, hvs⟩ := ih hrest
      exact ⟨ws ++ us, vs, (List.append_assoc ..).symm, hi.mul hus, hvs⟩

theorem Form.yields_replace {f : Form} {is : List Item} (his : is ∈ f.matches')
    (h : Yields (Item.replaceAll σ is) ks) : Yields (f.replace σ) ks := by
  induction f generalizing is ks with
  | zero => exact absurd his (Language.notMem_zero is)
  | epsilon =>
      obtain rfl : is = [] := his
      exact h
  | char i =>
      obtain rfl : is = [i] := his
      obtain ⟨us, vs, rfl, hi, hnil⟩ := Yields.mul_iff.mp h
      rwa [Yields.one_iff.mp hnil, List.append_nil]
  | plus f g ihf ihg =>
      rcases mem_matches'_add.mp his with his | his
      · exact Yields.add_iff.mpr (.inl (ihf his h))
      · exact Yields.add_iff.mpr (.inr (ihg his h))
  | comp f g ihf ihg =>
      obtain ⟨is, hf, js, hg, rfl⟩ := mem_matches'_mul.mp his
      obtain ⟨us, vs, rfl, hus, hvs⟩ := Item.yields_replaceAll_append h
      exact (ihf hf hus).mul (ihg hg hvs)
  | star f ih =>
      rw [matches'_star] at his
      obtain ⟨S, rfl, hS⟩ := his
      induction S generalizing ks with
      | nil => exact Yields.one_iff.mp h ▸ Yields.star_nil
      | cons js S ihS =>
          obtain ⟨hjs, hrest⟩ := List.forall_mem_cons.mp hS
          obtain ⟨us, vs, rfl, hus, hvs⟩ := Item.yields_replaceAll_append h
          exact (ih hjs hus).star_cons (ihS hrest hvs)

/-- **Categories may be replaced by forms that are closed under the grammar**: each is left as
it is, or has all that its right-hand side becomes. -/
theorem Derives.replace (hσ : ∀ p, σ p = .of p ∨ includes 0 (p.form.replace σ) (σ p) = true)
    {is : List Item} (h : Derives is ks) : Yields (Item.replaceAll σ is) ks := by
  induction h with
  | nil => exact Yields.one_iff.mpr rfl
  | @terminal t k is ks accepts rest ih =>
      exact (Yields.token_iff.mpr ⟨k, rfl, accepts⟩).mul ih
  | @phrase p js is us vs form inner rest ihinner ihrest =>
      refine Yields.mul ?_ ihrest
      rcases hσ p with hp | hp
      · rw [Item.replace, hp]
        exact Yields.of_iff.mpr ⟨js, form, inner⟩
      · exact (Form.yields_replace form ihinner).mono hp

/-- What a form yields, it yields with its categories replaced. -/
theorem Yields.replace (hσ : ∀ p, σ p = .of p ∨ includes 0 (p.form.replace σ) (σ p) = true)
    {f : Form} (h : Yields f ks) : Yields (f.replace σ) ks := by
  obtain ⟨is, his, h⟩ := h
  exact Form.yields_replace his (h.replace hσ)

end

end BindCheck

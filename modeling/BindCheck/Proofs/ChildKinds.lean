import BindCheck.Proofs.Locality
import BindCheck.Proofs.RegularInclusion
import BindCheck.Proofs.Schema

/-!
# BindCheck.Proofs.ChildKinds

**Every parsed tree obeys a schema.** `NodeKind.schema` says for each kind which lists of
kinds the children of a node may have, as a regular expression, and the children of every
node of a parsed tree have one of them (`kinds_of_children`).

The grammar is asked, and not a single query. `Rule.found` computes from the text of a rule
the kinds of the nodes that it finds, one after another, and `Rule.fits` compares it with the
schema wherever the rule makes a node. What a rule finds depends on what is known to stand
ahead: a repetition that is entered at its own lookahead takes a round at least.

One place cannot be read off in this way. A part of a query that updates nothing has to be
followed by `RETURN` or `WITH`, and is the last part if no `WITH` follows; so there is a
`RETURN`, though the two questions are asked at different places of the rule
(`Run.kinds_singlePartQuery`).
-/

namespace BindCheck

open RegularExpression

/-! ### The schema -/

namespace NodeKind

/-- The kinds of the operands of expressions, **from the loosest operator to the tightest**,
and then the atoms. -/
def ladder : List NodeKind :=
  [.orExpression, .xorExpression, .andExpression, .notExpression, .comparisonExpression,
   .addOrSubtractExpression, .multiplyDivideModuloExpression, .powerOfExpression,
   .unaryAddOrSubtractExpression, .predicateExpression, .labelsExpression, .propertyExpression,
   .literal, .listLiteral, .mapLiteral, .parameter, .caseExpression, .parenthesizedExpression,
   .countStar, .functionInvocation, .variableName]

/-- One node of one of some kinds. -/
def oneOf (ks : List NodeKind) : RegularExpression NodeKind := ks.foldr (fun k p => char k + p) 0

/-- An operand that binds tighter than a kind. -/
def tighter (k : NodeKind) : RegularExpression NodeKind := oneOf ((ladder.dropWhile (· != k)).drop 1)

/-- A node, or none. -/
def optional (p : RegularExpression NodeKind) : RegularExpression NodeKind := p + 1

/-- One node or more. -/
def oneOrMore (p : RegularExpression NodeKind) : RegularExpression NodeKind := p * p.star

/-- Two operands or more. -/
def level (k : NodeKind) : RegularExpression NodeKind := tighter k * oneOrMore (tighter k)

/-- What may be behind an atom: a property or an element. -/
def access : RegularExpression NodeKind := oneOf [.propertyLookup, .listOperator]

/-- **The kinds of the children of a node of a kind.** -/
def schema : NodeKind → RegularExpression NodeKind
  | cypher => char statement
  | statement => char query
  | query => oneOf [standaloneCall, regularQuery]
  | regularQuery => char singleQuery * (char union).star
  | union => char singleQuery
  | singleQuery => oneOf [singlePartQuery, multiPartQuery]
  | singlePartQuery =>
    (char readingClause).star *
      (char returnClause + oneOrMore (char updatingClause) * optional (char returnClause))
  | multiPartQuery =>
    oneOrMore ((char readingClause).star * (char updatingClause).star * char withClause) *
      char singlePartQuery
  | readingClause => oneOf [matchClause, unwindClause, inQueryCall]
  | matchClause => char pattern * optional (char whereClause)
  | unwindClause => char expression * char variableName
  | inQueryCall | standaloneCall => char procedureInvocation * optional (char yieldItems)
  | procedureInvocation => char procedureName * (char expression).star
  | yieldItems => optional (oneOrMore (char yieldItem) * optional (char whereClause))
  | yieldItem => optional (char procedureResultField) * char variableName
  | updatingClause => oneOf [createClause, mergeClause, setClause, deleteClause, removeClause]
  | createClause => char pattern
  | mergeClause => char patternPart * (char mergeAction).star
  | mergeAction => char setClause
  | setClause => oneOrMore (char setItem)
  | setItem =>
    char propertyExpression * char expression +
      char variableName * oneOf [nodeLabels, expression]
  | deleteClause => oneOrMore (char expression)
  | removeClause => oneOrMore (char removeItem)
  | removeItem => char variableName * char nodeLabels + char propertyExpression
  | withClause => char projectionBody * optional (char whereClause)
  | returnClause => char projectionBody
  | projectionBody =>
    char projectionItems * optional (char orderClause) * optional (char skipClause) *
      optional (char limitClause)
  | projectionItems => (char projectionItem).star
  | projectionItem => char expression * optional (char variableName)
  | orderClause => oneOrMore (char sortItem)
  | sortItem | skipClause | limitClause | whereClause => char expression
  | pattern => oneOrMore (char patternPart)
  | patternPart => optional (char variableName) * char patternElement
  | patternElement =>
    char nodePattern * (char relationshipPattern * char nodePattern).star + char patternElement
  | nodePattern =>
    optional (char variableName) * optional (char nodeLabels) * optional (char properties)
  | relationshipPattern => optional (char relationshipDetail)
  | relationshipDetail =>
    optional (char variableName) * optional (char relationshipTypes) *
      optional (char rangeLiteral) * optional (char properties)
  | nodeLabels => oneOrMore (char nodeLabel)
  | properties => oneOf [parameter, mapLiteral]
  | expression => oneOf ladder
  | orExpression => level orExpression
  | xorExpression => level xorExpression
  | andExpression => level andExpression
  | notExpression => tighter notExpression
  | comparisonExpression => level comparisonExpression
  | addOrSubtractExpression => level addOrSubtractExpression
  | multiplyDivideModuloExpression => level multiplyDivideModuloExpression
  | powerOfExpression => level powerOfExpression
  | unaryAddOrSubtractExpression =>
    oneOf [unaryAddOrSubtractExpression] + tighter unaryAddOrSubtractExpression
  -- the right operand of a test may be a sum, and a test for `NULL` has none
  | predicateExpression =>
    tighter predicateExpression * (tighter comparisonExpression).star
  | labelsExpression =>
    tighter propertyExpression * access.star * char nodeLabels * (access + char nodeLabels).star
  | propertyExpression => tighter propertyExpression * oneOrMore access
  | propertyLookup => char propertyKeyName
  | listOperator => optional (char expression) * optional (char expression)
  | parenthesizedExpression => char expression
  | caseExpression =>
    optional (char expression) * oneOrMore (char caseAlternative) * optional (char expression)
  | caseAlternative => char expression * char expression
  | functionInvocation => char functionName * (char expression).star
  | listLiteral => (char expression).star
  | mapLiteral => (char propertyKeyName * char expression).star
  | procedureName | procedureResultField | relationshipTypes | rangeLiteral | nodeLabel
  | functionName | countStar | literal | propertyKeyName | parameter | variableName => 1

end NodeKind

/-! ### The nodes that a rule finds -/

/-- The kinds of the nodes after a shape, given those before it. -/
def Shape.found (s : Shape) (p : RegularExpression NodeKind) : RegularExpression NodeKind :=
  match s with
  | bare => p
  | node k => char k
  | ifMany k => p.short + char k

/-- The kinds of the nodes that a named rule finds. -/
def Nonterminal.found : Nonterminal → RegularExpression NodeKind
  | singleQuery => char .singleQuery
  | queryTail =>
    ((char NodeKind.readingClause).star * (char NodeKind.updatingClause).star *
      char NodeKind.withClause).star * char NodeKind.singlePartQuery
  | patternElement => char .patternElement
  | expression => char .expression
  | comparison => NodeKind.tighter .notExpression
  | sum => NodeKind.tighter .comparisonExpression
  | unary => NodeKind.tighter .powerOfExpression

namespace Rule

/-- The kinds of the nodes that a rule finds, given a lookahead that holds where it starts. -/
def found (known : Option Lookahead) : Rule → RegularExpression NodeKind
  | empty | token _ _ | demand _ _ => 1
  | call n => n.found
  | seq r s => times (r.found known) (s.found (r.knownBehind known))
  | branch l y n => if known == some l then y.found (some l) else y.found (some l) + n.found known
  | many l b =>
    if known.any (·.implies l) then times (b.found known) (b.found (some l)).star
    else (b.found (some l)).star
  | sepBy item _ => times (item.found known) (item.found none).star
  | wrap s b => s.found (b.found known)
  | fork first l ys y ns n =>
    ys.found (times (first.found known) (y.found (some l))) +
      ns.found (times (first.found known) (n.found none))
  | attempt first _ other => first.found known + other.found known

end Rule

/-- Whether the nodes that a shape makes over what was found obey the schema. -/
def Shape.fits (s : Shape) (p : RegularExpression NodeKind) : Bool :=
  match s with
  | bare => true
  | node k => includes 0 p k.schema
  | ifMany k => includes 2 p k.schema

namespace Rule

/-- Whether the nodes that a rule makes obey the schema, given a lookahead that holds where it
starts. -/
def fits (known : Option Lookahead) : Rule → Bool
  | empty | token _ _ | demand _ _ | call _ => true
  | seq r s => r.fits known && s.fits (r.knownBehind known)
  | branch l y n => y.fits (some l) && n.fits known
  | many l b => (!known.any (·.implies l) || b.fits known) && b.fits (some l)
  | sepBy item _ => item.fits known && item.fits none
  | wrap s b => s.fits (b.found known) && b.fits known
  | fork first l ys y ns n =>
    (fork first l ys y ns n == Grammar.queryTail ||
      (ys.fits (times (first.found known) (y.found (some l))) &&
        ns.fits (times (first.found known) (n.found none)))) &&
    first.fits known && y.fits (some l) && n.fits none
  | attempt first _ other => first.fits known && other.fits known

end Rule

/-- What is computed from the grammar and the schema. -/
structure Grammar.SchemaChecks : Prop where
  found : ∀ n, includes 0 ((production n).found none) n.found = true
  fits : ∀ n, (production n).fits none = true
  cypher : cypher.fits none = true

theorem Grammar.schemaChecks : SchemaChecks where
  found n := by cases n <;> decide +kernel
  fits n := by cases n <;> decide +kernel
  cypher := by decide +kernel

/-! ### What a run finds -/

theorem Shape.kinds_mem_found {s : Shape} {us : List Lexeme} {cs : List Cover}
    {p : RegularExpression NodeKind} (h : cs.map Cover.kind ∈ p.matches') :
    (s.cover us cs).map Cover.kind ∈ (s.found p).matches' := by
  cases s with
  | bare => exact h
  | node k => exact Set.mem_singleton _
  | ifMany k =>
      rw [found, mem_matches'_add]
      by_cases hlen : 1 < cs.length
      · rw [cover, if_pos hlen]
        exact .inr (Set.mem_singleton _)
      · rw [cover, if_neg hlen]
        exact .inl (mem_short (by rw [List.length_map]; omega) h)

namespace Run

/-- **The kinds of the nodes of a run are those that its rule finds.** -/
theorem kinds_mem_found {r : Rule} {us vs : List Lexeme} {cs : List Cover} (h : Run r us vs cs) :
    ∀ {known : Option Lookahead}, (∀ l ∈ known, l.holds (us ++ vs) = true) →
      cs.map Cover.kind ∈ (r.found known).matches' := by
  induction h with
  | empty | token | demand => intro known _; rfl
  | seq first second ih₁ ih₂ =>
      intro known hk
      rw [List.append_assoc] at hk
      rw [List.map_append]
      exact append_mem_times (ih₁ hk) (ih₂ (first.holds_knownBehind hk))
  | yes holds run ih =>
      intro known _
      have h := ih (Rule.holds_some holds)
      rw [Rule.found]
      split
      · exact h
      · exact mem_matches'_add.mpr (.inl h)
  | no fails run ih =>
      intro known hk
      rw [Rule.found]
      split
      · next heq =>
          rw [eq_of_beq heq] at hk
          exact absurd (hk _ rfl) (by rw [fails]; exact Bool.false_ne_true)
      · exact mem_matches'_add.mpr (.inr (ih hk))
  | @done l b vs fails =>
      intro known hk
      rw [Rule.found, Lookahead.any_implies_eq_false hk fails]
      exact Language.nil_mem_kstar _
  | @step l b us us' vs cs cs' holds first more ih₁ ih₂ =>
      intro known hk
      rw [List.append_assoc] at hk
      have hmore : cs'.map Cover.kind ∈ (b.found (some l)).star.matches' :=
        ih₂ (Rule.holds_none _)
      rw [List.map_append, Rule.found]
      split
      · exact append_mem_times (ih₁ hk) hmore
      · exact append_mem_star (ih₁ (Rule.holds_some holds)) hmore
  | @sepBy item t us us' vs cs cs' first more ih₁ ih₂ =>
      intro known hk
      rw [List.append_assoc] at hk
      have hmore : cs'.map Cover.kind ∈ (item.found none).star.matches' :=
        ih₂ (Rule.holds_none _)
      rw [List.map_append]
      exact append_mem_times (ih₁ hk) hmore
  | wrap run ih => exact fun hk => Shape.kinds_mem_found (ih hk)
  | forkYes run holds more ih₁ ih₂ =>
      intro known hk
      rw [List.append_assoc] at hk
      refine mem_matches'_add.mpr (.inl (Shape.kinds_mem_found ?_))
      rw [List.map_append]
      exact append_mem_times (ih₁ hk) (ih₂ (Rule.holds_some holds))
  | forkNo run fails more ih₁ ih₂ =>
      intro known hk
      rw [List.append_assoc] at hk
      refine mem_matches'_add.mpr (.inr (Shape.kinds_mem_found ?_))
      rw [List.map_append]
      exact append_mem_times (ih₁ hk) (ih₂ (Rule.holds_none _))
  | @call n us vs cs run ih =>
      intro known _
      exact mem_of_includes (Grammar.schemaChecks.found n) (Nat.zero_le _) (ih (Rule.holds_none _))
  | attemptFirst run holds ih => exact fun hk => mem_matches'_add.mpr (.inl (ih hk))
  | attemptOther run ih => exact fun hk => mem_matches'_add.mpr (.inr (ih hk))

/-- The last part of a query: if it updates nothing, it is closed by a projection. -/
theorem kinds_singlePartQuery {us us' vs : List Lexeme} {cs cs' : List Cover}
    (run : Run Grammar.partClauses us (us' ++ vs) cs)
    (fails : (Lookahead.next [.keyword .WITH]).holds (us' ++ vs) = false)
    (more : Run (.whenNext (.keyword .RETURN) Grammar.returnClause) us' vs cs') :
    (cs ++ cs').map Cover.kind ∈ NodeKind.singlePartQuery.schema.matches' := by
  obtain ⟨us₁, us₂, cs₁, cs₂, rfl, rfl, hreading, hupdating⟩ := seq_iff.mp run
  have hreads := hreading.kinds_mem_found (Rule.holds_none _)
  rw [List.append_assoc, List.map_append]
  refine Language.append_mem_mul hreads ?_
  rw [List.map_append]
  rcases branch_iff.mp hupdating with ⟨holds, hupdates⟩ | ⟨-, hdemand⟩
  · have hsome := hupdates.kinds_mem_found (Rule.holds_some holds)
    have hreturn := more.kinds_mem_found (Rule.holds_none _)
    exact mem_matches'_add.mpr (.inr (Language.append_mem_mul hsome hreturn))
  · obtain ⟨rfl, holds, rfl⟩ := demand_iff.mp hdemand
    rcases branch_iff.mp more with ⟨-, hreturn⟩ | ⟨hno, -⟩
    · exact mem_matches'_add.mpr (.inl (hreturn.kinds_mem_found (Rule.holds_none _)))
    · rw [Lookahead.holds_keywords, Bool.or_eq_true, fails, hno] at holds
      exact absurd holds (by simp)

end Run

/-! ### Every node obeys the schema -/

/-- That the children of a node have kinds that the schema allows. -/
def Cover.Fits (m : Cover) : Prop := m.children.map kind ∈ m.kind.schema.matches'

theorem Shape.fits_made {s : Shape} {p : RegularExpression NodeKind} (h : s.fits p = true)
    {cs : List Cover} (hcs : cs.map Cover.kind ∈ p.matches') {k : NodeKind}
    (hmade : s.kindOver cs = some k) (us : List Lexeme) : (Cover.mk k us cs).Fits := by
  cases s with
  | bare => exact absurd hmade (Option.some_ne_none k).symm
  | node k' =>
      obtain rfl := Option.some.inj hmade
      exact mem_of_includes h (Nat.zero_le _) hcs
  | ifMany k' =>
      by_cases hlen : 1 < cs.length
      · rw [kindOver, if_pos hlen] at hmade
        obtain rfl := Option.some.inj hmade
        exact mem_of_includes h (by rwa [List.length_map]) hcs
      · rw [kindOver, if_neg hlen] at hmade
        exact absurd hmade (Option.some_ne_none k).symm

/-- The nodes after a shape obey the schema if those before it do, and the one that is made. -/
theorem Shape.fits_cover {s : Shape} {us : List Lexeme} {cs : List Cover}
    (hmade : ∀ k, s.kindOver cs = some k → (Cover.mk k us cs).Fits)
    (h : ∀ m ∈ Cover.nodesAll cs, m.Fits) : ∀ m ∈ Cover.nodesAll (s.cover us cs), m.Fits := by
  intro m hm
  rcases mem_nodesAll_cover hm with ⟨k, hk, rfl⟩ | hm
  · exact hmade k hk
  · exact h m hm

theorem Cover.fits_append {cs cs' : List Cover} (h : ∀ m ∈ nodesAll cs, m.Fits)
    (h' : ∀ m ∈ nodesAll cs', m.Fits) : ∀ m ∈ nodesAll (cs ++ cs'), m.Fits := by
  intro m hm
  rw [nodesAll_append] at hm
  exact (List.mem_append.mp hm).elim (h m) (h' m)

/-- **The nodes of a run obey the schema** if those that its rule makes do. -/
theorem Run.fits {r : Rule} {us vs : List Lexeme} {cs : List Cover} (h : Run r us vs cs) :
    ∀ {known : Option Lookahead}, (∀ l ∈ known, l.holds (us ++ vs) = true) →
      r.fits known = true → ∀ m ∈ Cover.nodesAll cs, m.Fits := by
  induction h with
  | empty | token | demand | done => intro known _ _ m hm; exact absurd hm List.not_mem_nil
  | seq first second ih₁ ih₂ =>
      intro known hk hr
      rw [List.append_assoc] at hk
      rw [Rule.fits, Bool.and_eq_true] at hr
      exact Cover.fits_append (ih₁ hk hr.1) (ih₂ (first.holds_knownBehind hk) hr.2)
  | yes holds run ih =>
      intro known _ hr
      rw [Rule.fits, Bool.and_eq_true] at hr
      exact ih (Rule.holds_some holds) hr.1
  | no fails run ih =>
      intro known hk hr
      rw [Rule.fits, Bool.and_eq_true] at hr
      exact ih hk hr.2
  | step holds first more ih₁ ih₂ =>
      intro known _ hr
      have hb := (Bool.and_eq_true_iff.mp hr).2
      refine Cover.fits_append (ih₁ (Rule.holds_some holds) hb) (ih₂ (Rule.holds_none _) ?_)
      rw [Rule.fits, Bool.and_eq_true]
      exact ⟨rfl, hb⟩
  | sepBy first more ih₁ ih₂ =>
      intro known hk hr
      rw [List.append_assoc] at hk
      rw [Rule.fits, Bool.and_eq_true] at hr
      refine Cover.fits_append (ih₁ hk hr.1) (ih₂ (Rule.holds_none _) ?_)
      simpa [Rule.fits, Rule.knownBehind, Lookahead.behind] using hr.2
  | wrap run ih =>
      intro known hk hr
      rw [Rule.fits, Bool.and_eq_true] at hr
      exact Shape.fits_cover
        (fun k hmade => Shape.fits_made hr.1 (run.kinds_mem_found hk) hmade _) (ih hk hr.2)
  | forkYes run holds more ih₁ ih₂ =>
      intro known hk hr
      rw [List.append_assoc] at hk
      simp only [Rule.fits, Bool.and_eq_true, Bool.or_eq_true] at hr
      obtain ⟨⟨⟨hmakes, hfirst⟩, hyes⟩, -⟩ := hr
      refine Shape.fits_cover (fun k hmade => ?_)
        (Cover.fits_append (ih₁ hk hfirst) (ih₂ (Rule.holds_some holds) hyes))
      rcases hmakes with htail | ⟨hys, -⟩
      · -- in front of a `WITH` no node is made
        injection eq_of_beq htail with _ _ hshape
        rw [hshape] at hmade
        exact absurd hmade (Option.some_ne_none k).symm
      · refine Shape.fits_made hys ?_ hmade _
        rw [List.map_append]
        exact append_mem_times (run.kinds_mem_found hk) (more.kinds_mem_found (Rule.holds_some holds))
  | forkNo run fails more ih₁ ih₂ =>
      intro known hk hr
      rw [List.append_assoc] at hk
      simp only [Rule.fits, Bool.and_eq_true, Bool.or_eq_true] at hr
      obtain ⟨⟨⟨hmakes, hfirst⟩, -⟩, hno⟩ := hr
      refine Shape.fits_cover (fun k hmade => ?_)
        (Cover.fits_append (ih₁ hk hfirst) (ih₂ (Rule.holds_none _) hno))
      rcases hmakes with htail | ⟨-, hns⟩
      · injection eq_of_beq htail with hclauses hwith _ _ hshape hreturn
        rw [hclauses] at run
        rw [hwith] at fails
        rw [hreturn] at more
        rw [hshape] at hmade
        obtain rfl := Option.some.inj hmade
        exact run.kinds_singlePartQuery fails more
      · refine Shape.fits_made hns ?_ hmade _
        rw [List.map_append]
        exact append_mem_times (run.kinds_mem_found hk) (more.kinds_mem_found (Rule.holds_none _))
  | @call n us vs cs run ih => exact fun _ _ => ih (Rule.holds_none _) (Grammar.schemaChecks.fits n)
  | attemptFirst run holds ih =>
      intro known hk hr
      rw [Rule.fits, Bool.and_eq_true] at hr
      exact ih hk hr.1
  | attemptOther run ih =>
      intro known hk hr
      rw [Rule.fits, Bool.and_eq_true] at hr
      exact ih hk hr.2

/-- **The kinds of the children of every node of a parsed tree are as the schema says.** -/
theorem kinds_of_children {source : String} {t : Tree} (h : parse source = .ok t) :
    ∀ n ∈ t.descendants, n.children.map Tree.kind ∈ n.kind.schema.matches' := by
  obtain ⟨c, hc, rfl⟩ := cover_of_parse h
  obtain ⟨p, -, run⟩ := hc.run
  intro n hn
  rw [c.descendants_tree, ← Cover.nodesAll_singleton] at hn
  obtain ⟨m, hm, rfl⟩ := List.mem_map.mp hn
  have hfits : m.Fits := run.fits (Rule.holds_none _) Grammar.schemaChecks.cypher m hm
  rw [Cover.tree_children, Cover.tree_kind, List.map_map]
  rwa [Cover.Fits, ← List.map_congr_left fun c _ => c.tree_kind] at hfits

/-- A `WITH` closes a part, and its clauses stay beside the last part. -/
theorem kinds_of_children_of_with :
    ∃ t n, parse "UNWIND [1] AS x WITH x WHERE x > 0 RETURN x" = .ok t ∧ n ∈ t.descendants ∧
      n.kind = .multiPartQuery ∧
        n.children.map Tree.kind = [.readingClause, .withClause, .singlePartQuery] ∧
          n.children.map Tree.kind ∈ n.kind.schema.matches' := by
  obtain ⟨t, ht, hfind⟩ : ∃ t, parse "UNWIND [1] AS x WITH x WHERE x > 0 RETURN x" = .ok t ∧
      (t.find? .multiPartQuery).map (fun n => (n.kind, n.children.map Tree.kind)) =
        some (.multiPartQuery, [.readingClause, .withClause, .singlePartQuery]) :=
    exists_parse_eq_ok (by decide +kernel)
  obtain ⟨n, hn, hnode⟩ := Option.map_eq_some_iff.mp hfind
  obtain ⟨hkind, hchildren⟩ := Prod.mk.inj hnode
  have hmem := List.mem_of_find?_eq_some hn
  exact ⟨t, n, ht, hmem, hkind, hchildren, kinds_of_children ht n hmem⟩

end BindCheck

import BindCheck.Proofs.Predictive

/-!
# BindCheck.Proofs.ExpressionSyntax

**What the rules for expressions take is what the grammar derives**, as far as the rules that
are called by name do so on fewer lexemes. Most of it is computed from the rules
(`Rule.conforms`, `Rule.predicts`). Four need an argument:

* a comma may stand behind the last element of a list (`Grammar.enclosed`), so what is behind a
  comma does not tell whether to go on, and the rule asks for the closing bracket instead;
* between the brackets behind an atom there is an index or a range, and not nothing;
* a name is a variable or a function as any number of lexemes behind it say
  (`Run.not_callFollows_tails`);
* operators are ambiguous. In `a IN b + c` the parser takes all of `b + c` as the operand of
  the test, and never goes back. Whatever the derivation, the tokens of a sum are operands with
  connectors between them (`Grammar.chain`), and the parser takes any such row.
-/

namespace BindCheck

open RegularExpression

/-! ### Calls -/

namespace Grammar

/-- The tokens that may stand behind one query. -/
def afterQuery : List Terminal := [.keyword .UNION, .queryEnd]

/-- The tokens that may stand behind a clause. -/
def afterClause : List Terminal :=
  .keywords [.MATCH, .OPTIONAL, .UNWIND, .CALL, .CREATE, .MERGE, .SET, .DELETE, .DETACH, .REMOVE,
    .RETURN, .WITH] :: afterQuery

/-- The tokens that may stand behind a pattern. -/
def afterPattern : List Terminal :=
  .symbols [.rightParen, .comma] :: .keywords [.WHERE, .ON] :: afterClause

/-- The tokens that may stand behind an expression. -/
def afterExpression : List Terminal :=
  .symbols [.rightParen, .rightBracket, .rightBrace, .comma, .twoDots] ::
    .keywords [.AS, .WHEN, .THEN, .ELSE, .END, .WHERE, .ORDER, .SKIP, .LIMIT, .ASCENDING, .ASC,
      .DESCENDING, .DESC, .ON] :: afterClause

/-- The tokens that may stand behind a comparison. -/
def afterComparison : List Terminal := .keywords [.OR, .XOR, .AND] :: afterExpression

/-- The tokens that may stand behind a sum. -/
def afterSum : List Terminal :=
  .symbols [.equal, .notEqual, .less, .greater, .atMost, .atLeast] :: afterComparison

/-- The operators of sums and all tighter levels. -/
def operators : Terminal := .symbols [.plus, .minus, .star, .slash, .percent, .caret]

/-- The tokens that may stand behind an operand of a sum. -/
def afterOperand : List Terminal := operators :: predicateWord :: afterSum

/-- A sign in front of an operand. -/
def signs : Terminal := .symbols [.plus, .minus]

/-- A query of one part or of several. -/
def tailForm : Form := .of .singlePartQuery + .of .multiPartQuery

/-- The rules that are called by name. Behind a call for signed operands nothing is said to
stand: what it takes depends on more than the next token. -/
def calls : List Leaf :=
  [⟨.call .singleQuery, .of .singleQuery, afterQuery⟩,
   ⟨.call .queryTail, tailForm, afterQuery⟩,
   ⟨.call .patternElement, .of .patternElement, afterPattern⟩,
   ⟨.call .expression, .of .expression, afterExpression⟩,
   ⟨.call .comparison, .of .comparison, afterComparison⟩,
   ⟨.call .sum, .of .sum, afterSum⟩,
   ⟨.call .unary, (Form.token signs).star * .of .predicate, []⟩]

end Grammar

/-- A leaf takes just what its form yields. -/
structure Leaf.Exact (m : Nat) (leaf : Leaf) : Prop where
  sound : leaf.Sound m
  complete : leaf.Complete m

namespace Rule

variable (leaves : List Leaf)

/-- Whether all that a rule takes is of a form, as far as the rule tells. -/
def reads (f : Form) (r : Rule) : Bool :=
  r.conforms leaves none && !r.callsFirst none &&
    includes 0 (r.label leaves (r.spelled leaves none)) f

/-- Whether a rule takes just what is of a form, as far as the rule tells. -/
def realizes (f : Form) (follow : List Terminal) (r : Rule) : Bool :=
  r.reads leaves f && includes 0 f (r.label leaves (r.spelled leaves none)) &&
    r.predicts leaves none (.tokens follow)

end Rule

section

variable {leaves : List Leaf} {m : Nat} {r s : Rule} {f : Form} {follow : List Terminal}

/-- A rule that calls no other one first has few enough lexemes to take. -/
theorem Rule.Below.of_le {us : List Lexeme} (hlen : us.length ≤ m)
    (hearly : (!r.callsFirst none) = true) : r.Below m none us := by
  refine ⟨hlen, fun hc => ?_⟩
  rw [hc] at hearly
  exact Bool.noConfusion hearly

theorem Leaf.Sound.of_reads (hleaves : ∀ leaf ∈ leaves, leaf.Exact m)
    (hs : s.reads leaves f = true) (hr : ∀ us vs, r.Accepts us vs → s.Accepts us vs) :
    Leaf.Sound m ⟨r, f, follow⟩ := by
  simp only [Rule.reads, Bool.and_eq_true] at hs
  obtain ⟨⟨hconforms, hearly⟩, hform⟩ := hs
  intro known us vs cs hbelow run
  obtain ⟨_, run⟩ := hr us vs ⟨cs, run⟩
  exact (run.yields (fun l hl => (hleaves l hl).sound) hconforms (.of_le hbelow.1 hearly)
    (Rule.holds_none _)).mono hform

theorem Rule.accepts_of_realizes (hleaves : ∀ leaf ∈ leaves, leaf.Exact m)
    (hs : s.realizes leaves f follow = true) {us vs : List Lexeme} (hlen : us.length ≤ m)
    (hvs : (Ahead.tokens follow).Holds vs) (h : Yields f (us.map Lexeme.token)) :
    s.Accepts us vs := by
  simp only [realizes, reads, Bool.and_eq_true] at hs
  obtain ⟨⟨⟨⟨hconforms, hearly⟩, -⟩, hform⟩, hpredicts⟩ := hs
  exact (finds (fun l hl => (hleaves l hl).complete) hconforms hpredicts us vs
    (.of_le hlen hearly) hvs (h.mono hform)).1

theorem Leaf.Exact.of_realizes (hleaves : ∀ leaf ∈ leaves, leaf.Exact m)
    (hs : s.realizes leaves f follow = true) (hr : ∀ us vs, r.Accepts us vs ↔ s.Accepts us vs) :
    Leaf.Exact m ⟨r, f, follow⟩ where
  sound := by
    rw [Rule.realizes, Bool.and_eq_true, Bool.and_eq_true] at hs
    exact Leaf.Sound.of_reads hleaves hs.1.1 fun us vs => (hr us vs).mp
  complete := fun hbelow hvs h =>
    (hr _ _).mpr (Rule.accepts_of_realizes hleaves hs hbelow.1 hvs h)

end

/-! ### What stands in brackets -/

namespace Grammar

/-- The end of a range, which may be left out. -/
def rangeEnd : Rule :=
  .row [.sign .twoDots, .branch (.notNext (.symbol .rightBracket)) (.call .expression) .empty]

/-- An index or a range, told apart by the first token. -/
def indexOrRange : Rule :=
  .row [.sign .leftBracket,
    .branch (.next [.symbol .twoDots]) rangeEnd
      (.row [.call .expression, .whenNext (.symbol .twoDots) rangeEnd]),
    .sign .rightBracket]

/-- The brackets behind an atom. -/
def indexOrRangeForm : Form :=
  .sign .leftBracket * .of .expression * .sign .rightBracket +
    .sign .leftBracket * .optional (.of .expression) * .sign .twoDots *
      .optional (.of .expression) * .sign .rightBracket

/-- Whether the items up to a closing bracket are of a form, and can be told from the bracket
and from the comma. -/
def itemsFit (close : Symbol) (item : List Rule) (f : Form) : Bool :=
  let r := Rule.row item
  let g := r.label calls (r.spelled calls none)
  r.conforms calls none && r.predicts calls none (.tokens [.symbol .comma, .symbol close]) &&
    includes 0 g f && includes 0 f g && r.takes none &&
    (Lookahead.notNext (.symbol close)).surely (.tokens r.firsts) &&
    (Terminal.symbol .comma).disjoint (.symbol close)

/-- An element of a list. -/
def listElement : List Rule := [.call .expression]

/-- An entry of a map. -/
def mapEntry : List Rule := [.node .propertyKeyName someName, .sign .colon, .call .expression]

/-- What is computed from the rules that have brackets around them. -/
structure BracketChecks : Prop where
  elements : itemsFit .rightBracket listElement (.of .expression) = true
  entries : itemsFit .rightBrace mapEntry (.name * .sign .colon * .of .expression) = true
  indices : indexOrRange.realizes calls indexOrRangeForm [.anything] = true

theorem bracketChecks : BracketChecks := by
  constructor <;> decide +kernel

end Grammar

/-! ### Lists and maps -/

/-- Items up to a closing bracket. A comma may stand behind the last one. -/
def Grammar.listed (close : Symbol) (item : List Rule) : Rule :=
  .many (.notNext (.symbol close)) <| .row <| item ++
    [.branch (.next [.symbol close]) .empty
      (.token (.symbol .comma) (.terminal (.symbols [.comma, close])))]

/-- Items between brackets. -/
def Grammar.enclosed (k : NodeKind) (opening close : Symbol) (item : List Rule) : Rule :=
  .node k (.row [.sign opening, listed close item, .sign close])

theorem Grammar.listLiteral_eq :
    listLiteral = enclosed .listLiteral .leftBracket .rightBracket listElement := rfl

theorem Grammar.mapLiteral_eq :
    mapLiteral = enclosed .mapLiteral .leftBrace .rightBrace mapEntry := rfl

/-- The last rule of a row. -/
theorem Rule.Accepts.row_append {rs : List Rule} {s : Rule} {us vs : List Lexeme} :
    (row (rs ++ [s])).Accepts us vs ↔ (Rule.seq (row rs) s).Accepts us vs := by
  induction rs generalizing us vs with
  | nil =>
      rw [seq_iff]
      constructor
      · intro h
        exact ⟨[], us, rfl, empty_iff.mpr rfl, h⟩
      · rintro ⟨_, us, rfl, hempty, h⟩
        obtain rfl := empty_iff.mp hempty
        exact h
  | cons r rs ih =>
      cases rs with
      | nil => exact Iff.rfl
      | cons r' rs => exact (seq_congr (fun _ _ => Iff.rfl) fun _ _ => ih).trans seq_assoc.symm

/-- Items with commas between them, and none or one behind the last. -/
def Form.elements (f : Form) : Form := optional (list f * optional (sign .comma))

theorem Yields.elements_cons {f : Form} {us vs ws : List Token} (hf : Yields f us)
    (hcomma : Yields (.sign .comma) vs) (h : Yields (.elements f) ws) :
    Yields (.elements f) (us ++ vs ++ ws) := by
  have hone : Yields (Form.list f) us := by
    rw [← List.append_nil us]
    exact hf.mul star_nil
  refine add_iff.mpr (.inl ?_)
  rcases add_iff.mp h with h | h
  · obtain ⟨_, w₂, rfl, hlist, hlast⟩ := mul_iff.mp h
    obtain ⟨w, w₁, rfl, hw, hmore⟩ := mul_iff.mp hlist
    have hlist' : Yields (Form.list f) (us ++ (vs ++ w ++ w₁)) :=
      hf.mul ((hcomma.mul hw).star_cons hmore)
    rw [show us ++ vs ++ (w ++ w₁ ++ w₂) = us ++ (vs ++ w ++ w₁) ++ w₂ by simp]
    exact hlist'.mul hlast
  · rw [one_iff.mp h, List.append_nil]
    exact hone.mul (add_iff.mpr (.inl hcomma))

section

variable {m : Nat} {close : Symbol} {item : List Rule} {f : Form} {us vs : List Lexeme}
  {cs : List Cover} {c : Lexeme}

theorem Run.yields_listed
    (hsound : ∀ us vs cs, us.length < m → Run (.row item) us vs cs → Yields f (us.map Lexeme.token))
    (h : Run (Grammar.listed close item) us vs cs) (hlen : us.length < m) :
    Yields (.elements f) (us.map Lexeme.token) := by
  have hnil : Yields (.elements f) [] := Yields.add_iff.mpr (.inr (Yields.one_iff.mpr rfl))
  refine many_induction (P := fun us _ => us.length < m → Yields (.elements f) (us.map Lexeme.token))
    (fun _ _ => hnil) ?_ h hlen
  intro us us' _ _ _ round more ih hlen
  obtain ⟨us₁, us₂, rfl, ⟨_, run⟩, hsep⟩ :=
    Rule.Accepts.seq_iff.mp (Rule.Accepts.row_append.mp ⟨_, round⟩)
  simp only [List.length_append] at hlen
  have hf := hsound _ _ _ (by omega) run
  rcases Rule.Accepts.branch_iff.mp hsep with ⟨holds, hempty⟩ | ⟨-, hcomma⟩
  · -- the closing bracket is next, so there are no more rounds
    obtain rfl := Rule.Accepts.empty_iff.mp hempty
    have hlast : us' = [] := by
      rcases many_iff.mp more with ⟨rfl, -⟩ | ⟨_, _, _, _, -, -, hnot, -⟩
      · rfl
      · rw [List.nil_append] at holds
        cases hrest : us' ++ vs with
        | nil => rw [hrest] at holds; exact Bool.noConfusion holds
        | cons v ws =>
            rw [hrest] at holds hnot
            rw [Lookahead.holds, (Bool.and_eq_true_iff.mp holds).1] at hnot
            exact Bool.noConfusion hnot
    subst hlast
    have hone : Yields (Form.list f * .optional (.sign .comma)) (us₁.map Lexeme.token) := by
      rw [← List.append_nil (us₁.map _)]
      refine Yields.mul ?_ (Yields.add_iff.mpr (.inr (Yields.one_iff.mpr rfl)))
      rw [← List.append_nil (us₁.map _)]
      exact hf.mul Yields.star_nil
    rw [List.append_nil, List.append_nil]
    exact Yields.add_iff.mpr (.inl hone)
  · obtain ⟨u, rfl, hu⟩ := Rule.Accepts.token_iff.mp hcomma
    have hsep : Yields (.sign .comma) [u.token] := Yields.token_iff.mpr ⟨_, rfl, hu⟩
    rw [List.map_append, List.map_append]
    exact hf.elements_cons hsep (ih (by omega))

/-- In front of the closing bracket there may be no items. -/
theorem Rule.Accepts.listed_nil (hc : (Terminal.symbol close).accepts c.token = true) :
    (Grammar.listed close item).Accepts [] (c :: vs) := by
  refine ⟨[], .done ?_⟩
  rw [Lookahead.holds, hc]
  rfl

section

variable
  (hcomplete : ∀ us vs : List Lexeme, us.length < m →
    (Ahead.tokens [.symbol .comma, .symbol close]).Holds vs → Yields f (us.map Lexeme.token) →
    (Rule.row item).Accepts us vs)
  (hfirst : ∀ us vs, (Rule.row item).Accepts us vs →
    (Lookahead.notNext (.symbol close)).holds (us ++ vs) = true)

include hcomplete hfirst

/-- An item and the lexemes of its round behind it, in front of more items. -/
theorem Rule.Accepts.listed_round {sep ws : List Lexeme} (hlen : us.length < m)
    (hf : Yields f (us.map Lexeme.token))
    (hbehind : (Ahead.tokens [.symbol .comma, .symbol close]).Holds (sep ++ (ws ++ vs)))
    (hsep : (branch (.next [.symbol close]) .empty (token (.symbol .comma)
      (.terminal (.symbols [.comma, close])))).Accepts sep (ws ++ vs))
    (hmore : (Grammar.listed close item).Accepts ws vs) :
    (Grammar.listed close item).Accepts (us ++ sep ++ ws) vs := by
  obtain ⟨_, more⟩ := hmore
  have hitem := hcomplete us _ hlen hbehind hf
  obtain ⟨_, round⟩ := row_append.mpr (hitem.seq hsep)
  exact ⟨_, .step (by simpa using hfirst us _ hitem) round more⟩

/-- The last item, in front of the closing bracket. -/
theorem Rule.Accepts.listed_last (hc : (Terminal.symbol close).accepts c.token = true)
    (hlen : us.length < m) (hf : Yields f (us.map Lexeme.token)) :
    (Grammar.listed close item).Accepts us (c :: vs) := by
  have hnext : (Lookahead.next [.symbol close]).holds (c :: vs) = true := by
    rw [Lookahead.holds, Lookahead.nextIn, hc]
    cases vs <;> rfl
  have hlast : (Grammar.listed close item).Accepts (us ++ [] ++ []) (c :: vs) :=
    listed_round hcomplete hfirst hlen hf (.tokens ⟨_, by simp, hc⟩)
      (branch_iff.mpr (.inl ⟨hnext, empty_iff.mpr rfl⟩)) (listed_nil hc)
  simpa using hlast

/-- An item and a comma, in front of more items. -/
theorem Rule.Accepts.listed_cons
    (hcomma : (Terminal.symbol .comma).disjoint (.symbol close) = true) {ws : List Lexeme}
    {u : Lexeme} (hlen : us.length < m) (hf : Yields f (us.map Lexeme.token))
    (hu : (Terminal.symbol .comma).accepts u.token = true)
    (hmore : (Grammar.listed close item).Accepts ws vs) :
    (Grammar.listed close item).Accepts (us ++ [u] ++ ws) vs :=
  listed_round hcomplete hfirst hlen hf (.tokens ⟨_, by simp, hu⟩)
    ⟨_, .no (Lookahead.next_disjoint hu hcomma) (.token hu)⟩ hmore

/-- The items are found, up to the closing bracket. -/
theorem Rule.Accepts.listed
    (hcomma : (Terminal.symbol .comma).disjoint (.symbol close) = true)
    (hc : (Terminal.symbol close).accepts c.token = true)
    (h : Yields (.elements f) (us.map Lexeme.token)) (hlen : us.length < m) :
    (Grammar.listed close item).Accepts us (c :: vs) := by
  rcases Yields.add_iff.mp h with h | h
  · obtain ⟨_, last, rfl, hlist, hlast⟩ := h.split
    obtain ⟨us, ws, rfl, hf, hmore⟩ := hlist.split
    simp only [List.length_append] at hlen
    refine Yields.star_rounds (P := fun ws => ∀ us : List Lexeme,
      us.length + ws.length + last.length < m → Yields f (us.map Lexeme.token) →
      (Grammar.listed close item).Accepts (us ++ ws ++ last) (c :: vs)) ?_ ?_ hmore us hlen hf
    · intro us hlen hf
      rw [List.append_nil]
      rcases Yields.add_iff.mp hlast with hlast | hlast
      · obtain ⟨u, rfl, hu⟩ := hlast.exists_token
        have hclosed : (Grammar.listed close item).Accepts (us ++ [u] ++ []) (c :: vs) :=
          listed_cons hcomplete hfirst hcomma (by simp at hlen; omega) hf hu (listed_nil hc)
        rwa [List.append_nil] at hclosed
      · obtain rfl := hlast.eq_nil
        rw [List.append_nil]
        exact listed_last hcomplete hfirst hc (by simpa using hlen) hf
    · intro round ws hround _ ih us hlen hf
      obtain ⟨_, us', rfl, hsep, hf'⟩ := hround.split
      obtain ⟨u, rfl, hu⟩ := hsep.exists_token
      simp only [List.length_append, List.length_singleton] at hlen
      have hitems := listed_cons hcomplete hfirst hcomma (by omega) hf hu (ih us' (by omega) hf')
      simpa using hitems
  · obtain rfl := h.eq_nil
    exact listed_nil hc

end

/-- Items between brackets, from the items. -/
theorem Grammar.enclosed_exact {k : NodeKind} {opening : Symbol}
    (hsound : ∀ us vs cs, us.length < m → Run (.row item) us vs cs → Yields f (us.map Lexeme.token))
    (hcomplete : ∀ us vs, us.length < m → (Ahead.tokens [.symbol .comma, .symbol close]).Holds vs →
      Yields f (us.map Lexeme.token) → (Rule.row item).Accepts us vs)
    (hfirst : ∀ us vs, (Rule.row item).Accepts us vs →
      (Lookahead.notNext (.symbol close)).holds (us ++ vs) = true)
    (hcomma : (Terminal.symbol .comma).disjoint (.symbol close) = true) :
    Leaf.Exact m ⟨enclosed k opening close item,
      .sign opening * .elements f * .sign close, [.anything]⟩ where
  sound := by
    intro known us vs cs hbelow run
    have hlen := hbelow.1
    obtain ⟨_, -, run⟩ := Run.node_iff.mp run
    obtain ⟨_, _, _, _, rfl, -, hopen, run⟩ := Run.seq_iff.mp run
    obtain ⟨us, _, _, _, rfl, -, hlisted, hclose⟩ := Run.seq_iff.mp run
    obtain ⟨o, rfl, ho, -⟩ := Run.token_iff.mp hopen
    obtain ⟨c, rfl, hc, -⟩ := Run.token_iff.mp hclose
    simp only [List.length_append, List.length_singleton] at hlen
    have hitems := hlisted.yields_listed hsound (by omega)
    have ho : Yields (.sign opening) [o.token] := Yields.token_iff.mpr ⟨_, rfl, ho⟩
    have hc : Yields (.sign close) [c.token] := Yields.token_iff.mpr ⟨_, rfl, hc⟩
    rw [← List.append_assoc, List.map_append, List.map_append]
    exact (ho.mul hitems).mul hc
  complete := by
    intro known us vs hbelow _ hyields
    have hlen := hbelow.1
    obtain ⟨_, _, rfl, hyields, hclose⟩ := hyields.split
    obtain ⟨_, us, rfl, hopen, hitems⟩ := hyields.split
    obtain ⟨o, rfl, ho⟩ := hopen.exists_token
    obtain ⟨c, rfl, hc⟩ := hclose.exists_token
    simp only [List.length_append, List.length_singleton] at hlen
    obtain ⟨cs, run⟩ := Rule.Accepts.listed hcomplete hfirst hcomma hc hitems (by omega)
    have hbody : Run (.row [.sign opening, listed close item, .sign close]) ([o] ++ (us ++ [c])) vs
        ([] ++ (cs ++ [])) := .seq (.token ho) (.seq run (.token hc))
    rw [List.append_assoc]
    exact ⟨_, .wrap hbody⟩

/-- An exact form of a category is one of the category. -/
theorem Leaf.Exact.of_form {r : Rule} {p : Phrase} {follow : List Terminal}
    (h : Leaf.Exact m ⟨r, p.form, follow⟩) : Leaf.Exact m ⟨r, .of p, follow⟩ where
  sound := fun hbelow run => Yields.of_iff.mpr (h.sound hbelow run)
  complete := fun hbelow hvs hyields => h.complete hbelow hvs (Yields.of_iff.mp hyields)

/-- Items between brackets, from the calls. -/
theorem Grammar.enclosed_of_calls {k : NodeKind} {opening : Symbol}
    (hcalls : ∀ leaf ∈ calls, leaf.Exact m) (hitems : itemsFit close item f = true) :
    Leaf.Exact m ⟨enclosed k opening close item,
      .sign opening * .elements f * .sign close, [.anything]⟩ := by
  simp only [itemsFit, Bool.and_eq_true] at hitems
  obtain ⟨⟨⟨⟨⟨⟨hr, hp⟩, hform⟩, hform'⟩, htakes⟩, hfirsts⟩, hcomma⟩ := hitems
  refine enclosed_exact (fun us vs cs hlen run => ?_) (fun us vs hlen hvs hyields => ?_)
    (fun us vs ⟨_, run⟩ => Lookahead.holds_of_surely hfirsts (run.holds_firsts htakes)) hcomma
  · exact (run.yields (fun l hl => (hcalls l hl).sound) hr (.of_lt hlen)
      (Rule.holds_none _)).mono hform
  · exact (Rule.finds (fun l hl => (hcalls l hl).complete) hr hp us vs (.of_lt hlen) hvs
      (hyields.mono hform')).1

theorem Grammar.listLiteral_exact (hcalls : ∀ leaf ∈ calls, leaf.Exact m) :
    Leaf.Exact m ⟨listLiteral, .of .listLiteral, [.anything]⟩ := by
  rw [listLiteral_eq]
  exact .of_form (enclosed_of_calls hcalls bracketChecks.elements)

theorem Grammar.mapLiteral_exact (hcalls : ∀ leaf ∈ calls, leaf.Exact m) :
    Leaf.Exact m ⟨mapLiteral, .of .mapLiteral, [.anything]⟩ := by
  rw [mapLiteral_eq]
  exact .of_form (enclosed_of_calls hcalls bracketChecks.entries)

/-! ### Indices and ranges -/

/-- In front of a lexeme, one of the two lookaheads for a token holds. -/
theorem Lookahead.notNext_holds {t : Terminal} {ls : List Lexeme} (hls : ls ≠ []) :
    (notNext t).holds ls = !(next [t]).holds ls := by
  cases ls with
  | nil => exact absurd rfl hls
  | cons u ls => rw [holds, holds, nextIn]; cases ls <;> simp [nextIn]

/-- Where the first bound of a range is left out, the dots are next. -/
theorem Rule.Accepts.optional_first {t : Terminal} {y z : Rule} (hne : us ++ vs ≠ []) :
    (Rule.seq (branch (.notNext t) y empty) (whenNext t z)).Accepts us vs ↔
      (branch (.next [t]) z (.seq y (whenNext t z))).Accepts us vs := by
  have hflip := Lookahead.notNext_holds (t := t) hne
  rw [branch_iff, seq_iff]
  constructor
  · rintro ⟨us₁, us₂, rfl, hfirst, hrest⟩
    rw [List.append_assoc] at hflip ⊢
    rcases branch_iff.mp hfirst with ⟨holds, hy⟩ | ⟨fails, hempty⟩
    · rw [holds] at hflip
      exact .inr ⟨by simpa using hflip.symm, hy.seq hrest⟩
    · obtain rfl := empty_iff.mp hempty
      rw [fails] at hflip
      have hnext : (Lookahead.next [t]).holds (us₂ ++ vs) = true := by simpa using hflip.symm
      rcases branch_iff.mp hrest with ⟨-, hz⟩ | ⟨hno, -⟩
      · exact .inl ⟨hnext, hz⟩
      · exact Bool.noConfusion (hno.symm.trans hnext)
  · rintro (⟨holds, hz⟩ | ⟨fails, h⟩)
    · rw [holds] at hflip
      exact ⟨[], us, rfl, branch_iff.mpr (.inr ⟨hflip, empty_iff.mpr rfl⟩),
        branch_iff.mpr (.inl ⟨holds, hz⟩)⟩
    · obtain ⟨us₁, us₂, rfl, hy, hrest⟩ := seq_iff.mp h
      rw [List.append_assoc] at fails hflip
      rw [fails] at hflip
      exact ⟨us₁, us₂, rfl, branch_iff.mpr (.inl ⟨hflip, hy⟩), hrest⟩

/-- Nothing is taken between the brackets that is neither an index nor a range. -/
theorem Rule.Accepts.listOperator_iff :
    Grammar.listOperator.Accepts us vs ↔ Grammar.indexOrRange.Accepts us vs := by
  refine wrap_iff.trans (seq_congr (fun _ _ => Iff.rfl) fun us vs => ?_)
  -- both sides end with the closing bracket, so there is a lexeme to look at
  have hmiddle : ∀ us ws : List Lexeme, (sign .rightBracket).Accepts ws vs →
      ((Rule.seq (branch (.notNext (.symbol .twoDots)) (call .expression) empty)
          (whenNext (.symbol .twoDots) Grammar.rangeEnd)).Accepts us (ws ++ vs) ↔
        (branch (.next [.symbol .twoDots]) Grammar.rangeEnd
          (.seq (call .expression) (whenNext (.symbol .twoDots) Grammar.rangeEnd))).Accepts us
            (ws ++ vs)) := by
    intro us ws hclose
    obtain ⟨c, rfl, -⟩ := token_iff.mp hclose
    exact optional_first (by simp)
  refine seq_assoc.symm.trans ((seq_iff.trans ?_).trans seq_iff.symm)
  constructor
  · rintro ⟨us₁, us₂, rfl, hfirst, hclose⟩
    exact ⟨us₁, us₂, rfl, (hmiddle us₁ us₂ hclose).mp hfirst, hclose⟩
  · rintro ⟨us₁, us₂, rfl, hfirst, hclose⟩
    exact ⟨us₁, us₂, rfl, (hmiddle us₁ us₂ hclose).mpr hfirst, hclose⟩

theorem Grammar.listOperator_exact (hcalls : ∀ leaf ∈ calls, leaf.Exact m) :
    Leaf.Exact m ⟨listOperator, indexOrRangeForm, [.anything]⟩ :=
  .of_realizes hcalls bracketChecks.indices fun _ _ => Rule.Accepts.listOperator_iff

end

/-! ### Atoms -/

namespace Grammar

/-- The calls, and the rules with brackets. -/
def bracketed : List Leaf :=
  [⟨listLiteral, .of .listLiteral, [.anything]⟩, ⟨mapLiteral, .of .mapLiteral, [.anything]⟩,
   ⟨listOperator, indexOrRangeForm, [.anything]⟩] ++ calls

theorem bracketed_exact {m : Nat} (hcalls : ∀ leaf ∈ calls, leaf.Exact m) :
    ∀ leaf ∈ bracketed, leaf.Exact m := by
  refine List.forall_mem_append.mpr ⟨?_, hcalls⟩
  refine List.forall_mem_cons.mpr ⟨listLiteral_exact hcalls, ?_⟩
  refine List.forall_mem_cons.mpr ⟨mapLiteral_exact hcalls, ?_⟩
  exact List.forall_mem_singleton.mpr (listOperator_exact hcalls)

/-- The categories of the atoms that their first token tells. -/
def atomPhrases : List Phrase :=
  [.literal, .listLiteral, .mapLiteral, .parameter, .caseExpression, .parenthesized]

/-- Properties, elements and labels behind an atom. -/
def tails : Rule :=
  .many (.next [.symbols [.dot, .leftBracket, .colon]])
    (.branch (.next [.symbol .colon]) nodeLabels access)

/-- One label. -/
def label : Rule := .node .nodeLabel (.row [.sign .colon, someName])

/-- Properties, elements and labels, with each label for itself. -/
def singleTails : Rule :=
  .many (.next [.symbols [.dot, .leftBracket, .colon]])
    (.branch (.next [.symbol .colon]) label access)

open Form in
/-- The form of what may follow an atom. -/
def tailsForm : Form := (sign .dot * name + indexOrRangeForm + sign .colon * name).star

/-- Labels are taken one by one. -/
def splitLabels : Phrase → Form
  | .nodeLabels => Phrase.nodeLabels.form
  | p => .of p

/-- What is computed from the rules for atoms and for what may follow them. -/
structure AtomChecks : Prop where
  atoms : ∀ p ∈ atomPhrases, ∃ f ∈ atomForms, f.2.realizes bracketed (.of p) [.anything] = true
  countStar : Grammar.countStar.realizes bracketed (.of .countStar) [.anything] = true
  function : functionInvocation.conforms calls (some .dottedCall) = true
  functionFound :
    functionInvocation.predicts calls (some .dottedCall) (.tokens [.anything]) = true
  functionName : (Lookahead.next [.identifier]).surely
    (functionInvocation.opens calls (some .dottedCall) (.tokens [.anything])) = true
  tails : singleTails.realizes bracketed tailsForm afterOperand = true
  noCall : (Lookahead.next [.symbols [.dot, .leftParen]]).surelyNot (.tokens afterOperand) = true
  accessed : Grammar.accessed.reads bracketed (.of .accessed) = true
  labels : includes 0 (Phrase.nodeLabels.form.replace splitLabels) (splitLabels .nodeLabels) = true
  accessedForm :
    includes 0 (Phrase.accessed.form.replace splitLabels) (Form.of .atom * tailsForm) = true

theorem atomChecks : AtomChecks := by
  constructor <;> decide +kernel

theorem splitLabels_closed (p : Phrase) : splitLabels p = .of p ∨
    includes 0 (p.form.replace splitLabels) (splitLabels p) = true := by
  cases p
  case nodeLabels => exact .inr atomChecks.labels
  all_goals exact .inl rfl

end Grammar

/-- Where neither a dot nor a parenthesis is next, no call follows. -/
theorem Lookahead.not_callFollows {ls : List Lexeme}
    (h : (next [.symbols [.dot, .leftParen]]).holds ls = false) : callFollows ls = false := by
  cases ls with
  | nil => rfl
  | cons u ls =>
      have hnot : (Terminal.symbols [.dot, .leftParen]).accepts u.token = false := by
        rw [holds, nextIn] at h
        cases ls <;> simpa [nextIn] using h
      have hall : ∀ t : Terminal, t.within (.symbols [.dot, .leftParen]) = true →
          t.accepts u.token = false := by
        intro t ht
        refine Bool.eq_false_iff.mpr fun hu => ?_
        rw [Terminal.accepts_of_within ht hu] at hnot
        exact Bool.noConfusion hnot
      have hdot := hall (.symbol .dot) (by decide)
      have hparen := hall (.symbol .leftParen) (by decide)
      cases ls with
      | nil => exact hparen
      | cons v ls => rw [callFollows, hdot, Bool.false_and]; exact hparen

section

variable {m : Nat} {us vs : List Lexeme}

theorem Rule.Accepts.functionInvocation (hcalls : ∀ leaf ∈ Grammar.calls, leaf.Exact m)
    (hlen : us.length ≤ m) (hvs : (Ahead.tokens [.anything]).Holds vs)
    (h : Yields (.of .functionInvocation) (us.map Lexeme.token)) :
    Grammar.functionInvocation.Accepts us vs ∧ Lookahead.dottedCall.holds (us ++ vs) = true := by
  have hbelow : Grammar.functionInvocation.Below m (some .dottedCall) us :=
    ⟨hlen, fun hc => Bool.noConfusion hc⟩
  obtain ⟨⟨cs, run⟩, hopens⟩ := Rule.finds (fun l hl => (hcalls l hl).complete)
    Grammar.atomChecks.function Grammar.atomChecks.functionFound us vs hbelow hvs h
  refine ⟨⟨cs, run⟩, run.dottedCall (fun u hu => ?_) vs⟩
  obtain ⟨us, rfl⟩ := List.head?_eq_some_iff.mp hu
  exact (Bool.and_eq_true_iff.mp (Lookahead.holds_of_surely Grammar.atomChecks.functionName hopens)).1

/-- Any atom, with no call behind it. -/
theorem Rule.Accepts.atom (hcalls : ∀ leaf ∈ Grammar.calls, leaf.Exact m) (hlen : us.length ≤ m)
    (hvs : (Ahead.tokens [.anything]).Holds vs) (hcall : Lookahead.callFollows vs = false)
    (h : Yields (.of .atom) (us.map Lexeme.token)) : Grammar.atom.Accepts us vs := by
  have hleaves := Grammar.bracketed_exact hcalls
  have hform : ∀ p ∈ Grammar.atomPhrases, Yields (.of p) (us.map Lexeme.token) →
      Grammar.atom.Accepts us vs := by
    intro p hp h
    obtain ⟨f, hf, hrealizes⟩ := Grammar.atomChecks.atoms p hp
    obtain ⟨cs, run⟩ := Rule.accepts_of_realizes hleaves hrealizes hlen hvs h
    exact ⟨cs, run.atom_of_form hf⟩
  have h := Yields.of_iff.mp h
  simp only [Phrase.form, Yields.add_iff] at h
  rcases h with (((((((h | h) | h) | h) | h) | h) | h) | h) | h
  -- the categories that the first token tells, in the order of the grammar
  iterate 6 exact hform _ (by decide) h
  · obtain ⟨cs, run⟩ := Rule.accepts_of_realizes hleaves Grammar.atomChecks.countStar hlen hvs h
    exact ⟨cs, run.atom_of_countStar⟩
  · obtain ⟨⟨cs, run⟩, hdotted⟩ := Rule.Accepts.functionInvocation hcalls hlen hvs h
    exact ⟨cs, run.atom_of_functionInvocation hdotted⟩
  · obtain ⟨x, rfl, hx⟩ := (Yields.of_iff.mp h).exists_token
    exact ⟨_, Run.atom_of_identifier hx hcall⟩

/-! ### What may follow an atom -/

/-- A label goes with the labels behind it. -/
theorem Rule.Accepts.tails_of_label {ws : List Lexeme} (hlabel : Grammar.label.Accepts us (ws ++ vs))
    (hcolon : (Lookahead.next [.symbol .colon]).holds (us ++ (ws ++ vs)) = true)
    (h : Grammar.tails.Accepts ws vs) : Grammar.tails.Accepts (us ++ ws) vs := by
  obtain ⟨_, label⟩ := hlabel
  obtain ⟨_, run⟩ := h
  have holds : (Lookahead.next [.symbols [.dot, .leftBracket, .colon]]).holds
      (us ++ (ws ++ vs)) = true :=
    Lookahead.holds_of_within hcolon (by decide)
  -- where no label follows, this is the last one
  have hlast : (Lookahead.next [.symbol .colon]).holds (ws ++ vs) = false →
      Grammar.tails.Accepts (us ++ ws) vs := by
    intro hno
    have hlabels : Run (.many (.next [.symbol .colon]) Grammar.label) (us ++ []) (ws ++ vs) _ :=
      .step hcolon label (.done hno)
    rw [List.append_nil] at hlabels
    exact ⟨_, .step holds (.yes hcolon (.wrap hlabels)) run⟩
  rcases Run.many_iff.mp run with ⟨rfl, -, fails⟩ | ⟨ws, ws', _, _, rfl, -, -, round, more⟩
  · refine hlast (Bool.eq_false_iff.mpr fun hno => ?_)
    rw [List.nil_append, ← Bool.not_eq_true] at *
    exact fails (Lookahead.holds_of_within hno (by decide))
  · rcases Run.branch_iff.mp round with ⟨-, hlabels⟩ | ⟨hno, -⟩
    · obtain ⟨_, -, hlabels⟩ := Run.node_iff.mp hlabels
      rw [List.append_assoc] at label hcolon holds
      rw [← List.append_assoc]
      have hall : Run (.many (.next [.symbol .colon]) Grammar.label) (us ++ ws) (ws' ++ vs) _ :=
        .step hcolon label hlabels
      rw [← List.append_assoc] at hcolon holds
      exact ⟨_, .step holds (.yes hcolon (.wrap hall)) more⟩
    · exact hlast (by rwa [List.append_assoc])

/-- Labels taken one by one are taken together too. -/
theorem Rule.Accepts.tails (h : Grammar.singleTails.Accepts us vs) : Grammar.tails.Accepts us vs := by
  obtain ⟨cs, run⟩ := h
  refine Run.many_induction (P := fun us _ => Grammar.tails.Accepts us vs)
    (fun fails => ⟨_, .done fails⟩) ?_ run
  intro us us' _ _ holds round _ ih
  rcases Run.branch_iff.mp round with ⟨hcolon, hlabel⟩ | ⟨hno, haccess⟩
  · exact tails_of_label ⟨_, hlabel⟩ hcolon ih
  · obtain ⟨_, more⟩ := ih
    exact ⟨_, .step holds (.no hno haccess) more⟩

/-- Whatever stands behind an atom, the tails are what the rule for operands goes on with: all
without labels, and then all from the first label on. -/
theorem Rule.Accepts.seq_of_tails (h : Grammar.tails.Accepts us vs) :
    (Rule.seq (many (.next [.symbols [.dot, .leftBracket]]) Grammar.access)
      (branch (.next [.symbol .colon]) Grammar.tails empty)).Accepts us vs := by
  obtain ⟨cs, run⟩ := h
  refine Run.many_induction (P := fun us _ =>
    (Rule.seq (many (.next [.symbols [.dot, .leftBracket]]) Grammar.access)
      (branch (.next [.symbol .colon]) Grammar.tails empty)).Accepts us vs) ?_ ?_ run
  · intro fails
    have hnot : ∀ {t : Terminal}, t.within (.symbols [.dot, .leftBracket, .colon]) = true →
        (Lookahead.next [t]).holds vs = false := by
      intro t ht
      refine Bool.eq_false_iff.mpr fun holds => ?_
      rw [Lookahead.holds_of_within holds ht] at fails
      exact Bool.noConfusion fails
    exact ⟨_, .seq (.done (hnot (by decide))) (.no (hnot (by decide)) .empty)⟩
  · intro us us' _ _ holds round more ih
    rcases Run.branch_iff.mp round with ⟨hcolon, -⟩ | ⟨-, haccess⟩
    · have hno : (Lookahead.next [.symbols [.dot, .leftBracket]]).holds (us ++ (us' ++ vs)) = false :=
        Lookahead.fails_of_disjoint hcolon (by decide)
      rw [← List.append_assoc] at hno hcolon
      have hnone : Run (.many (.next [.symbols [.dot, .leftBracket]]) Grammar.access) []
          (us ++ us' ++ vs) [] := .done hno
      exact seq_iff.mpr ⟨[], us ++ us', rfl, ⟨_, hnone⟩, _, .yes hcolon (.step holds round more)⟩
    · obtain ⟨us₁, us₂, rfl, ⟨_, hmany⟩, hrest⟩ := seq_iff.mp ih
      have hyes : (Lookahead.next [.symbols [.dot, .leftBracket]]).holds (us ++ (us₁ ++ us₂ ++ vs)) =
          true :=
        Lookahead.holds_of_surely (by decide) (haccess.holds_firsts (by decide))
      rw [← List.append_assoc]
      rw [List.append_assoc us₁] at haccess hyes
      exact .seq ⟨_, .step hyes haccess hmany⟩ hrest

/-- Behind an atom and its tails a call is seen only if there is one. -/
theorem Run.not_callFollows_tails {cs : List Cover} (h : Run Grammar.tails us vs cs)
    (hvs : Lookahead.callFollows vs = false) : Lookahead.callFollows (us ++ vs) = false := by
  refine many_induction (P := fun us _ => Lookahead.callFollows (us ++ vs) = false)
    (fun _ => hvs) ?_ h
  intro us us' _ _ _ round _ ih
  rw [List.append_assoc]
  rcases branch_iff.mp round with ⟨hcolon, -⟩ | ⟨-, haccess⟩
  · exact Lookahead.not_callFollows (Lookahead.fails_of_disjoint hcolon (by decide))
  · rcases branch_iff.mp haccess with ⟨-, hproperty⟩ | ⟨-, helement⟩
    · obtain ⟨_, -, hbody⟩ := node_iff.mp hproperty
      obtain ⟨_, _, _, _, rfl, -, hdot, hkey⟩ := seq_iff.mp hbody
      obtain ⟨d, rfl, hd, -⟩ := token_iff.mp hdot
      obtain ⟨_, -, hname⟩ := node_iff.mp hkey
      obtain ⟨k, rfl, hk, -⟩ := token_iff.mp hname
      show Lookahead.callFollows (d :: k :: (us' ++ vs)) = false
      rw [Lookahead.callFollows, hd, hk]
      exact ih
    · exact Lookahead.not_callFollows
        (Lookahead.fails_of_surelyNot (by decide) (helement.holds_firsts (by decide)))

theorem Grammar.accessed_exact (hcalls : ∀ leaf ∈ calls, leaf.Exact m) :
    Leaf.Exact m ⟨accessed, .of .accessed, afterOperand⟩ where
  sound := Leaf.Sound.of_reads (bracketed_exact hcalls) atomChecks.accessed
    fun _ _ h => h
  complete := by
    intro known us vs hbelow hvs h
    have hlen := hbelow.1
    obtain ⟨us₁, us₂, rfl, hatom, htails⟩ :=
      (((Yields.of_iff.mp h).replace splitLabels_closed).mono atomChecks.accessedForm).split
    rw [List.length_append] at hlen
    have htails : tails.Accepts us₂ vs :=
      .tails (Rule.accepts_of_realizes (bracketed_exact hcalls) atomChecks.tails
        (by omega) hvs htails)
    have hcall : Lookahead.callFollows (us₂ ++ vs) = false := by
      obtain ⟨_, run⟩ := htails
      exact run.not_callFollows_tails
        (Lookahead.not_callFollows (Lookahead.fails_of_surelyNot atomChecks.noCall hvs))
    have hfirst := Rule.Accepts.atom hcalls (by omega) (hvs.anything us₂) hcall hatom
    refine Rule.Accepts.fork_iff.mpr (Rule.Accepts.seq_assoc.mpr ?_)
    exact hfirst.seq (.seq_of_tails htails)

end

end BindCheck

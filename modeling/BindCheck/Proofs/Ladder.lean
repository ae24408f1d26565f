import BindCheck.Proofs.Adjacency
import BindCheck.Proofs.Locality

/-!
# BindCheck.Proofs.Ladder

**What a tight operator level finds at the end of the text, the whole ladder finds there.**
The levels of the grammar of expressions call each other from the loosest operator down to
the atoms. A node found on one level is found on each looser one if nothing but the end of
the text stands behind it: no operator follows, and its first lexeme is no sign and no
`NOT`, which the looser levels would take themselves.

The lemmas go from the atoms up to `Grammar.expression`, one for each level; the atoms are
told apart by their first lexemes (`Grammar.atomForms`).
-/

namespace BindCheck

/-! ### Disjoint terminals -/

/-- A token of each sort that terminals can tell apart. -/
def Token.sorts : List Token :=
  [.integer 0, .float 0, .string "", .identifier "COUNT", .identifier "", .eof] ++
    Keyword.all.map .keyword ++ Symbol.spellings.map fun row => .symbol row.1

theorem Token.exists_sort (b : Token) : ∃ b' ∈ sorts, ∀ t : Terminal, t.accepts b = t.accepts b' := by
  have hfront : ∀ b' ∈ [integer 0, .float 0, .string "", .identifier "COUNT", .identifier "", .eof],
      b' ∈ sorts :=
    fun b' hb' => List.mem_append_left _ (List.mem_append_left _ hb')
  cases b with
  | integer n => exact ⟨.integer 0, hfront _ (by decide), fun t => by cases t <;> rfl⟩
  | float f => exact ⟨.float 0, hfront _ (by decide), fun t => by cases t <;> rfl⟩
  | string v => exact ⟨.string "", hfront _ (by decide), fun t => by cases t <;> rfl⟩
  | identifier n =>
      by_cases hn : Terminal.countWord.accepts (.identifier n) = true
      · refine ⟨.identifier "COUNT", hfront _ (by decide), fun t => ?_⟩
        cases t <;> first | rfl | exact hn
      · refine ⟨.identifier "", hfront _ (by decide), fun t => ?_⟩
        cases t <;> first | rfl | exact Bool.eq_false_iff.mpr hn
  | eof => exact ⟨.eof, hfront _ (by decide), fun t => rfl⟩
  | keyword k =>
      exact ⟨.keyword k, List.mem_append_left _
        (List.mem_append_right _ (List.mem_map_of_mem (Keyword.mem_all k))), fun t => rfl⟩
  | symbol s =>
      have hs : ∃ row ∈ Symbol.spellings, row.1 = s := by
        cases s <;> decide
      obtain ⟨row, hrow, rfl⟩ := hs
      exact ⟨_, List.mem_append_right _ (List.mem_map_of_mem hrow), fun t => rfl⟩

/-- Whether two terminals have no token in common. -/
def Terminal.disjoint (t u : Terminal) : Bool :=
  Token.sorts.all fun b => !(t.accepts b && u.accepts b)

theorem Terminal.accepts_eq_false_of_disjoint {t u : Terminal} (h : t.disjoint u = true)
    {b : Token} (hb : t.accepts b = true) : u.accepts b = false := by
  obtain ⟨b', hb', haccepts⟩ := b.exists_sort
  have hnot := List.all_eq_true.mp h b' hb'
  rw [haccepts t] at hb
  rw [haccepts u]
  simpa [hb] using hnot

/-- Whether a terminal has all the tokens of another one. -/
def Terminal.within (t u : Terminal) : Bool :=
  Token.sorts.all fun b => !t.accepts b || u.accepts b

theorem Terminal.accepts_of_within {t u : Terminal} (h : t.within u = true) {b : Token}
    (hb : t.accepts b = true) : u.accepts b = true := by
  obtain ⟨b', hb', haccepts⟩ := b.exists_sort
  have hor := List.all_eq_true.mp h b' hb'
  rw [haccepts t] at hb
  rw [haccepts u]
  simpa [hb] using hor

/-! ### The end of the text -/

/-- A lookahead for a terminal that is not the end fails at the end. -/
theorem Lookahead.next_ending {t : Terminal} {ts : List Terminal} {e : Lexeme}
    (ht : t.accepts .eof = false) (he : e.token = .eof) : (next (t :: ts)).holds [e] = false := by
  rw [holds, nextIn, he, ht, Bool.false_and]

theorem Lookahead.next_disjoint {t t' : Terminal} {ts : List Terminal} {u : Lexeme}
    {us : List Lexeme} (hu : t'.accepts u.token = true) (h : t'.disjoint t = true) :
    (next (t :: ts)).holds (u :: us) = false := by
  rw [holds, nextIn, Terminal.accepts_eq_false_of_disjoint h hu, Bool.false_and]

/-- A lookahead fails in front of a run that begins with none of its tokens. -/
theorem Run.next_fails {r : Rule} {us : List Lexeme} {e : Lexeme} {cs : List Cover}
    (h : Run r us [e] cs) (he : e.token = .eof) {t : Terminal} {ts : List Terminal}
    (hend : t.accepts .eof = false) (hfirsts : ∀ u ∈ r.firsts, u.disjoint t = true) :
    (Lookahead.next (t :: ts)).holds (us ++ [e]) = false := by
  cases us with
  | nil => exact Lookahead.next_ending hend he
  | cons u us =>
      obtain ⟨t', ht', hu⟩ := h.head_firsts u rfl
      exact Lookahead.next_disjoint hu (hfirsts t' ht')

/-- A lookahead fails in front of a rule that takes a lexeme, but none of its tokens. -/
theorem Run.next_fails_of_takes {r : Rule} {us vs : List Lexeme} {cs : List Cover}
    (h : Run r us vs cs) (htakes : r.takes none = true) {t : Terminal} {ts : List Terminal}
    (hfirsts : ∀ u ∈ r.firsts, u.disjoint t = true) :
    (Lookahead.next (t :: ts)).holds (us ++ vs) = false := by
  cases us with
  | nil => exact absurd rfl (h.taken_ne_nil (Rule.holds_none _) htakes)
  | cons u us =>
      obtain ⟨t', ht', hu⟩ := h.head_firsts u rfl
      exact Lookahead.next_disjoint hu (hfirsts t' ht')

/-- A lookahead holds in front of a run that begins with its token. -/
theorem Run.next_holds {r : Rule} {us vs : List Lexeme} {cs : List Cover} (h : Run r us vs cs)
    (htakes : r.takes none = true) {t : Terminal} (hfirsts : r.firsts = [t]) :
    (Lookahead.next [t]).holds (us ++ vs) = true := by
  cases us with
  | nil => exact absurd rfl (h.taken_ne_nil (Rule.holds_none _) htakes)
  | cons u us =>
      obtain ⟨t', ht', hu⟩ := h.head_firsts u rfl
      rw [hfirsts, List.mem_singleton] at ht'
      rw [List.cons_append, Lookahead.holds, Lookahead.nextIn, ← ht', hu]
      cases us <;> cases vs <;> rfl

/-! ### From level to level -/

section

variable {us : List Lexeme} {e : Lexeme} {m : Cover}

/-- A single operand passes a level of binary operators. -/
theorem Run.level {operand : Rule} (h : Run operand us [e] [m]) (he : e.token = .eof)
    {operator : Terminal} (hend : operator.accepts .eof = false) (k : NodeKind) :
    Run (.level k operator operand) us [e] [m] := by
  have hmany : (Lookahead.next [operator]).holds [e] = false := Lookahead.next_ending hend he
  have hlist : Run (.sepBy operand operator) us [e] [m] :=
    Run.sepBy_iff.mpr ⟨us, [], [m], [], by simp, by simp, h, .done hmany⟩
  exact Run.wrap_iff.mpr ⟨[m], rfl, hlist⟩

theorem Run.accessed_of_atom (h : Run Grammar.atom us [e] [m]) (he : e.token = .eof) :
    Run Grammar.accessed us [e] [m] := by
  have hmany : (Lookahead.next [.symbols [.dot, .leftBracket]]).holds [e] = false :=
    Lookahead.next_ending rfl he
  have hcolon : (Lookahead.next [.symbol .colon]).holds [e] = false := Lookahead.next_ending rfl he
  have hseq : Run (.seq Grammar.atom (.many (.next [.symbols [.dot, .leftBracket]]) Grammar.access))
      us [e] [m] :=
    Run.seq_iff.mpr ⟨us, [], [m], [], by simp, by simp, h, .done hmany⟩
  exact Run.fork_iff.mpr ⟨us, [], [m], [], by simp, hseq, .inr ⟨hcolon, .empty, rfl⟩⟩

theorem Run.predicate_of_accessed (h : Run Grammar.accessed us [e] [m]) (he : e.token = .eof) :
    Run Grammar.predicate us [e] [m] := by
  have hword : (Lookahead.next [Grammar.predicateWord]).holds [e] = false :=
    Lookahead.next_ending rfl he
  exact Run.fork_iff.mpr ⟨us, [], [m], [], by simp, h, .inr ⟨hword, .empty, rfl⟩⟩

theorem Run.unary_of_predicate (h : Run Grammar.predicate us [e] [m]) (he : e.token = .eof) :
    Run Grammar.unary us [e] [m] :=
  .no (h.next_fails he rfl (by decide)) h

theorem Run.power_of_unary (h : Run Grammar.unary us [e] [m]) (he : e.token = .eof) :
    Run Grammar.power us [e] [m] :=
  h.level he rfl _

theorem Run.product_of_power (h : Run Grammar.power us [e] [m]) (he : e.token = .eof) :
    Run Grammar.product us [e] [m] :=
  h.level he rfl _

theorem Run.sum_of_product (h : Run Grammar.product us [e] [m]) (he : e.token = .eof) :
    Run Grammar.sum us [e] [m] :=
  h.level he rfl _

theorem Run.comparison_of_sum (h : Run Grammar.sum us [e] [m]) (he : e.token = .eof) :
    Run Grammar.comparison us [e] [m] :=
  h.level he rfl _

theorem Run.negation_of_comparison (h : Run Grammar.comparison us [e] [m]) (he : e.token = .eof) :
    Run Grammar.negation us [e] [m] :=
  .no (h.next_fails he rfl (by decide)) h

theorem Run.conjunction_of_negation (h : Run Grammar.negation us [e] [m]) (he : e.token = .eof) :
    Run Grammar.conjunction us [e] [m] :=
  h.level he rfl _

theorem Run.exclusive_of_conjunction (h : Run Grammar.conjunction us [e] [m])
    (he : e.token = .eof) : Run Grammar.exclusive us [e] [m] :=
  h.level he rfl _

theorem Run.disjunction_of_exclusive (h : Run Grammar.exclusive us [e] [m])
    (he : e.token = .eof) : Run Grammar.disjunction us [e] [m] :=
  h.level he rfl _

end

/-- That a node found by one rule at the end of the text is found by another one. -/
def Rule.Lifts (e : Lexeme) (r s : Rule) : Prop :=
  ∀ us m, Run r us [e] [m] → Run s us [e] [m]

instance {e : Lexeme} : Trans (Rule.Lifts e) (Rule.Lifts e) (Rule.Lifts e) where
  trans h h' us m run := h' us m (h us m run)

/-- The levels above the atoms, from the tightest to the second loosest. -/
def Grammar.levels : List Rule :=
  [accessed, predicate, unary, power, product, sum, comparison, negation, conjunction, exclusive]

/-- Each level passes on to the next looser one what it has found. -/
theorem Grammar.isChain_levels {e : Lexeme} (he : e.token = .eof) :
    (atom :: levels ++ [disjunction]).IsChain (Rule.Lifts e) := by
  refine .cons_cons (fun _ _ h => h.accessed_of_atom he) ?_
  refine .cons_cons (fun _ _ h => h.predicate_of_accessed he) ?_
  refine .cons_cons (fun _ _ h => h.unary_of_predicate he) ?_
  refine .cons_cons (fun _ _ h => h.power_of_unary he) ?_
  refine .cons_cons (fun _ _ h => h.product_of_power he) ?_
  refine .cons_cons (fun _ _ h => h.sum_of_product he) ?_
  refine .cons_cons (fun _ _ h => h.comparison_of_sum he) ?_
  refine .cons_cons (fun _ _ h => h.negation_of_comparison he) ?_
  refine .cons_cons (fun _ _ h => h.conjunction_of_negation he) ?_
  refine .cons_cons (fun _ _ h => h.exclusive_of_conjunction he) ?_
  exact .cons_cons (fun _ _ h => h.disjunction_of_exclusive he) (.singleton _)

/-- **A node found on any level at the end of the text is found on the loosest one.** -/
theorem Run.disjunction_of_level {r : Rule} {us : List Lexeme} {e : Lexeme} {m : Cover}
    (h : Run r us [e] [m]) (hr : r ∈ Grammar.atom :: Grammar.levels) (he : e.token = .eof) :
    Run Grammar.disjunction us [e] [m] := by
  have hpairs := List.pairwise_append.mp (Grammar.isChain_levels he).pairwise
  exact hpairs.2.2 r hr _ (List.mem_singleton_self _) us m h

/-! ### Atoms -/

/-- A choice between rules by the next token. -/
def Rule.choose (forms : List (Terminal × Rule)) (other : Rule) : Rule :=
  forms.foldr (fun f r => branch (.next [f.1]) f.2 r) other

namespace Grammar

/-- The atoms that their first token tells. -/
def atomForms : List (Terminal × Rule) :=
  [(.literal, .node .literal (.take .literal)), (.symbol .leftBracket, listLiteral),
   (.symbol .leftBrace, mapLiteral), (.symbol .dollar, parameter),
   (.keyword .CASE, caseExpression), (.symbol .leftParen, parenthesized)]

/-- The atoms that begin with a name. -/
def nameForms : Rule :=
  .branch (.next [.countWord, .symbol .leftParen, .symbol .star, .symbol .rightParen]) countStar <|
  .branch .dottedCall functionInvocation <|
  .node .variableName (.token .identifier .expression)

theorem atom_eq_choose : atom = .choose atomForms nameForms := rfl

end Grammar

theorem Run.choose_of_mem {forms : List (Terminal × Rule)} {other : Rule}
    (hdisjoint : forms.Pairwise fun f g => ∀ u ∈ g.2.firsts, u.disjoint f.1 = true)
    {f : Terminal × Rule} (hf : f ∈ forms) (htakes : f.2.takes none = true)
    (hfirsts : f.2.firsts = [f.1]) {us vs : List Lexeme} {cs : List Cover}
    (h : Run f.2 us vs cs) : Run (.choose forms other) us vs cs := by
  induction forms with
  | nil => exact absurd hf List.not_mem_nil
  | cons g gs ih =>
      obtain ⟨hg, hgs⟩ := List.pairwise_cons.mp hdisjoint
      rcases List.mem_cons.mp hf with rfl | hf
      · exact .yes (h.next_holds htakes hfirsts) h
      · exact .no (h.next_fails_of_takes htakes (hg f hf)) (ih hgs hf)

theorem Run.choose_other {forms : List (Terminal × Rule)} {other : Rule} {us vs : List Lexeme}
    {cs : List Cover} (hfails : ∀ f ∈ forms, (Lookahead.next [f.1]).holds (us ++ vs) = false)
    (h : Run other us vs cs) : Run (.choose forms other) us vs cs := by
  induction forms with
  | nil => exact h
  | cons g gs ih =>
      exact .no (hfails g List.mem_cons_self)
        (ih fun f hf => hfails f (List.mem_cons_of_mem g hf))

section

variable {us : List Lexeme} {e : Lexeme} {cs : List Cover}

/-- An atom that its first token tells. -/
theorem Run.atom_of_form {f : Terminal × Rule} (hf : f ∈ Grammar.atomForms) {vs : List Lexeme}
    (h : Run f.2 us vs cs) : Run Grammar.atom us vs cs := by
  have hall : ∀ f ∈ Grammar.atomForms, f.2.takes none = true ∧ f.2.firsts = [f.1] := by
    decide
  rw [Grammar.atom_eq_choose]
  exact Run.choose_of_mem (by decide) hf (hall f hf).1 (hall f hf).2 h

/-- An atom that begins with a name which is no reserved word. -/
theorem Run.atom_of_name {u : Lexeme} {vs : List Lexeme}
    (hu : Terminal.identifier.accepts u.token = true) (h : Run Grammar.nameForms (u :: us) vs cs) :
    Run Grammar.atom (u :: us) vs cs := by
  have hdisjoint : ∀ f ∈ Grammar.atomForms, Terminal.identifier.disjoint f.1 = true := by
    decide
  rw [Grammar.atom_eq_choose]
  exact Run.choose_other (fun f hf => Lookahead.next_disjoint hu (hdisjoint f hf)) h

/-- A count of rows. -/
theorem Run.atom_of_countStar {vs : List Lexeme} (h : Run Grammar.countStar us vs cs) :
    Run Grammar.atom us vs cs := by
  have hlook : (Lookahead.next
      [.countWord, .symbol .leftParen, .symbol .star, .symbol .rightParen]).holds (us ++ vs) =
        true := by
    obtain ⟨_, -, hbody⟩ := Run.node_iff.mp h
    obtain ⟨_, _, _, _, rfl, -, hcount, hparens⟩ := Run.seq_iff.mp hbody
    obtain ⟨c, rfl, hc, -⟩ := Run.token_iff.mp hcount
    obtain ⟨_, _, _, _, rfl, -, hleft, hinner⟩ := Run.seq_iff.mp hparens
    obtain ⟨l, rfl, hl, -⟩ := Run.token_iff.mp hleft
    obtain ⟨_, _, _, _, rfl, -, hstar, hright⟩ := Run.seq_iff.mp hinner
    obtain ⟨s, rfl, hs, -⟩ := Run.token_iff.mp hstar
    obtain ⟨r, rfl, hr, -⟩ := Run.token_iff.mp hright
    cases vs <;> simp [Lookahead.holds, Lookahead.nextIn, hc, hl, hs, hr]
  cases us with
  | nil => exact absurd rfl (h.taken_ne_nil (Rule.holds_none _) rfl)
  | cons u us =>
      have hu : Terminal.countWord.accepts u.token = true := (Bool.and_eq_true_iff.mp hlook).1
      refine Run.atom_of_name ?_ (.yes hlook h)
      cases ht : u.token <;> rw [ht] at hu <;> first | rfl | exact Bool.noConfusion hu

/-- A call of a function. Its arguments are no star, so it is no count of rows. -/
theorem Run.atom_of_functionInvocation {vs : List Lexeme}
    (h : Run Grammar.functionInvocation us vs cs)
    (hcall : Lookahead.dottedCall.holds (us ++ vs) = true) : Run Grammar.atom us vs cs := by
  have hcount : (Lookahead.next
      [.countWord, .symbol .leftParen, .symbol .star, .symbol .rightParen]).holds (us ++ vs) =
        false := by
    obtain ⟨f, dots, p, args, _, _, rfl, hdots, -, hargs⟩ := h.lexemes_of_functionInvocation
    have hstar : (Lookahead.next [.symbol .star, .symbol .rightParen]).holds (args ++ vs) = false :=
      hargs.next_fails_of_takes (by decide) (by decide)
    cases dots with
    | nil =>
        rw [Lookahead.holds] at hstar
        rw [List.cons_append, List.nil_append, List.cons_append, Lookahead.holds, Lookahead.nextIn,
          Lookahead.nextIn, hstar, Bool.and_false, Bool.and_false]
    | cons d dots =>
        obtain ⟨t, ht, hd⟩ := hdots.head_firsts d rfl
        have hdot : (Lookahead.next
            [.symbol .leftParen, .symbol .star, .symbol .rightParen]).holds
              (d :: (dots ++ p :: args ++ vs)) = false :=
          Lookahead.next_disjoint hd (List.mem_singleton.mp ht ▸ by decide)
        rw [Lookahead.holds] at hdot
        rw [List.cons_append, List.cons_append, List.cons_append, Lookahead.holds, Lookahead.nextIn,
          hdot, Bool.and_false]
  cases us with
  | nil => exact absurd rfl (h.taken_ne_nil (Rule.holds_none _) rfl)
  | cons u us =>
      have hu : Terminal.identifier.accepts u.token = true := (Bool.and_eq_true_iff.mp hcall).1
      exact Run.atom_of_name hu (.no hcount (.yes hcall h))

/-- A variable, with no call behind it. -/
theorem Run.atom_of_identifier {x : Lexeme} (hx : Terminal.identifier.accepts x.token = true)
    {vs : List Lexeme} (hvs : Lookahead.callFollows vs = false) :
    Run Grammar.atom [x] vs [⟨.variableName, [x], []⟩] := by
  have hcount : (Lookahead.next
      [.countWord, .symbol .leftParen, .symbol .star, .symbol .rightParen]).holds ([x] ++ vs) =
        false := by
    have hparen : (Lookahead.next
        [.symbol .leftParen, .symbol .star, .symbol .rightParen]).holds vs = false := by
      cases vs with
      | nil => rfl
      | cons v vs =>
          rw [Lookahead.holds, Lookahead.nextIn, Lookahead.not_leftParen_of_callFollows hvs,
            Bool.false_and]
    rw [Lookahead.holds] at hparen
    rw [List.singleton_append, Lookahead.holds, Lookahead.nextIn, hparen, Bool.and_false]
  have hcall : Lookahead.dottedCall.holds ([x] ++ vs) = false := by
    rw [List.singleton_append, Lookahead.holds, hvs, Bool.and_false]
  exact Run.atom_of_name hx (.no hcount (.no hcall (.wrap (.token hx))))

/-- Behind dots and names, the end of the text is no call. -/
theorem Run.not_callFollows {vs : List Lexeme} (he : e.token = .eof)
    (h : Run (.many (.next [.symbol .dot]) Grammar.propertyLookup) us vs cs) :
    Lookahead.callFollows (us ++ [e]) = false := by
  refine Run.many_induction (P := fun us _ => Lookahead.callFollows (us ++ [e]) = false) ?_ ?_ h
  · intro _
    show (Terminal.symbol .leftParen).accepts e.token = false
    rw [he]
    rfl
  · intro us us' _ _ _ first _ ih
    obtain ⟨_, -, hbody⟩ := Run.node_iff.mp first
    obtain ⟨_, _, _, _, rfl, -, hdot, hkey⟩ := Run.seq_iff.mp hbody
    obtain ⟨d, rfl, hd, -⟩ := Run.token_iff.mp hdot
    obtain ⟨_, -, hname⟩ := Run.node_iff.mp hkey
    obtain ⟨k, rfl, hk, -⟩ := Run.token_iff.mp hname
    show Lookahead.callFollows (d :: k :: (us' ++ [e])) = false
    rw [Lookahead.callFollows, hd, hk]
    exact ih

/-- A variable, with properties behind it or none. -/
theorem Run.atom_of_variable {x : Lexeme} (hx : Terminal.identifier.accepts x.token = true)
    (he : e.token = .eof) {vs : List Lexeme}
    (h : Run (.many (.next [.symbol .dot]) Grammar.propertyLookup) us vs cs) :
    Run Grammar.atom [x] (us ++ [e]) [⟨.variableName, [x], []⟩] :=
  Run.atom_of_identifier hx (h.not_callFollows he)

/-- A variable with one property or more behind it. -/
theorem Run.accessed_of_properties {x : Lexeme} (hx : Terminal.identifier.accepts x.token = true)
    (he : e.token = .eof) {vs : List Lexeme}
    (h : Run (.many (.next [.symbol .dot]) Grammar.propertyLookup) us vs cs) (hne : cs ≠ []) :
    Run Grammar.accessed ([x] ++ us) [e]
      [⟨.propertyExpression, [x] ++ us, ⟨.variableName, [x], []⟩ :: cs⟩] := by
  have hmany : Run (.many (.next [.symbols [.dot, .leftBracket]]) Grammar.access) us [e] cs := by
    refine Run.many_induction
      (P := fun us cs => Run (.many (.next [.symbols [.dot, .leftBracket]]) Grammar.access) us [e] cs)
      ?_ ?_ h
    · exact fun _ => .done (Lookahead.next_ending rfl he)
    · intro us us' _ _ _ first _ ih
      have first' : Run Grammar.propertyLookup us (us' ++ [e]) _ :=
        first.before rfl he
      have hdot := first'.next_holds rfl rfl
      exact .step (Lookahead.holds_of_implies rfl hdot) (.yes hdot first') ih
  have hcolon : (Lookahead.next [.symbol .colon]).holds [e] = false := Lookahead.next_ending rfl he
  have hlen : 1 < (⟨.variableName, [x], []⟩ :: cs : List Cover).length := by
    have := List.length_pos_iff.mpr hne
    rw [List.length_cons]
    omega
  refine Run.fork_iff.mpr ⟨[x] ++ us, [], ⟨.variableName, [x], []⟩ :: cs, [], by simp,
    .seq (Run.atom_of_variable hx he h) hmany, .inr ⟨hcolon, .empty, ?_⟩⟩
  rw [List.append_nil, Shape.cover, if_pos hlen]

end

end BindCheck

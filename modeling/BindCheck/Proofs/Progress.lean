import BindCheck.Proofs.Schema

/-!
# BindCheck.Proofs.Progress

**Parsing takes lexemes from the front and stops before the end of the text.**

* Whether it succeeds or fails, a rule leaves the lexemes from some point on, the end of the text
  among them (`Rule.parse_leaves`). No terminal that is taken accepts the end, which the text
  of the grammar tells (`Rule.sparesEnd`). So an error is always about a lexeme of the text.
* Every node is over at least one lexeme (`Cover.Of.own_ne_nil`), whose place is its own. At most
  sites the text of the rule tells that a lexeme is taken; a part of a query may have no
  clauses, but then it has a projection (`Grammar.takes_queryTail`).
-/

namespace BindCheck

/-! ### What is left -/

/-- That lexemes go up to the end of a text. -/
def Lexeme.Closed (ls : List Lexeme) : Prop := ∃ us e, ls = us ++ [e] ∧ e.token = .eof

theorem Lexeme.Closed.ne_nil {ls : List Lexeme} (h : Closed ls) : ls ≠ [] := by
  obtain ⟨us, e, rfl, -⟩ := h
  exact List.append_ne_nil_of_right_ne_nil us (List.cons_ne_nil e [])

theorem Lexeme.closed_of_tokenize {source : String} {ls : List Lexeme}
    (h : tokenize source = .ok ls) : Closed ls := by
  obtain ⟨us, p, rfl, -⟩ := tokenize_ok h
  exact ⟨us, Lexeme.ending p, rfl, rfl⟩

/-- Behind a lexeme that is not the end, the end is still to come. -/
theorem Lexeme.Closed.tail {l : Lexeme} {ls : List Lexeme} (h : Closed (l :: ls))
    (hl : l.token ≠ .eof) : Closed ls := by
  obtain ⟨us, e, hsplit, he⟩ := h
  cases us with
  | nil =>
      obtain ⟨rfl, -⟩ := List.cons.inj hsplit
      exact absurd he hl
  | cons u us => exact ⟨us, e, (List.cons.inj hsplit).2, he⟩

/-- What an outcome leaves ahead. -/
def Outcome.rest : Outcome → List Lexeme
  | done _ _ rest | failed _ rest => rest

/-- That an outcome leaves the lexemes from some point on, the end of the text among them. -/
def Outcome.Leaves (ls : List Lexeme) (o : Outcome) : Prop :=
  o.rest <:+ ls ∧ Lexeme.Closed o.rest

/-- Whether parsing never takes the end of a text. -/
def Spares (f : List Lexeme → Outcome) : Prop := ∀ ls, Lexeme.Closed ls → (f ls).Leaves ls

namespace Outcome.Leaves

variable {ls : List Lexeme} {o : Outcome}

/-- All of a closed list is left. -/
theorem all (h : Lexeme.Closed ls) (ho : o.rest = ls) : o.Leaves ls :=
  ⟨ho ▸ List.suffix_rfl, ho ▸ h⟩

theorem andThen (h : o.Leaves ls) {next : List Lexeme → Outcome} (hnext : Spares next) :
    (o.andThen next).Leaves ls := by
  cases o with
  | failed e rest => exact h
  | done ns us rest =>
      obtain ⟨hsuffix, hclosed⟩ := hnext rest h.2
      have hrest : ((done ns us rest).andThen next).rest = (next rest).rest := by
        rw [Outcome.andThen]
        cases next rest <;> rfl
      rw [Leaves, hrest]
      exact ⟨hsuffix.trans h.1, hclosed⟩

theorem shaped (h : o.Leaves ls) (s : Shape) : (o.shaped s).Leaves ls := by
  cases o <;> exact h

end Outcome.Leaves

namespace Rule

/-- Whether no terminal that a rule takes accepts the end of a text. -/
def sparesEnd : Rule → Bool
  | empty | demand _ _ | call _ => true
  | token t _ => !t.accepts .eof
  | seq r s => r.sparesEnd && s.sparesEnd
  | branch _ y n => y.sparesEnd && n.sparesEnd
  | many _ b => b.sparesEnd
  | sepBy item t => item.sparesEnd && !t.accepts .eof
  | wrap _ b => b.sparesEnd
  | fork first _ _ y _ n => first.sparesEnd && y.sparesEnd && n.sparesEnd
  | attempt first _ other => first.sparesEnd && other.sparesEnd

theorem spares_parseToken {t : Terminal} (ht : (!t.accepts .eof) = true) (e : Expectation) :
    Spares (parseToken t e) := by
  intro ls hls
  cases ls with
  | nil => exact absurd rfl hls.ne_nil
  | cons l ls =>
      rw [parseToken]
      split
      case isTrue hl =>
        have hl' : l.token ≠ .eof := by
          intro heof
          rw [heof] at hl
          simp [hl] at ht
        exact ⟨List.suffix_cons l ls, hls.tail hl'⟩
      case isFalse => exact .all hls rfl

theorem spares_parseMany {l : Lookahead} {step : List Lexeme → Outcome} (hstep : Spares step)
    (fuel : Nat) : Spares (parseMany l step fuel) := by
  induction fuel with
  | zero => exact fun ls hls => .all hls rfl
  | succ fuel ih =>
      intro ls hls
      rw [parseMany]
      split
      · exact (hstep ls hls).andThen ih
      · exact .all hls rfl

theorem spares_parseWith {named : Nonterminal → List Lexeme → Outcome}
    (hnamed : ∀ n, Spares (named n)) (bound : Nat) {r : Rule} (hr : r.sparesEnd = true) :
    Spares (r.parseWith named bound) := by
  induction r with
  | empty => exact fun ls hls => .all hls rfl
  | token t e => exact spares_parseToken hr e
  | demand l e =>
      intro ls hls
      rw [parseWith]
      split <;> exact .all hls rfl
  | seq r s ihr ihs =>
      obtain ⟨hr, hs⟩ := Bool.and_eq_true_iff.mp hr
      exact fun ls hls => (ihr hr ls hls).andThen (ihs hs)
  | branch l y n ihy ihn =>
      obtain ⟨hy, hn⟩ := Bool.and_eq_true_iff.mp hr
      intro ls hls
      rw [parseWith]
      split
      · exact ihy hy ls hls
      · exact ihn hn ls hls
  | many l b ih => exact spares_parseMany (ih hr) bound
  | sepBy item t ih =>
      obtain ⟨hitem, ht⟩ := Bool.and_eq_true_iff.mp hr
      have hstep : Spares fun ls =>
          (parseToken t (.terminal t) ls).andThen (item.parseWith named bound) :=
        fun ls hls => (spares_parseToken ht _ ls hls).andThen (ih hitem)
      exact fun ls hls => (ih hitem ls hls).andThen (spares_parseMany hstep bound)
  | wrap s b ih => exact fun ls hls => (ih hr ls hls).shaped s
  | fork first l ys y ns n ihr ihy ihn =>
      simp only [sparesEnd, Bool.and_eq_true] at hr
      obtain ⟨⟨hfirst, hy⟩, hn⟩ := hr
      intro ls hls
      have h := ihr hfirst ls hls
      rw [parseWith]
      split
      case h_1 hfailed => rwa [hfailed] at h
      case h_2 hdone =>
        rw [hdone] at h
        split
        · exact (h.andThen (ihy hy)).shaped ys
        · exact (h.andThen (ihn hn)).shaped ns
  | call n => exact hnamed n
  | attempt first l other ihr ihs =>
      obtain ⟨hfirst, hother⟩ := Bool.and_eq_true_iff.mp hr
      intro ls hls
      have h := ihr hfirst ls hls
      rw [parseWith]
      split
      case h_1 => exact ihs hother ls hls
      case h_2 hdone =>
        rw [hdone] at h
        split
        · exact h
        · exact ihs hother ls hls

end Rule

theorem Grammar.sparesEnd_production (n : Nonterminal) : (production n).sparesEnd = true := by
  cases n <;> decide

theorem Nonterminal.spares_parseTo (depth : Nat) (n : Nonterminal) :
    Spares (parseTo depth n) := by
  induction depth generalizing n with
  | zero => exact fun ls hls => .all hls rfl
  | succ depth ih => exact Rule.spares_parseWith ih depth (Grammar.sparesEnd_production n)

/-- **What is left is what was ahead from some lexeme on**, also behind a failure. -/
theorem Rule.parse_leaves {r : Rule} (hr : r.sparesEnd = true) {ls : List Lexeme}
    (hls : Lexeme.Closed ls) : (r.parse ls).Leaves ls :=
  spares_parseWith (Nonterminal.spares_parseTo _) _ hr ls hls

/-! ### What is taken -/

/-- That every run of a rule takes a lexeme. -/
def Rule.Takes (r : Rule) : Prop :=
  ∀ (us vs : List Lexeme) (cs : List Cover), Run r us vs cs → us ≠ []

namespace Rule.Takes

variable {r s : Rule}

theorem of_takes (h : r.takes none = true) : r.Takes :=
  fun _ _ _ run => run.taken_ne_nil (holds_none _) h

theorem wrap {sh : Shape} (h : r.Takes) : (Rule.wrap sh r).Takes := by
  intro us vs cs run
  obtain ⟨cs', -, hbody⟩ := Run.wrap_iff.mp run
  exact h _ _ _ hbody

theorem seq (h : r.Takes) : (Rule.seq r s).Takes := by
  intro us vs cs run
  obtain ⟨us₁, us₂, _, _, rfl, -, hfirst, -⟩ := Run.seq_iff.mp run
  exact List.append_ne_nil_of_left_ne_nil (h _ _ _ hfirst) us₂

theorem attempt {l : Lookahead} (hr : r.Takes) (hs : s.Takes) : (Rule.attempt r l s).Takes := by
  intro us vs cs run
  cases run with
  | attemptFirst hfirst _ => exact hr _ _ _ hfirst
  | attemptOther hother => exact hs _ _ _ hother

end Rule.Takes

namespace Run

variable {us vs : List Lexeme} {cs : List Cover}

/-- A part that has no clauses goes on with a projection. -/
theorem partClauses_cases (h : Run Grammar.partClauses us vs cs) :
    us ≠ [] ∨ (Lookahead.next [.keywords [.RETURN, .WITH]]).holds vs = true := by
  obtain ⟨us₁, us₂, _, _, rfl, -, -, hupdates⟩ := seq_iff.mp h
  rcases branch_iff.mp hupdates with ⟨hnext, hclauses⟩ | ⟨-, hdemand⟩
  · have hne : us₂ ≠ [] := hclauses.taken_ne_nil (Rule.holds_some hnext) (by decide)
    exact .inl (List.append_ne_nil_of_right_ne_nil us₁ hne)
  · exact .inr (demand_iff.mp hdemand).2.1

end Run

namespace Grammar

/-- **A part of a query takes a lexeme**: of a clause, or of its projection. -/
theorem takes_queryTail : queryTail.Takes := by
  intro us vs cs run
  obtain ⟨us₁, us₂, _, _, rfl, hclauses, hrest⟩ := Run.fork_iff.mp run
  rcases hclauses.partClauses_cases with hne | hnext
  · exact List.append_ne_nil_of_left_ne_nil hne us₂
  · have hne : us₂ ≠ [] := by
      rcases hrest with ⟨-, hwith, -⟩ | ⟨hwith, hreturn, -⟩
      · exact Rule.Takes.of_takes (by decide) _ _ _ hwith
      · rw [Lookahead.holds_keywords, hwith, Bool.or_false] at hnext
        rcases Run.branch_iff.mp hreturn with ⟨-, hclause⟩ | ⟨hnot, -⟩
        · exact hclause.taken_ne_nil (Rule.holds_some hnext) (by decide)
        · exact absurd hnext (Bool.eq_false_iff.mp hnot)
    exact List.append_ne_nil_of_right_ne_nil us₁ hne

theorem takes_singleQuery : singleQuery.Takes := .wrap (.wrap takes_queryTail)

theorem takes_regularQuery : regularQuery.Takes := .wrap (.seq takes_singleQuery)

theorem takes_query : query.Takes := .wrap (.attempt (.of_takes (by decide)) takes_regularQuery)

theorem takes_statement : (Rule.node .statement query).Takes := .wrap takes_query

theorem takes_cypher : cypher.Takes := .wrap (.seq takes_statement)

/-- The rules of queries, of which a look at the text does not tell that they take a lexeme. -/
def queryForms : List Rule :=
  [cypher, .node .statement query, query, regularQuery, singleQuery,
    .wrap (.ifMany .multiPartQuery) queryTail, queryTail]

theorem takes_queryForms {r : Rule} (hr : r ∈ queryForms) : r.Takes := by
  simp only [queryForms, List.mem_cons, List.not_mem_nil, or_false] at hr
  rcases hr with rfl | rfl | rfl | rfl | rfl | rfl | rfl
  · exact takes_cypher
  · exact takes_statement
  · exact takes_query
  · exact takes_regularQuery
  · exact takes_singleQuery
  · exact .wrap takes_queryTail
  · exact takes_queryTail

theorem takes_site {site : Site} (h : site ∈ sites) :
    site.rule.takes site.known = true ∨ site.rule ∈ queryForms := by
  revert site
  decide +kernel

end Grammar

/-- **Every node is over a lexeme.** -/
theorem Site.Made.own_ne_nil {site : Site} {m : Cover} (h : site.Made m)
    (hsite : site ∈ Grammar.sites) : m.own ≠ [] := by
  obtain ⟨vs, hknown, hmakes⟩ := h
  rcases Grammar.takes_site hsite with htakes | hform
  · exact hmakes.run.taken_ne_nil hknown htakes
  · exact Grammar.takes_queryForms hform _ _ _ hmakes.run

namespace Cover.Of

variable {c m : Cover} {source : String}

theorem own_ne_nil (h : c.Of source) (hm : m ∈ c.nodes) : m.own ≠ [] := by
  obtain ⟨site, hsite, hmade⟩ := h.exists_site hm
  exact hmade.own_ne_nil hsite

end Cover.Of

end BindCheck

import BindCheck.Proofs.ClauseBoundaries
import BindCheck.Proofs.Schema

/-!
# BindCheck.Proofs.ClauseRows

**A query is a row of clauses**, however its parts are nested. The parser goes down a query part by
part, and leaves a node over the last one and, if there are several, over all. `Row` forgets the
parts: it says which clause may stand behind which, and the stage of the current part is all that
has to be known for that, whether it updates something already. A row is a run of the
parser and a run is a row (`Run.row`, `Row.run`).

So a projection can be put in front of any clause of a row (`Row.insert`): it ends the
part before it, and the part behind it starts over, where any clause may stand. What comes before
does not notice (`Run.refollow`).
-/

namespace BindCheck

open Grammar

/-! ### Clauses under the nodes of a query -/

/-- The kinds of clauses, which may be wrapped further down. -/
def NodeKind.ofClauses : List NodeKind :=
  [.readingClause, .updatingClause, .withClause, .returnClause]

namespace Cover

/-- What the node of a part stands for, and any other node. -/
def opened (c : Cover) : List Cover := if c.kind = .singlePartQuery then c.children else [c]

/-- The clauses that the nodes of a query stand for. -/
def clauses (cs : List Cover) : List Cover := cs.flatMap opened

/-- The lexemes that several nodes in a row are over. -/
def owns (cs : List Cover) : List Lexeme := cs.flatMap own

theorem clauses_append (cs cs' : List Cover) : clauses (cs ++ cs') = clauses cs ++ clauses cs' :=
  List.flatMap_append

theorem owns_append (cs cs' : List Cover) : owns (cs ++ cs') = owns cs ++ owns cs' :=
  List.flatMap_append

theorem owns_cons (c : Cover) (cs : List Cover) : owns (c :: cs) = c.own ++ owns cs :=
  List.flatMap_cons

theorem opened_of_kind {c : Cover} (h : c.kind ∈ NodeKind.ofClauses) : c.opened = [c] :=
  if_neg (ne_of_mem_of_not_mem h (by decide))

theorem clauses_cons {c : Cover} (h : c.kind ∈ NodeKind.ofClauses) (cs : List Cover) :
    clauses (c :: cs) = c :: clauses cs := by
  rw [clauses, List.flatMap_cons, opened_of_kind h]
  rfl

theorem clauses_of_kind {cs : List Cover} (h : ∀ c ∈ cs, c.kind ∈ NodeKind.ofClauses) :
    clauses cs = cs := by
  induction cs with
  | nil => rfl
  | cons c cs ih =>
      obtain ⟨hc, hcs⟩ := List.forall_mem_cons.mp h
      rw [clauses_cons hc, ih hcs]

end Cover

open Cover

/-! ### Rows -/

/-- Which clause may stand where in a part of a query, and what is then behind it. The stage of a
part is whether it updates something already; a projection ends the part. -/
inductive Stage : Bool → Rule → Bool → Prop where
  | reading : Stage false readingClause false
  | updating {updates : Bool} : Stage updates updatingClause true
  | part {updates : Bool} : Stage updates withClause false

/-- Clauses in a row, from a stage of a part on up to `rest`. A part that updates something may end
without a projection. -/
inductive Row (rest : List Lexeme) : Bool → List Cover → Prop where
  | ended : Row rest true []
  | returned {updates : Bool} {d : Cover} (run : Run returnClause d.own rest [d]) :
      Row rest updates [d]
  | clause {updates updates' : Bool} {r : Rule} {d : Cover} {ds : List Cover}
      (stage : Stage updates r updates') (run : Run r d.own (owns ds ++ rest) [d])
      (more : Row rest updates' ds) : Row rest updates (d :: ds)

namespace Stage

variable {updates updates' : Bool} {r : Rule}

theorem mem (h : Stage updates r updates') : r ∈ clauseRules := by
  cases h <;> decide

/-- Any clause may begin a part. -/
theorem restart (h : Stage updates r updates') : Stage false r updates' := by
  cases h with
  | reading => exact .reading
  | updating => exact .updating
  | part => exact .part

end Stage

/-- A run begins with a lexeme of a set that holds all its first terminals. -/
theorem Run.next_within {r : Rule} {us vs : List Lexeme} {cs : List Cover} (h : Run r us vs cs)
    (htakes : r.takes none = true) {t : Terminal} (hfirsts : r.firsts.all (·.within t) = true) :
    (Lookahead.next [t]).holds (us ++ vs) = true := by
  cases us with
  | nil => exact absurd rfl (h.taken_ne_nil (Rule.holds_none _) htakes)
  | cons u us =>
      obtain ⟨f, hf, hu⟩ := h.head_firsts u rfl
      rw [List.cons_append, Lookahead.holds, Lookahead.nextIn,
        Terminal.accepts_of_within (List.all_eq_true.mp hfirsts f hf) hu]
      cases us <;> cases vs <;> rfl

/-- A clause begins with the word of one. -/
theorem Run.clauseNext {r : Rule} (hr : r ∈ returnClause :: clauseRules) {us vs : List Lexeme}
    {cs : List Cover} (h : Run r us vs cs) : ClauseNext (us ++ vs) := by
  have hall : ∀ r ∈ returnClause :: clauseRules,
      r.takes none = true ∧ r.firsts.all (·.within clauseWord) = true := by decide
  exact h.next_within (hall r hr).1 (hall r hr).2

/-- A clause leaves one node over its lexemes. -/
theorem Run.exists_clause {r : Rule} (hr : r ∈ returnClause :: clauseRules) {us vs : List Lexeme}
    {cs : List Cover} (h : Run r us vs cs) :
    ∃ d, cs = [d] ∧ d.own = us ∧ d.kind ∈ NodeKind.ofClauses := by
  simp only [clauseRules, List.mem_cons, List.not_mem_nil, or_false] at hr
  rcases hr with rfl | rfl | rfl | rfl
  all_goals
    obtain ⟨cs, rfl, -⟩ := node_iff.mp h
    exact ⟨_, rfl, rfl, by simp [NodeKind.ofClauses]⟩

theorem Run.kind_of_clause {r : Rule} (hr : r ∈ returnClause :: clauseRules) {us vs : List Lexeme}
    {d : Cover} (h : Run r us vs [d]) : d.kind ∈ NodeKind.ofClauses := by
  obtain ⟨_, hd, -, hkind⟩ := h.exists_clause hr
  rwa [(List.cons.inj hd).1]

namespace Row

variable {rest : List Lexeme} {updates : Bool} {ds : List Cover}

theorem kind_mem (h : Row rest updates ds) : ∀ d ∈ ds, d.kind ∈ NodeKind.ofClauses := by
  induction h with
  | ended => exact List.forall_mem_nil _
  | returned run =>
      exact List.forall_mem_singleton.mpr (run.kind_of_clause List.mem_cons_self)
  | clause stage run _ ih =>
      exact List.forall_mem_cons.mpr ⟨run.kind_of_clause (List.mem_cons_of_mem _ stage.mem), ih⟩

/-- A row begins with a clause. -/
theorem clauseNext (h : Row rest updates ds) (hne : ds ≠ []) : ClauseNext (owns ds ++ rest) := by
  cases h with
  | ended => exact absurd rfl hne
  | returned run =>
      rw [owns_cons, List.append_assoc]
      exact run.clauseNext List.mem_cons_self
  | clause stage run _ =>
      rw [owns_cons, List.append_assoc]
      exact run.clauseNext (List.mem_cons_of_mem _ stage.mem)

theorem restart (h : Row rest updates ds) (hne : ds ≠ []) : Row rest false ds := by
  cases h with
  | ended => exact absurd rfl hne
  | returned run => exact .returned run
  | clause stage run more => exact .clause stage.restart run more

/-- **A projection may be put in front of any clause.** -/
theorem insert {w : Cover} (hw : ∀ zs, ClauseNext zs → Run withClause w.own zs [w])
    {as bs : List Cover} {b : Cover} (h : Row rest updates (as ++ b :: bs)) :
    Row rest updates (as ++ w :: b :: bs) := by
  induction as generalizing updates with
  | nil =>
      have hne := List.cons_ne_nil b bs
      exact .clause .part (hw _ (h.clauseNext hne)) (h.restart hne)
  | cons a as ih =>
      have hne : ∀ cs, as ++ b :: cs ≠ [] := fun cs => by simp
      rw [List.cons_append] at h
      generalize hds : as ++ b :: bs = ds at h
      cases h with
      | returned run => exact absurd hds (hne bs)
      | clause stage run more =>
          subst hds
          have hmore := ih more
          exact .clause stage
            (run.refollow stage.mem (more.clauseNext (by simp)) (hmore.clauseNext (by simp))) hmore

end Row

/-! ### From a run to a row -/

section

variable {rest : List Lexeme}

/-- Clauses of one kind, in front of a row. -/
theorem Row.of_many {l : Lookahead} {r : Rule} {updates : Bool} (stage : Stage updates r updates)
    {ds : List Cover} (hds : Row rest updates ds) {us : List Lexeme} {cs : List Cover}
    (h : Run (.many l r) us (owns ds ++ rest) cs) :
    Row rest updates (cs ++ ds) ∧ owns cs = us := by
  refine h.many_induction (P := fun us cs => Row rest updates (cs ++ ds) ∧ owns cs = us) ?_ ?_
  · exact fun _ => ⟨hds, rfl⟩
  · intro us us' _ cs' _ first _ ih
    obtain ⟨hrow, rfl⟩ := ih
    obtain ⟨d, rfl, rfl, -⟩ := first.exists_clause (List.mem_cons_of_mem _ stage.mem)
    refine ⟨.clause stage ?_ hrow, by rw [List.singleton_append, owns_cons]⟩
    show Run r d.own (owns (cs' ++ ds) ++ rest) [d]
    rwa [owns_append, List.append_assoc]

variable (hend : (Lookahead.next [.queryEnd]).holds rest = true)

include hend

/-- Where a clause is next, a row goes on. -/
theorem Row.ne_nil_of_next {t : Terminal} {ds : List Cover}
    (h : (Lookahead.next [t]).holds (owns ds ++ rest) = true)
    (ht : Terminal.queryEnd.disjoint t = true) : ds ≠ [] := by
  rintro rfl
  exact Bool.noConfusion ((Lookahead.fails_of_disjoint hend ht).symm.trans h)

/-- The clauses of a part, in front of what closes it. -/
theorem Row.of_partClauses {ds : List Cover} (hds : Row rest true ds) {us : List Lexeme}
    {cs : List Cover} (h : Run partClauses us (owns ds ++ rest) cs) :
    Row rest false (cs ++ ds) ∧ owns cs = us := by
  obtain ⟨us₁, us₂, cs₁, cs₂, rfl, rfl, hreading, hrest⟩ := Run.seq_iff.mp h
  have hupdates : Row rest false (cs₂ ++ ds) ∧ owns cs₂ = us₂ := by
    rcases Run.branch_iff.mp hrest with ⟨holds, hupdating⟩ | ⟨-, hdemand⟩
    · obtain ⟨hrow, rfl⟩ := Row.of_many .updating hds hupdating
      rw [← List.append_assoc, ← owns_append] at holds
      exact ⟨hrow.restart (Row.ne_nil_of_next hend holds (by decide)), rfl⟩
    · obtain ⟨rfl, holds, rfl⟩ := Run.demand_iff.mp hdemand
      exact ⟨hds.restart (Row.ne_nil_of_next hend holds (by decide)), rfl⟩
  obtain ⟨hrow, rfl⟩ := hupdates
  rw [← List.append_assoc, ← owns_append] at hreading
  obtain ⟨hrow', rfl⟩ := Row.of_many .reading hrow hreading
  exact ⟨by rwa [List.append_assoc], by rw [owns_append]⟩

omit hend in
/-- A part consists of reading and updating clauses up to where it is closed. -/
theorem Run.kind_of_partClauses {us vs : List Lexeme} {cs : List Cover}
    (h : Run partClauses us vs cs) : ∀ c ∈ cs, c.kind ∈ NodeKind.ofClauses := by
  have hall : ∀ k ∈ partClauses.tops, k ∈ NodeKind.ofClauses := by decide
  exact fun c hc => hall c.kind (h.kind_mem_tops c hc)

/-- **The clauses of a query are a row.** -/
theorem Run.row {us : List Lexeme} {ms : List Cover} (h : Run queryTail us rest ms) :
    Row rest false (clauses ms) ∧ owns (clauses ms) = us := by
  induction hlen : us.length using Nat.strong_induction_on generalizing us ms with
  | h n ih =>
      obtain ⟨us₁, us₂, cs₁, cs₂, rfl, hpart, hclosing⟩ := fork_iff.mp h
      have hclosed : ∃ ds, Row rest true ds ∧ owns ds = us₂ ∧ clauses ms = cs₁ ++ ds := by
        rcases hclosing with ⟨-, hwith, rfl⟩ | ⟨-, hreturn, rfl⟩
        · obtain ⟨us₃, us₄, _, cs₃, rfl, rfl, hclause, hcall⟩ := seq_iff.mp hwith
          obtain ⟨w, rfl, rfl, hw⟩ := hclause.exists_clause (by decide)
          have hpos : 0 < w.own.length :=
            List.length_pos_iff.mpr (hclause.taken_ne_nil (Rule.holds_none _) (by decide))
          rw [List.length_append, List.length_append] at hlen
          obtain ⟨hrow, rfl⟩ := ih us₄.length (by omega) (call_iff.mp hcall) rfl
          refine ⟨w :: clauses cs₃, .clause .part hclause hrow, owns_cons _ _, ?_⟩
          rw [Shape.cover, clauses_append, clauses_of_kind hpart.kind_of_partClauses,
            List.singleton_append, clauses_cons hw]
        · -- what the node of the last part stands for
          have hnode : clauses (Shape.cover (.node .singlePartQuery) (us₁ ++ us₂) (cs₁ ++ cs₂)) =
              cs₁ ++ cs₂ := List.append_nil _
          rw [hnode]
          rcases branch_iff.mp hreturn with ⟨-, hreturn⟩ | ⟨-, hnothing⟩
          · obtain ⟨d, rfl, rfl, -⟩ := hreturn.exists_clause (by decide)
            exact ⟨[d], .returned hreturn, List.append_nil _, rfl⟩
          · obtain ⟨rfl, rfl⟩ := empty_iff.mp hnothing
            exact ⟨[], .ended, rfl, rfl⟩
      obtain ⟨ds, hrow, rfl, hclauses⟩ := hclosed
      obtain ⟨hall, rfl⟩ := Row.of_partClauses hend hrow hpart
      rw [hclauses]
      exact ⟨hall, owns_append _ _⟩

/-! ### From a row to a run -/

/-- What closes a part of a query: a projection with the rest of the query behind it, a projection
at the end, or nothing. -/
inductive Closing (rest : List Lexeme) : List Cover → Prop where
  | part {w : Cover} {ms : List Cover}
      (run : Run withClause w.own (owns (clauses ms) ++ rest) [w])
      (tail : Run queryTail (owns (clauses ms)) rest ms) : Closing rest (w :: clauses ms)
  | returned {d : Cover} (run : Run returnClause d.own rest [d]) : Closing rest [d]
  | ended : Closing rest []

/-- The clauses of a part from a stage on. -/
def Grammar.partFrom : Bool → Rule
  | false => partClauses
  | true => .many (.next [updatingWord]) updatingClause

omit hend in
/-- A part may be closed where a projection is next. -/
theorem Run.partFrom_nil (updates : Bool) {vs : List Lexeme}
    (h : (Lookahead.next [.keywords [.RETURN, .WITH]]).holds vs = true) :
    Run (partFrom updates) [] vs [] := by
  have hfails : ∀ {t : Terminal}, (Terminal.keywords [.RETURN, .WITH]).disjoint t = true →
      (Lookahead.next [t]).holds vs = false := Lookahead.fails_of_disjoint h
  cases updates with
  | true => exact .done (hfails (by decide))
  | false =>
      have hreading : Run (.many (.next [readingWord]) readingClause) [] vs [] :=
        .done (hfails (by decide))
      have hupdating : (Lookahead.next [updatingWord]).holds vs = false := hfails (by decide)
      exact hreading.seq (.no hupdating (.demand h))

omit hend in
/-- A part may begin with updating clauses. -/
theorem Run.partClauses_of_updating {us vs : List Lexeme} {cs : List Cover}
    (h : Run (partFrom true) us vs cs)
    (hnext : (Lookahead.next [updatingWord]).holds (us ++ vs) = true) :
    Run partClauses us vs cs := by
  have hreading : Run (.many (.next [readingWord]) readingClause) [] (us ++ vs) [] :=
    .done (Lookahead.fails_of_disjoint hnext (by decide))
  exact hreading.seq (.yes hnext h)

omit hend in
/-- A reading clause in front of a part that begins with any clause. -/
theorem Run.partClauses_reading {us us' vs : List Lexeme} {cs cs' : List Cover}
    (h : Run readingClause us (us' ++ vs) cs) (hpart : Run partClauses us' vs cs') :
    Run partClauses (us ++ us') vs (cs ++ cs') := by
  obtain ⟨us₁, us₂, cs₁, cs₂, rfl, rfl, hreading, hrest⟩ := seq_iff.mp hpart
  rw [List.append_assoc] at h
  have hnext := h.next_within (t := readingWord) (by decide) (by decide)
  rw [← List.append_assoc, ← List.append_assoc]
  exact .seq (.step hnext h hreading) hrest

omit hend in
/-- An updating clause in front of others, from any stage of a part. -/
theorem Run.partFrom_updating {updates : Bool} {us us' vs : List Lexeme} {cs cs' : List Cover}
    (h : Run updatingClause us (us' ++ vs) cs) (hpart : Run (partFrom true) us' vs cs') :
    Run (partFrom updates) (us ++ us') vs (cs ++ cs') := by
  have hnext := h.next_within (t := updatingWord) (by decide) (by decide)
  have hmany : Run (partFrom true) (us ++ us') vs (cs ++ cs') := .step hnext h hpart
  cases updates with
  | true => exact hmany
  | false => exact hmany.partClauses_of_updating (by rwa [List.append_assoc])

/-- A part and what closes it are a query. -/
theorem Closing.exists_run {ds cs : List Cover} {us : List Lexeme} (hds : Closing rest ds)
    (h : Run partClauses us (owns ds ++ rest) cs) :
    ∃ ms, Run queryTail (us ++ owns ds) rest ms ∧ clauses ms = cs ++ ds := by
  cases hds with
  | @part w ms run tail =>
      have hnext := run.next_within (t := .keyword .WITH) (by decide) (by decide)
      have hkind := run.kind_of_clause (by decide)
      have hwith := Run.seq run (.call (n := .queryTail) tail)
      rw [owns_cons] at h ⊢
      rw [← List.append_assoc] at hnext
      refine ⟨_, .forkYes h hnext hwith, ?_⟩
      rw [Shape.cover, clauses_append, clauses_of_kind h.kind_of_partClauses,
        List.singleton_append, clauses_cons hkind]
  | @returned d run =>
      have hnext := run.next_within (t := .keyword .RETURN) (by decide) (by decide)
      have howns : owns [d] = d.own := List.append_nil _
      rw [howns] at h ⊢
      exact ⟨_, .forkNo h (Lookahead.fails_of_disjoint hnext (by decide)) (.yes hnext run),
        List.append_nil _⟩
  | ended =>
      exact ⟨_, .forkNo h (Lookahead.fails_of_disjoint hend (by decide))
        (.no (Lookahead.fails_of_disjoint hend (by decide)) .empty), List.append_nil _⟩

/-- The first part of a row, and what closes it. -/
theorem Row.exists_part {updates : Bool} {ds : List Cover} (h : Row rest updates ds) :
    ∃ cs ds', ds = cs ++ ds' ∧ Run (partFrom updates) (owns cs) (owns ds' ++ rest) cs ∧
      Closing rest ds' := by
  induction h with
  | ended => exact ⟨[], [], rfl, .done (Lookahead.fails_of_disjoint hend (by decide)), .ended⟩
  | @returned updates d run =>
      have hnext := run.next_within (t := .keywords [.RETURN, .WITH]) (by decide) (by decide)
      refine ⟨[], [d], rfl, Run.partFrom_nil updates ?_, .returned run⟩
      rwa [owns, List.flatMap_singleton]
  | @clause updates updates' r d ds stage run more ih =>
      obtain ⟨cs, ds', rfl, hpart, hclosing⟩ := ih
      cases stage with
      | part =>
          -- the part behind the projection is a query of its own
          obtain ⟨ms, tail, hclauses⟩ := hclosing.exists_run hend hpart
          rw [← owns_append, ← hclauses] at tail
          rw [← hclauses] at run ⊢
          have hnext := run.next_within (t := .keywords [.RETURN, .WITH]) (by decide) (by decide)
          refine ⟨[], _, rfl, Run.partFrom_nil updates ?_, .part run tail⟩
          rwa [owns_cons, List.append_assoc]
      | reading =>
          rw [owns_append, List.append_assoc] at run
          exact ⟨d :: cs, ds', rfl, run.partClauses_reading hpart, hclosing⟩
      | updating =>
          rw [owns_append, List.append_assoc] at run
          exact ⟨d :: cs, ds', rfl, run.partFrom_updating hpart, hclosing⟩

/-- **A row is the clauses of a query.** -/
theorem Row.run {ds : List Cover} (h : Row rest false ds) :
    ∃ ms, Run queryTail (owns ds) rest ms ∧ clauses ms = ds := by
  obtain ⟨cs, ds', rfl, hpart, hclosing⟩ := h.exists_part hend
  obtain ⟨ms, run, hclauses⟩ := hclosing.exists_run hend hpart
  exact ⟨ms, by rwa [owns_append], hclauses⟩

end

/-! ### Whole texts -/

/-- What may stand behind a query. -/
def Grammar.closing : Rule :=
  .row [.optional (.symbol .semicolon), .demand (.next [.ending]) (.terminal .ending)]

/-- The node over a whole text: a query of clauses over `us`, and what closes the text. -/
def Cover.whole (us zs : List Lexeme) (ms : List Cover) : Cover :=
  ⟨.cypher, us ++ zs, [⟨.statement, us, [⟨.query, us, [⟨.regularQuery, us,
    [⟨.singleQuery, us, Shape.cover (.ifMany .multiPartQuery) us ms⟩]⟩]⟩]⟩]⟩

section

variable {us zs : List Lexeme} {e : Lexeme} {ms : List Cover}

/-- A query ends at what closes the text. -/
theorem Run.queryEnd_of_closing {cs : List Cover} (h : Run Grammar.closing zs [e] cs) :
    cs = [] ∧ (Lookahead.next [.queryEnd]).holds (zs ++ [e]) = true := by
  refine ⟨h.eq_nil_of_tops rfl, ?_⟩
  obtain ⟨us₁, us₂, _, _, rfl, -, hsemicolon, hdemand⟩ := seq_iff.mp h
  obtain ⟨rfl, hending, -⟩ := demand_iff.mp hdemand
  rw [List.append_nil]
  rcases branch_iff.mp hsemicolon with ⟨hnext, -⟩ | ⟨-, hnothing⟩
  · exact Lookahead.holds_of_within hnext (by decide)
  · obtain ⟨rfl, -⟩ := empty_iff.mp hnothing
    exact Lookahead.holds_of_within hending (by decide)

/-- A query, and what closes it, is a whole text. -/
theorem Run.whole (h : Run queryTail us (zs ++ [e]) ms) (hclosing : Run Grammar.closing zs [e] []) :
    Run cypher (us ++ zs) [e] [Cover.whole us zs ms] := by
  obtain ⟨-, hend⟩ := hclosing.queryEnd_of_closing
  have hunion : Run (.many (.next [.keyword .UNION]) (.node .union (.row
      [.word .UNION, .optional (.keyword .ALL), .call .singleQuery]))) [] (zs ++ [e]) [] :=
    .done (Lookahead.fails_of_disjoint hend (by decide))
  have hsingle : Run singleQuery us ([] ++ (zs ++ [e])) _ := .wrap (.wrap h)
  have hregular := hsingle.seq hunion
  rw [List.append_nil] at hregular
  have hstatement : Run (.node .statement query) us (zs ++ [e]) _ :=
    .wrap (.wrap (.attemptOther (.wrap hregular)))
  exact .wrap (hstatement.seq hclosing)

/-- **A text with a query at its top that has no `UNION` is such a query, and what closes it.** -/
theorem Run.exists_whole {vs : List Lexeme} {c : Cover} (h : Run cypher vs [e] [c])
    (hunion : ∀ m ∈ c.nodes, m.kind ≠ .union) {q : Tree} (htop : c.tree.top = .ok q)
    (hq : q.isQuery = true) :
    ∃ us zs ms, vs = us ++ zs ∧ c = Cover.whole us zs ms ∧ Run queryTail us (zs ++ [e]) ms ∧
      Run Grammar.closing zs [e] [] := by
  obtain ⟨_, hc, hbody⟩ := node_iff.mp h
  obtain rfl := (List.cons.inj hc).1
  obtain ⟨us, zs, _, cs, rfl, rfl, hstatement, hclosing⟩ := seq_iff.mp hbody
  obtain ⟨rfl, -⟩ := queryEnd_of_closing hclosing
  obtain ⟨_, rfl, hquery⟩ := node_iff.mp hstatement
  obtain ⟨_, rfl, hattempt⟩ := node_iff.mp hquery
  rw [List.append_nil, Cover.top_wrapper (by decide), Cover.top_wrapper (by decide)] at htop
  cases hattempt with
  | attemptFirst hcall _ =>
      obtain ⟨_, rfl, -⟩ := node_iff.mp hcall
      rw [Cover.top_wrapper (by decide)] at htop
      obtain rfl := Except.ok.inj htop
      exact Bool.noConfusion hq
  | attemptOther hregular =>
      obtain ⟨cs, rfl, hparts⟩ := node_iff.mp hregular
      obtain ⟨us₁, us₂, cs₁, cs₂, rfl, rfl, hsingle, hunions⟩ := seq_iff.mp hparts
      rcases many_iff.mp hunions with ⟨rfl, rfl, -⟩ | ⟨u, _, _, _, -, rfl, -, hunited, -⟩
      · obtain ⟨_, rfl, hshape⟩ := node_iff.mp hsingle
        obtain ⟨ms, rfl, htail⟩ := wrap_iff.mp hshape
        rw [List.append_nil]
        exact ⟨us₁, zs, ms, rfl, rfl, htail, hclosing⟩
      · obtain ⟨cs, rfl, -⟩ := node_iff.mp hunited
        refine (hunion ⟨.union, u, cs⟩ ?_ rfl).elim
        simp [Cover.nodes, Cover.nodesAll, Cover.nodesAll_append]

end

end BindCheck

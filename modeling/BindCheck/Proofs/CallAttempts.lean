import BindCheck.Proofs.Acceptance
import BindCheck.Proofs.ClauseRows
import BindCheck.Proofs.KindsBelow

/-!
# BindCheck.Proofs.CallAttempts

**Going back behind a `CALL` does not show.** A query that starts with `CALL` is first read as a
call of its own. The attempt counts only if the query ends there, and then the call is what it
would be within a query, but for the kind of its node. In every other case the outcome is that of
the rule for queries with clauses on the same tokens (`CallAttempt`): the attempt leaves no trace,
not even in an error, as the first clause of such a query would be the same call and fails at the
same token (`Rule.parseWith_regularQuery_failed`).

So a text holds a call of its own if and only if its tokens are one call, whatever is said of
attempts (`Run.standaloneCall_iff`).
-/

namespace BindCheck

namespace Grammar

/-- A call within a query. -/
def inQueryCall : Rule := .node .inQueryCall callBody

/-- A call that is a query of its own. -/
def standaloneCall : Rule := .node .standaloneCall callBody

/-- A text that is one call. -/
def callText : Rule := .seq inQueryCall closing

end Grammar

/-! ### Where the first part of a rule fails -/

namespace Rule

section

variable {named : Nonterminal → List Lexeme → Outcome} {bound : Nat} {r s y n : Rule}
  {l : Lookahead} {ls rest : List Lexeme} {e : Expectation}

theorem parseWith_seq_failed (h : r.parseWith named bound ls = .failed e rest) :
    (seq r s).parseWith named bound ls = .failed e rest := by
  rw [parseWith, h]
  rfl

theorem parseWith_wrap_failed {shape : Shape} (h : r.parseWith named bound ls = .failed e rest) :
    (wrap shape r).parseWith named bound ls = .failed e rest := by
  rw [parseWith, h]
  rfl

theorem parseWith_many_failed (hl : l.holds ls = true)
    (h : r.parseWith named (bound + 1) ls = .failed e rest) :
    (many l r).parseWith named (bound + 1) ls = .failed e rest := by
  rw [parseWith, parseMany, if_pos hl, h]
  rfl

theorem parseWith_fork_failed {ys ns : Shape} (h : r.parseWith named bound ls = .failed e rest) :
    (fork r l ys y ns n).parseWith named bound ls = .failed e rest := by
  rw [parseWith, h]

/-- **A query whose first clause is a call fails as the call does.** -/
theorem parseWith_regularQuery_failed (hcall : (Lookahead.next [.keyword .CALL]).holds ls = true)
    (h : Grammar.callBody.parseWith named (bound + 1) ls = .failed e rest) :
    Grammar.regularQuery.parseWith named (bound + 1) ls = .failed e rest := by
  have hunwind : ¬(Lookahead.next [.keyword .UNWIND]).holds ls = true :=
    Bool.eq_false_iff.mp (Lookahead.fails_of_disjoint hcall (by decide))
  have hreading : (Lookahead.next [Grammar.readingWord]).holds ls = true :=
    Lookahead.holds_of_within hcall (by decide)
  have hclause : Grammar.readingClause.parseWith named (bound + 1) ls = .failed e rest := by
    refine parseWith_wrap_failed ?_
    rw [parseWith, if_neg hunwind, parseWith, if_pos hcall]
    exact parseWith_wrap_failed h
  have hclauses : Grammar.partClauses.parseWith named (bound + 1) ls = .failed e rest :=
    parseWith_seq_failed (parseWith_many_failed hreading hclause)
  have hsingle : Grammar.singleQuery.parseWith named (bound + 1) ls = .failed e rest :=
    parseWith_wrap_failed (parseWith_wrap_failed (parseWith_fork_failed hclauses))
  exact parseWith_wrap_failed (parseWith_seq_failed hsingle)

end

end Rule

/-! ### What becomes of an attempt -/

/-- That a call takes all lexemes up to the end of the query. -/
def Alone (ls : List Lexeme) (c : Tree) (taken rest : List Lexeme) : Prop :=
  Grammar.inQueryCall.parse ls = .done [c] taken rest ∧
    (Lookahead.next [.queryEnd]).holds rest = true

/-- **That an attempt to read a query as a call of its own does not show**, with the given lexemes
ahead. -/
structure CallAttempt (ls : List Lexeme) : Prop where
  /-- There is a call of its own just if the rule for a call within a query takes all that there
  is. -/
  standalone_iff :
    (∃ q c taken rest, Grammar.query.parse ls = .done [q] taken rest ∧ q.kind = .query ∧
      q.children = [c] ∧ c.kind = .standaloneCall) ↔ ∃ c taken rest, Alone ls c taken rest
  /-- It is the same call, but for its kind, and takes the same lexemes. -/
  same : ∀ c taken rest, Alone ls c taken rest →
    Grammar.query.parse ls =
      .done [Tree.over .query taken [{ c with kind := .standaloneCall }]] taken rest
  /-- Else the outcome is that of a query with clauses. -/
  other : (¬∃ c taken rest, Alone ls c taken rest) →
    Grammar.query.parse ls = (Grammar.regularQuery.parse ls).shaped (.node .query)
  /-- An error of the attempt is the error of the query. -/
  failed : ∀ e rest, Grammar.standaloneCall.parse ls = .failed e rest →
    Grammar.query.parse ls = .failed e rest

namespace Rule

variable {r : Rule} {k : NodeKind} {ls taken rest : List Lexeme} {e : Expectation}

theorem parse_node_done_iff {ms : List Tree} :
    (node k r).parse ls = .done ms taken rest ↔
      ∃ ns, r.parse ls = .done ns taken rest ∧ ms = [Tree.over k taken ns] := by
  show (r.parse ls).shaped (.node k) = _ ↔ _
  rcases r.parse ls with ⟨ns, taken', rest'⟩ | ⟨e, rest'⟩
  · constructor
    · intro h
      obtain ⟨rfl, rfl, rfl⟩ := Outcome.done.inj h
      exact ⟨ns, rfl, rfl⟩
    · rintro ⟨ns', h, rfl⟩
      obtain ⟨rfl, rfl, rfl⟩ := Outcome.done.inj h
      rfl
  · exact ⟨fun h => Outcome.noConfusion h, fun ⟨_, h, _⟩ => Outcome.noConfusion h⟩

theorem parse_node_failed_iff :
    (node k r).parse ls = .failed e rest ↔ r.parse ls = .failed e rest := by
  show (r.parse ls).shaped (.node k) = _ ↔ _
  rcases r.parse ls with ⟨ns, taken', rest'⟩ | ⟨e, rest'⟩
  · exact ⟨fun h => Outcome.noConfusion h, fun h => Outcome.noConfusion h⟩
  · exact Iff.rfl

end Rule

section

variable {ls taken rest : List Lexeme} {c : Tree}

theorem alone_iff : Alone ls c taken rest ↔
    (∃ ns, Grammar.callBody.parse ls = .done ns taken rest ∧
      c = Tree.over .inQueryCall taken ns) ∧ (Lookahead.next [.queryEnd]).holds rest = true := by
  refine and_congr_left fun _ => Rule.parse_node_done_iff.trans ?_
  simp only [List.cons.injEq, and_true]

/-- Where a call takes all there is, the attempt counts. -/
theorem parse_query_alone (h : Alone ls c taken rest) :
    Grammar.query.parse ls =
      .done [Tree.over .query taken [{ c with kind := .standaloneCall }]] taken rest := by
  obtain ⟨⟨ns, hbody, rfl⟩, hend⟩ := alone_iff.mp h
  refine Rule.parse_node_done_iff.mpr ⟨_, ?_, rfl⟩
  exact Run.parse_attempt_first (Rule.parse_node_done_iff.mpr ⟨ns, hbody, rfl⟩) hend

/-- Anywhere else the tokens are read again. -/
theorem parse_query_other (h : ¬∃ c taken rest, Alone ls c taken rest) :
    Grammar.query.parse ls = (Grammar.regularQuery.parse ls).shaped (.node .query) := by
  have hattempt : (Rule.attempt Grammar.standaloneCall (.next [.queryEnd])
      Grammar.regularQuery).parse ls = Grammar.regularQuery.parse ls := by
    refine Run.parse_attempt_other fun ms taken rest hdone => ?_
    obtain ⟨ns, hbody, -⟩ := Rule.parse_node_done_iff.mp hdone
    exact Bool.eq_false_iff.mpr fun hend =>
      h ⟨_, taken, rest, alone_iff.mpr ⟨⟨ns, hbody, rfl⟩, hend⟩⟩
  show ((Rule.attempt Grammar.standaloneCall (.next [.queryEnd])
    Grammar.regularQuery).parse ls).shaped (.node .query) = _
  rw [hattempt]

/-- A query with clauses is no call of its own. -/
theorem kind_of_regularQuery {q : Tree}
    (h : (Grammar.regularQuery.parse ls).shaped (.node .query) = .done [q] taken rest) :
    ∃ c, q.children = [c] ∧ c.kind = .regularQuery := by
  obtain ⟨ms, hregular, hq⟩ :=
    Rule.parse_node_done_iff (r := Grammar.regularQuery) (k := .query) |>.mp h
  obtain ⟨ns, -, rfl⟩ := Rule.parse_node_done_iff.mp hregular
  rw [(List.cons.inj hq).1]
  exact ⟨_, rfl, rfl⟩

/-- **Going back behind a `CALL` does not show.** -/
theorem callAttempt (hcall : (Lookahead.next [.keyword .CALL]).holds ls = true) :
    CallAttempt ls where
  standalone_iff := by
    constructor
    · rintro ⟨q, c, taken, rest, hquery, -, hchildren, hkind⟩
      by_contra hnot
      rw [parse_query_other hnot] at hquery
      obtain ⟨c', hchildren', hkind'⟩ := kind_of_regularQuery hquery
      obtain rfl := (List.cons.inj (hchildren.symm.trans hchildren')).1
      rw [hkind] at hkind'
      exact NodeKind.noConfusion hkind'
    · rintro ⟨c, taken, rest, h⟩
      exact ⟨_, _, taken, rest, parse_query_alone h, rfl, rfl, rfl⟩
  same c taken rest := parse_query_alone
  other := parse_query_other
  failed e rest h := by
    have hbody : Grammar.callBody.parse ls = .failed e rest := Rule.parse_node_failed_iff.mp h
    have hnot : ¬∃ c taken rest, Alone ls c taken rest := by
      rintro ⟨c, taken, rest', halone⟩
      obtain ⟨⟨ns, hdone, -⟩, -⟩ := alone_iff.mp halone
      rw [hbody] at hdone
      exact Outcome.noConfusion hdone
    have hregular : Grammar.regularQuery.parse ls = .failed e rest :=
      Rule.parseWith_regularQuery_failed hcall hbody
    rw [parse_query_other hnot, hregular]
    rfl

end

/-! ### Texts that are one call -/

namespace NodeKind

/-- The kinds of a query with clauses and of the nodes below it. -/
def ofRegularQueries : List NodeKind :=
  all.filter fun k => !([.cypher, .statement, .query, .standaloneCall] : List NodeKind).contains k

theorem closed_ofRegularQueries : Closed ofRegularQueries := by
  unfold Closed
  decide +kernel

end NodeKind

/-- In a query with clauses there is no call of its own. -/
theorem Tree.Parsed.not_standaloneCall {t : Tree} (h : t.Parsed) (ht : t.kind = .regularQuery) :
    ¬∃ n ∈ t.descendants, n.kind = .standaloneCall := by
  rintro ⟨n, hn, hk⟩
  have hmem := h.kind_mem_of_closed NodeKind.closed_ofRegularQueries (by rw [ht]; decide) n hn
  rw [hk] at hmem
  exact absurd hmem (by decide)

/-- What stands below a wrapper and is no wrapper stands below what it wraps. -/
theorem Cover.exists_kind_wrapped {k k' : NodeKind} (hk : k ≠ k') (us : List Lexeme) (c : Cover) :
    (∃ n ∈ (Cover.mk k us [c]).tree.descendants, n.kind = k') ↔
      ∃ n ∈ c.tree.descendants, n.kind = k' := by
  rw [descendants_tree, descendants_tree, nodes, nodesAll_singleton, List.map_cons,
    List.exists_mem_cons_iff, tree_kind]
  exact or_iff_right hk

namespace Grammar

theorem callText_realizes : callText.realizes leaves
    (.of .inQueryCall * .optional (.sign .semicolon)) [.ending] = true := by
  decide +kernel

/-- **The rule for one call takes what is derived**, up to the end. -/
theorem accepts_callText_iff {us : List Lexeme} {p : Position} :
    callText.Accepts us [Lexeme.ending p] ↔
      Yields (.of .inQueryCall * .optional (.sign .semicolon)) (us.map Lexeme.token) := by
  have hexact : Leaf.Exact us.length
      ⟨callText, .of .inQueryCall * .optional (.sign .semicolon), [.ending]⟩ :=
    .of_realizes (leaves_exact (calls_exact _)) callText_realizes fun _ _ => Iff.rfl
  have hbelow : callText.Below us.length none us := .of_le (Nat.le_refl _) (by decide)
  constructor
  · rintro ⟨_, run⟩
    exact hexact.sound hbelow run
  · exact hexact.complete hbelow (.tokens ⟨_, List.mem_singleton_self _, rfl⟩)

end Grammar

/-- **A parsed text holds a call of its own just if it is one call.** -/
theorem Run.standaloneCall_iff {us : List Lexeme} {p : Position} {c : Cover}
    (run : Run Grammar.cypher us [Lexeme.ending p] [c]) (h : c.tree.Parsed) :
    (∃ n ∈ c.tree.descendants, n.kind = .standaloneCall) ↔
      Grammar.callText.Accepts us [Lexeme.ending p] := by
  obtain ⟨_, hc, hbody⟩ := node_iff.mp run
  obtain rfl := (List.cons.inj hc).1
  obtain ⟨us₁, us₂, _, _, rfl, rfl, hstatement, hclosing⟩ := seq_iff.mp hbody
  obtain ⟨rfl, -⟩ := queryEnd_of_closing hclosing
  obtain ⟨_, rfl, hquery⟩ := node_iff.mp hstatement
  obtain ⟨_, rfl, hattempt⟩ := node_iff.mp hquery
  rw [List.append_nil, Cover.exists_kind_wrapped (by decide), Cover.exists_kind_wrapped (by decide)]
  cases hattempt with
  | attemptFirst hcall hend =>
      obtain ⟨cs, rfl, hcallBody⟩ := node_iff.mp hcall
      rw [Cover.exists_kind_wrapped (by decide)]
      refine iff_of_true ?_ ⟨_, .seq (node_iff.mpr ⟨cs, rfl, hcallBody⟩) hclosing⟩
      exact ⟨(Cover.mk .standaloneCall us₁ cs).tree, Tree.mem_descendants_self _, rfl⟩
  | attemptOther hregular =>
      have hquery : Tree.Parsed (Cover.tree _) :=
        (h.of_mem_children List.mem_cons_self).of_mem_children List.mem_cons_self
      obtain ⟨_, rfl, -⟩ := node_iff.mp hregular
      rw [Cover.exists_kind_wrapped (by decide)]
      refine iff_of_false ?_ ?_
      · exact (hquery.of_mem_children List.mem_cons_self).not_standaloneCall rfl
      · rintro ⟨_, hone⟩
        obtain ⟨us₁', us₂', _, _, hus, -, hcall, hclosing'⟩ := seq_iff.mp hone
        obtain ⟨_, -, hcallBody⟩ := node_iff.mp hcall
        obtain ⟨-, hend⟩ := queryEnd_of_closing hclosing'
        refine hcallBody.not_regularQuery hend ?_ hregular
        rw [← List.append_assoc, ← List.append_assoc, hus]

/-- Only the end of a text has the token of the end. -/
theorem tokens_of_tokenize {source : String} {us : List Lexeme} {p : Position}
    (h : tokenize source = .ok (us ++ [Lexeme.ending p])) :
    ((us ++ [Lexeme.ending p]).map Lexeme.token).filter (· ≠ .eof) = us.map Lexeme.token := by
  obtain ⟨us', p', heq, hw⟩ := tokenize_ok h
  obtain ⟨rfl, -⟩ := List.append_inj' heq rfl
  have hus : (us.map Lexeme.token).filter (· ≠ .eof) = us.map Lexeme.token := by
    refine List.filter_eq_self.mpr fun k hk => ?_
    obtain ⟨u, hu, rfl⟩ := List.mem_map.mp hk
    exact decide_eq_true (hw u hu).token_ne_eof
  rw [List.map_append, List.filter_append, hus]
  exact List.append_nil _

/-- **Reading a query as a call of its own first, and going back, does not show**: with `CALL` ahead
the outcome is that of a call which ends the query, or else that of a query with clauses. A
parsed text holds a call of its own if and only if its tokens, without the end of the text, are
one call and a semicolon or none. -/
theorem call_attempts_invisible :
    (∀ ls, (Lookahead.next [.keyword .CALL]).holds ls = true → CallAttempt ls) ∧
      ∀ source ls t, tokenize source = .ok ls → parse source = .ok t →
        ((∃ n ∈ t.descendants, n.kind = .standaloneCall) ↔
          Yields (.of .inQueryCall * .optional (.sign .semicolon))
            ((ls.map Lexeme.token).filter (· ≠ .eof))) := by
  refine ⟨fun ls => callAttempt, fun source ls t hls ht => ?_⟩
  obtain ⟨c, hc, rfl⟩ := cover_of_parse ht
  obtain ⟨p, htokens, run⟩ := hc.run
  obtain rfl : c.own ++ [Lexeme.ending p] = ls := Except.ok.inj (htokens.symm.trans hls)
  rw [tokens_of_tokenize hls, ← Grammar.accepts_callText_iff]
  exact run.standaloneCall_iff ⟨source, c.tree, ht, c.tree.mem_descendants_self⟩

/-- A call with a semicolon behind it is a query of its own. With a clause behind it, it is one
clause of a query, and the tokens are not those of a call. -/
theorem call_attempts_invisible_of_yield :
    (∃ ls t, tokenize "CALL f YIELD a;" = .ok ls ∧ parse "CALL f YIELD a;" = .ok t ∧
      (Lookahead.next [.keyword .CALL]).holds ls = true ∧ CallAttempt ls ∧
        (∃ n ∈ t.descendants, n.kind = .standaloneCall) ∧
          Yields (.of .inQueryCall * .optional (.sign .semicolon))
            ((ls.map Lexeme.token).filter (· ≠ .eof))) ∧
      ∃ ls t, tokenize "CALL f YIELD a RETURN a" = .ok ls ∧
        parse "CALL f YIELD a RETURN a" = .ok t ∧
        (Lookahead.next [.keyword .CALL]).holds ls = true ∧ CallAttempt ls ∧
          (¬∃ n ∈ t.descendants, n.kind = .standaloneCall) ∧
            ¬Yields (.of .inQueryCall * .optional (.sign .semicolon))
              ((ls.map Lexeme.token).filter (· ≠ .eof)) := by
  constructor
  · have hread : tokenize "CALL f YIELD a;" = .ok
        [⟨.keyword .CALL, "CALL", ⟨1, 0⟩⟩, ⟨.identifier "f", "f", ⟨1, 5⟩⟩,
         ⟨.keyword .YIELD, "YIELD", ⟨1, 7⟩⟩, ⟨.identifier "a", "a", ⟨1, 13⟩⟩,
         ⟨.symbol .semicolon, ";", ⟨1, 14⟩⟩, .ending ⟨1, 15⟩] := by
      decide +kernel
    obtain ⟨t, ht, hfind⟩ : ∃ t, parse "CALL f YIELD a;" = .ok t ∧
        (t.find? .standaloneCall).map Tree.kind = some .standaloneCall :=
      exists_parse_eq_ok (by decide +kernel)
    obtain ⟨n, hn, hk⟩ := Option.map_eq_some_iff.mp hfind
    have hcall : ∃ n ∈ t.descendants, n.kind = .standaloneCall :=
      ⟨n, List.mem_of_find?_eq_some hn, hk⟩
    exact ⟨_, t, hread, ht, rfl, call_attempts_invisible.1 _ rfl, hcall,
      (call_attempts_invisible.2 _ _ t hread ht).mp hcall⟩
  · have hread : tokenize "CALL f YIELD a RETURN a" = .ok
        [⟨.keyword .CALL, "CALL", ⟨1, 0⟩⟩, ⟨.identifier "f", "f", ⟨1, 5⟩⟩,
         ⟨.keyword .YIELD, "YIELD", ⟨1, 7⟩⟩, ⟨.identifier "a", "a", ⟨1, 13⟩⟩,
         ⟨.keyword .RETURN, "RETURN", ⟨1, 15⟩⟩, ⟨.identifier "a", "a", ⟨1, 22⟩⟩,
         .ending ⟨1, 23⟩] := by
      decide +kernel
    obtain ⟨t, ht, hfind⟩ : ∃ t, parse "CALL f YIELD a RETURN a" = .ok t ∧
        (t.find? .standaloneCall).map Tree.kind = none :=
      exists_parse_eq_ok (by decide +kernel)
    have hcall : ¬∃ n ∈ t.descendants, n.kind = .standaloneCall := by
      rintro ⟨n, hn, hk⟩
      exact List.find?_eq_none.mp (Option.map_eq_none_iff.mp hfind) n hn (decide_eq_true hk)
    exact ⟨_, t, hread, ht, rfl, call_attempts_invisible.1 _ rfl, hcall,
      fun hyields => hcall ((call_attempts_invisible.2 _ _ t hread ht).mpr hyields)⟩

end BindCheck

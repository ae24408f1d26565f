import BindCheck.Proofs.Adjacency
import BindCheck.Proofs.UnplacedAnalysis

/-!
# BindCheck.Proofs.Normalization

**The normalized text of a query is a fixed point.** A parsed query is covered by the
lexemes of its source (`Cover.Of`, `cover_of_parse`): they are written, and no two of them
next to each other run together. So the text of the query is read back as these lexemes at
new places, and neither parsing nor the analysis looks at places.
-/

namespace BindCheck

/-! ### Covers of sources -/

/-- That parsing a source gives the tree of a cover, whose nodes hold the lexemes of the
source that they are over: the whole takes all lexemes up to the end of the source. -/
structure Cover.Of (c : Cover) (source : String) : Prop where
  parsed : parse source = .ok c.tree
  run : ∃ p, tokenize source = .ok (c.own ++ [Lexeme.ending p]) ∧
    Run Grammar.cypher c.own [Lexeme.ending p] [c]

/-- Of lexemes up to the end of a text, a rest that begins with the end is just the end. -/
theorem rest_eq_ending {us taken rest : List Lexeme} {p : Position} {e : Lexeme}
    (hw : ∀ u ∈ us, u.Written) (h : us ++ [Lexeme.ending p] = taken ++ e :: rest)
    (he : e.token = .eof) : taken = us ∧ e = Lexeme.ending p ∧ rest = [] := by
  rcases List.eq_nil_or_concat rest with rfl | ⟨ws, w, rfl⟩
  · obtain ⟨rfl, he'⟩ := List.append_inj' h rfl
    rw [List.cons.injEq] at he'
    exact ⟨rfl, he'.1.symm, rfl⟩
  · have hsplit : us ++ [Lexeme.ending p] = (taken ++ e :: ws) ++ [w] := by
      rw [h, List.concat_eq_append, List.append_assoc, List.cons_append]
    obtain ⟨rfl, -⟩ := List.append_inj' hsplit rfl
    exact absurd he (hw e (by simp)).token_ne_eof

/-- A run over a whole query ends before the end of the text, and finds one node over all
its lexemes. -/
theorem Run.of_cypher {us rest : List Lexeme} {cs : List Cover}
    (h : Run Grammar.cypher us rest cs) :
    (∃ c, cs = [c] ∧ c.own = us) ∧ ∃ e rest', rest = e :: rest' ∧ e.token = .eof := by
  obtain ⟨cs', rfl, hbody⟩ := Run.node_iff.mp h
  refine ⟨⟨_, rfl, rfl⟩, ?_⟩
  obtain ⟨_, us', _, _, rfl, rfl, -, htail⟩ := Run.seq_iff.mp hbody
  obtain ⟨_, us'', _, _, rfl, rfl, -, hend⟩ := Run.seq_iff.mp htail
  obtain ⟨rfl, hholds, rfl⟩ := Run.demand_iff.mp hend
  cases rest with
  | nil => exact Bool.noConfusion hholds
  | cons e rest =>
      obtain ⟨haccepts, -⟩ := Bool.and_eq_true_iff.mp hholds
      refine ⟨e, rest, rfl, ?_⟩
      cases ht : e.token <;> rw [ht] at haccepts <;> first | rfl | exact Bool.noConfusion haccepts

/-- The session that parses a whole source. -/
theorem parse_eq_ok {source : String} {t : Tree} :
    parse source = .ok t ↔
      ∃ ls, tokenize source = .ok ls ∧ (Session.query ⟨ls⟩).1 = .ok t := by
  rw [parse, Session.ofString]
  cases tokenize source with
  | error e => simp
  | ok ls => simp

theorem Session.request_eq_ok {s : Session} {r : Rule} {t : Tree} :
    (s.request r).1 = .ok t ↔ ∃ ts taken rest, r.parse s.ahead = .done (t :: ts) taken rest := by
  rw [request]
  rcases r.parse s.ahead with ⟨_ | ⟨t', ts⟩, taken, rest⟩ | ⟨e, rest⟩ <;> simp [Outcome.result]

/-- **Every parsed tree is that of a cover of its source.** -/
theorem cover_of_parse {source : String} {t : Tree} (h : parse source = .ok t) :
    ∃ c : Cover, c.Of source ∧ c.tree = t := by
  obtain ⟨ls, htokens, hquery⟩ := parse_eq_ok.mp h
  obtain ⟨ts, taken, rest, hdone⟩ := Session.request_eq_ok.mp hquery
  obtain ⟨us, p, rfl, hw⟩ := tokenize_ok htokens
  obtain ⟨hsplit, cs, hcs, run⟩ := Run.of_parse (by decide) hdone
  obtain ⟨⟨c, rfl, rfl⟩, e, rest', rfl, he⟩ := run.of_cypher
  obtain ⟨rfl, rfl, rfl⟩ := rest_eq_ending hw hsplit he
  rw [List.map_singleton, List.cons.injEq] at hcs
  exact ⟨c, ⟨hcs.1 ▸ h, p, htokens, run⟩, hcs.1.symm⟩

namespace Cover.Of

variable {c : Cover} {source : String}

/-- The lexemes of the source are those that the cover is over, and the end. -/
theorem run_of_tokenize (h : c.Of source) {ls : List Lexeme} (hls : tokenize source = .ok ls) :
    ∃ p, ls = c.own ++ [Lexeme.ending p] ∧
      Run Grammar.cypher c.own [Lexeme.ending p] [c] := by
  obtain ⟨p, htokens, run⟩ := h.run
  rw [hls, Except.ok.injEq] at htokens
  exact ⟨p, htokens, run⟩

theorem written (h : c.Of source) : ∀ u ∈ c.own, u.Written := by
  obtain ⟨p, htokens, -⟩ := h.run
  obtain ⟨us, q, hus, hw⟩ := tokenize_ok htokens
  obtain ⟨rfl, -⟩ := List.append_inj' hus rfl
  exact hw

theorem isChain (h : c.Of source) : c.own.IsChain Lexeme.Apart := by
  obtain ⟨p, -, run⟩ := h.run
  exact run.isChain Grammar.apart_cypher

end Cover.Of

/-! ### Parsing and analyzing a normalized text -/

/-- A session on the same lexemes at other places gives the same answer at other places. -/
theorem Session.request_congr {s s' : Session} {r : Rule} {t : Tree}
    (hahead : s'.ahead.map Lexeme.content = s.ahead.map Lexeme.content)
    (h : (s.request r).1 = .ok t) :
    ∃ t', (s'.request r).1 = .ok t' ∧ t'.unplaced = t.unplaced := by
  obtain ⟨ts, taken, rest, hdone⟩ := request_eq_ok.mp h
  have hunplaced := r.unplaced_parse_congr hahead
  rw [hdone] at hunplaced
  rcases hdone' : r.parse s'.ahead with ⟨_ | ⟨t', ts'⟩, taken', rest'⟩ | ⟨e, rest'⟩ <;>
    rw [hdone'] at hunplaced <;> simp [Outcome.unplaced] at hunplaced
  exact ⟨t', request_eq_ok.mpr ⟨ts', taken', rest', hdone'⟩, hunplaced.1.1⟩

/-- **The normalized text of a query is parsed to the same tree, and analyzed to the same
findings, but for their places.** -/
theorem parse_text {source : String} {t : Tree} (h : parse source = .ok t) :
    ∃ t', parse t.text = .ok t' ∧ t'.unplaced = t.unplaced ∧
      Analysis.unplacedResult t'.analyze = Analysis.unplacedResult t.analyze := by
  obtain ⟨c, hc, rfl⟩ := cover_of_parse h
  obtain ⟨vs, q, hread, hcontent⟩ := tokenize_join hc.written hc.isChain
  obtain ⟨ls, htokens, hquery⟩ := parse_eq_ok.mp h
  obtain ⟨p, htokens', -⟩ := hc.run
  rw [htokens', Except.ok.injEq] at htokens
  subst htokens
  have hahead : (Session.mk (vs ++ [Lexeme.ending q])).ahead.map Lexeme.content =
      (Session.mk (c.own ++ [Lexeme.ending p])).ahead.map Lexeme.content := by
    show (vs ++ [_]).map _ = (c.own ++ [_]).map _
    rw [List.map_append, List.map_append, hcontent]
    rfl
  obtain ⟨t', hparse, ht'⟩ := Session.request_congr hahead hquery
  refine ⟨t', parse_eq_ok.mpr ⟨_, by rwa [c.tree_text], hparse⟩, ht', ?_⟩
  rw [← Tree.analyze_unplaced, ht', Tree.analyze_unplaced]

theorem exists_parse_eq_ok {α : Type} {source : String} {f : Tree → α} {x : α}
    (h : (parse source).toOption.map f = some x) : ∃ t, parse source = .ok t ∧ f t = x := by
  cases hparse : parse source with
  | error e => rw [hparse] at h; exact absurd h (by simp [Except.toOption])
  | ok t => rw [hparse] at h; exact ⟨t, rfl, Option.some.inj h⟩

/-- Layout, a comment and the spaces around a dot leave no trace. -/
theorem parse_text_of_layout :
    ∃ t t', parse "MATCH (n) // all\n RETURN n . x" = .ok t ∧ t.text = "MATCH(n)RETURN n.x" ∧
      parse "MATCH(n)RETURN n.x" = .ok t' ∧ t'.unplaced = t.unplaced := by
  obtain ⟨t, ht, htext⟩ : ∃ t, parse "MATCH (n) // all\n RETURN n . x" = .ok t ∧
      t.text = "MATCH(n)RETURN n.x" :=
    exists_parse_eq_ok (by decide +kernel)
  obtain ⟨t', hparse, hsame, -⟩ := parse_text ht
  exact ⟨t, t', ht, htext, htext ▸ hparse, hsame⟩

end BindCheck

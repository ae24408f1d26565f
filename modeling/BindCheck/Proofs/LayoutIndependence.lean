import BindCheck.Proofs.Lossless
import BindCheck.Proofs.Progress
import BindCheck.Proofs.Replacement

/-!
# BindCheck.Proofs.LayoutIndependence

**Blanks, comments and the breaks of lines do not matter.** Let two texts have the same lexemes at
different places. Then they are parsed to trees that differ in the places of their nodes alone,
each of them the place of the same lexeme; or they are both refused at the same lexeme, for
the same reason. And what is found in the one tree is found in the other, at the same lexemes
(`parse_layout`).

* For a query, the second text is a replacement of the first, lexeme by lexeme, which the same
  terminals accept. A node has the place of the first lexeme that it is over, and there is such a
  lexeme (`Cover.Of.own_ne_nil`).
* For a refusal, parsing commutes with forgetting places, so the same lexemes are left; and what
  is left is a rest of the text, so it is as far from the end in both texts.
-/

namespace BindCheck

/-! ### The same lexemes at different places -/

/-- That two places are those of the lexemes at one index. -/
def SameIndex (ls ls' : List Lexeme) (p p' : Position) : Prop :=
  ∃ (i : Nat) (l l' : Lexeme),
    ls[i]? = some l ∧ ls'[i]? = some l' ∧ l.position = p ∧ l'.position = p'

/-- How nodes correspond that differ in their places alone: they have the same text, and stand
at lexemes of the same index. -/
def layout (ls ls' : List Lexeme) : Matching where
  text x x' := x = x'
  node _ v v' := v.name = v'.name ∧ SameIndex ls ls' v.position v'.position
  oneToOne := by
    intro x x' y y' hx hy
    rw [hx, hy]
  star := by
    intro x x' hx
    rw [hx]

theorem ParseError.foundText_congr {l l' : Lexeme} (h : l.content = l'.content) :
    foundText l = foundText l' := by
  obtain ⟨htoken, htext⟩ := Prod.mk.inj h
  rw [foundText, foundText, htoken, htext]

/-! ### Queries -/

variable {source source' : String} {ls ls' : List Lexeme}

/-- **Each node stands at the same lexeme and has the same text.** -/
theorem Cover.Of.matches_layout {c : Cover} (hc : c.Of source) (hls : tokenize source = .ok ls)
    {φ : Lexeme → Lexeme} (hφ : ∀ l ∈ ls, (φ l).content = l.content) :
    ∀ m ∈ c.nodes, m.Matches (layout ls (ls.map φ)) φ := by
  intro m hm
  have hmem : ∀ l ∈ m.own, l ∈ ls := by
    intro l hl
    obtain ⟨p, rfl, -⟩ := hc.run_of_tokenize hls
    exact List.mem_append_left _ ((hc.own_infix hm).subset hl)
  have htext : m.tree.text = (m.relabel φ).tree.text := by
    rw [tree_text, tree_text, own_relabel]
    refine Lexeme.join_congr ?_
    rw [List.map_map]
    exact List.map_congr_left fun l hl => (hφ l (hmem l hl)).symm
  refine ⟨htext, htext, ?_⟩
  obtain ⟨k, us, cs⟩ := m
  cases us with
  | nil => exact absurd rfl (hc.own_ne_nil hm)
  | cons l us =>
      obtain ⟨i, hi⟩ := List.mem_iff_getElem?.mp (hmem l List.mem_cons_self)
      exact ⟨i, l, φ l, hi, by rw [List.getElem?_map, hi, Option.map_some], rfl, rfl⟩

/-- Lexemes of the same content are accepted by the same terminals. -/
theorem Lexeme.keeps_of_content {φ : Lexeme → Lexeme} {l : Lexeme}
    (h : (φ l).content = l.content) : l.Keeps φ := by
  intro t
  rw [(Prod.mk.inj h).1]

/-- A query in another layout is a query with the same tree, but for the places. -/
theorem parse_layout_of_ok (hls : tokenize source = .ok ls) (hls' : tokenize source' = .ok ls')
    (h : ls.map Lexeme.content = ls'.map Lexeme.content) {t : Tree} (ht : parse source = .ok t) :
    ∃ t', parse source' = .ok t' ∧ Tree.Alike (layout ls ls') t t' := by
  have hpairs : List.Forall₂ (fun l l' : Lexeme => l'.content = l.content) ls ls' := by
    rw [← List.forall₂_eq_eq_eq, List.forall₂_map_left_iff, List.forall₂_map_right_iff] at h
    exact h.imp fun _ _ => Eq.symm
  obtain ⟨φ, rfl, hφ⟩ := exists_map_of_forall₂ (nodup_of_tokenize hls) hpairs
  obtain ⟨c, hc, rfl, hc'⟩ := parse_of_keeps hls hls'
    (fun l hl => Lexeme.keeps_of_content (hφ l hl)) ht
  exact ⟨_, hc'.parsed, Cover.alike_relabel (hc.matches_layout hls hφ)⟩

/-! ### Refusals -/

theorem parse_eq_result (hls : tokenize source = .ok ls) :
    parse source = (Grammar.cypher.parse ls).result.1 := by
  rw [parse, Session.ofString, hls]
  rfl

/-- A whole query is parsed to a tree, unless it is refused. -/
theorem parse_ok_of_done {ns : List Tree} {taken rest : List Lexeme}
    (hls : tokenize source = .ok ls) (h : Grammar.cypher.parse ls = .done ns taken rest) :
    ∃ t, parse source = .ok t := by
  obtain ⟨-, cs, rfl, run⟩ := Run.of_parse (by decide) h
  obtain ⟨⟨c, rfl, -⟩, -⟩ := run.of_cypher
  exact ⟨c.tree, by rw [parse_eq_result hls, h]; rfl⟩

/-- A refusal is about the lexeme where it happens. -/
theorem parse_error_of_failed {e : Expectation} {rest : List Lexeme}
    (hls : tokenize source = .ok ls) (h : Grammar.cypher.parse ls = .failed e rest) :
    ∃ us l vs, rest = l :: vs ∧ ls = us ++ l :: vs ∧ parse source = .error (.unexpected e l) := by
  have hleaves : (Grammar.cypher.parse ls).Leaves ls :=
    Rule.parse_leaves (by decide) (Lexeme.closed_of_tokenize hls)
  rw [h] at hleaves
  obtain ⟨⟨us, hus⟩, hclosed⟩ := hleaves
  cases rest with
  | nil => exact absurd rfl hclosed.ne_nil
  | cons l vs => exact ⟨us, l, vs, rfl, hus.symm, by rw [parse_eq_result hls, h]; rfl⟩

theorem Outcome.failed_of_unplaced {e : Expectation} {rest : List Lexeme} {o : Outcome}
    (h : o.unplaced = (failed e rest).unplaced) :
    ∃ rest', o = failed e rest' ∧ rest'.map Lexeme.content = rest.map Lexeme.content := by
  cases o with
  | done ns us rest' => cases h
  | failed e' rest' =>
      obtain ⟨rfl, hrest⟩ := failed.inj h
      have hcontent := congrArg (List.map Lexeme.content) hrest
      rw [List.map_map, List.map_map] at hcontent
      exact ⟨rest', rfl, hcontent⟩

/-- What is refused in one layout is refused in the other, at the same lexeme. -/
theorem parse_layout_of_failed (hls : tokenize source = .ok ls) (hls' : tokenize source' = .ok ls')
    (h : ls.map Lexeme.content = ls'.map Lexeme.content) {e : Expectation} {rest : List Lexeme}
    (hfailed : Grammar.cypher.parse ls = .failed e rest) :
    ∃ (i : Nat) (l l' : Lexeme), parse source = .error (.unexpected e l) ∧
      parse source' = .error (.unexpected e l') ∧
      ls[i]? = some l ∧ ls'[i]? = some l' ∧ l.content = l'.content := by
  have hunplaced := Grammar.cypher.unplaced_parse_congr h.symm
  rw [hfailed] at hunplaced
  obtain ⟨rest', hfailed', hrest⟩ := Outcome.failed_of_unplaced hunplaced
  obtain ⟨us, l, vs, rfl, rfl, herror⟩ := parse_error_of_failed hls hfailed
  obtain ⟨us', l', vs', rfl, rfl, herror'⟩ := parse_error_of_failed hls' hfailed'
  -- the rests are as long as each other, and so are the texts
  have hvs : vs.length = vs'.length := by simpa using (congrArg List.length hrest).symm
  have hus : us.length = us'.length := by
    have hlength := congrArg List.length h
    simp only [List.length_map, List.length_append, List.length_cons] at hlength
    omega
  refine ⟨us.length, l, l', herror, herror', ?_, ?_, (List.cons.inj hrest).1.symm⟩
  · simp
  · simp [hus]

/-! ### Both -/

/-- **The layout of a text changes places and nothing else.** Two texts with the same lexemes are
both queries, whose trees have the same shape, kinds and texts, with nodes and findings at the same
lexemes; or both are refused, at the same lexeme and for the same reason. -/
theorem parse_layout (hls : tokenize source = .ok ls) (hls' : tokenize source' = .ok ls')
    (h : ls.map Lexeme.content = ls'.map Lexeme.content) :
    (∃ t t', parse source = .ok t ∧ parse source' = .ok t' ∧ Tree.Alike (layout ls ls') t t' ∧
      (layout ls ls').Results t.analyze t'.analyze) ∨
    ∃ (e : Expectation) (i : Nat) (l l' : Lexeme), parse source = .error (.unexpected e l) ∧
      parse source' = .error (.unexpected e l') ∧
      ParseError.foundText l = ParseError.foundText l' ∧ ls[i]? = some l ∧ ls'[i]? = some l' := by
  cases houtcome : Grammar.cypher.parse ls with
  | done ns taken rest =>
      obtain ⟨t, ht⟩ := parse_ok_of_done hls houtcome
      obtain ⟨t', ht', halike⟩ := parse_layout_of_ok hls hls' h ht
      exact .inl ⟨t, t', ht, ht', halike, halike.analyze⟩
  | failed e rest =>
      obtain ⟨i, l, l', herror, herror', hi, hi', hcontent⟩ :=
        parse_layout_of_failed hls hls' h houtcome
      exact .inr ⟨e, i, l, l', herror, herror', ParseError.foundText_congr hcontent, hi, hi'⟩

/-- A comment and a new line in front of a name. -/
theorem parse_layout_of_comment :
    ∃ ls ls' t t', tokenize "RETURN n" = .ok ls ∧ tokenize "RETURN // all\n n" = .ok ls' ∧
      parse "RETURN n" = .ok t ∧ parse "RETURN // all\n n" = .ok t' ∧
      Tree.Alike (layout ls ls') t t' ∧
      t.analyze = .ok ⟨[⟨.undefinedVariable, "n", ⟨1, 7⟩⟩]⟩ ∧
      (layout ls ls').Results t.analyze t'.analyze := by
  have hls : tokenize "RETURN n" = .ok
      [⟨.keyword .RETURN, "RETURN", ⟨1, 0⟩⟩, ⟨.identifier "n", "n", ⟨1, 7⟩⟩,
       ⟨.eof, "", ⟨1, 8⟩⟩] := by
    decide +kernel
  have hls' : tokenize "RETURN // all\n n" = .ok
      [⟨.keyword .RETURN, "RETURN", ⟨1, 0⟩⟩, ⟨.identifier "n", "n", ⟨2, 1⟩⟩,
       ⟨.eof, "", ⟨2, 2⟩⟩] := by
    decide +kernel
  obtain ⟨t, ht, hfound⟩ : ∃ t, parse "RETURN n" = .ok t ∧
      t.analyze = .ok ⟨[⟨.undefinedVariable, "n", ⟨1, 7⟩⟩]⟩ :=
    exists_parse_eq_ok (by decide +kernel)
  rcases parse_layout hls hls' rfl with
    ⟨u, t', hu, ht', halike, hresults⟩ | ⟨e, i, l, l', herror, -⟩
  · rw [ht, Except.ok.injEq] at hu
    subst hu
    exact ⟨_, _, t, t', hls, hls', ht, ht', halike, hfound, hresults⟩
  · rw [ht] at herror
    cases herror

end BindCheck

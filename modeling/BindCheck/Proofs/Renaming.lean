import BindCheck.Proofs.Lossless
import BindCheck.Proofs.Replacement
import Mathlib.Logic.Equiv.Basic

/-!
# BindCheck.Proofs.Renaming

**Names can be renamed.** Let names be replaced one to one by other names, so that `count` stays
`count`. Then a source is a query just if the renamed source is one, and what is found in the
one is found in the other under the new names, at the same lexemes (`analyze_renamed`).

* The renamed source is parsed as the source is, as the same terminals accept a name and its new
  name (`Renamed.keeps`), and the same nodes are found over the new lexemes.
* Texts correspond one to one (`Renaming.text_iff`): normalized texts are read back as their
  lexemes, so two texts are the same just if their lexemes are, and then so are the renamed ones.
* The resolver compares texts and does nothing else with them, so the trees are analyzed alike.
* What is found are variables, each of which is one lexeme (`Cover.Of.own_of_variable`).
-/

namespace BindCheck

/-! ### Names -/

/-- Whether a text is read as one name, which is the text itself. -/
def IsIdentifier (x : String) : Prop :=
  ∃ p q, tokenize x = .ok [⟨.identifier x, x, p⟩, Lexeme.ending q]

/-- A text that is a name. -/
structure Identifier where
  text : String
  isIdentifier : IsIdentifier text

namespace Identifier

theorem text_inj {x y : Identifier} : x.text = y.text ↔ x = y := by
  cases x; cases y
  simp

/-- Whether a name is `count` but for the case of its letters. -/
def isCount (x : Identifier) : Prop :=
  Keyword.capitals x.text.toList = Keyword.capitals "count".toList

end Identifier

variable {r : Identifier → Identifier}

/-! ### Renamed lexemes -/

/-- That a lexeme is the other one renamed. Their places may differ. -/
inductive Lexeme.Renamed (r : Identifier → Identifier) : Lexeme → Lexeme → Prop where
  | name (x : Identifier) (p p' : Position) :
      Renamed r ⟨.identifier x.text, x.text, p⟩ ⟨.identifier (r x).text, (r x).text, p'⟩
  | other {t : Token} (x : String) (p p' : Position) (h : ∀ n, t ≠ .identifier n) :
      Renamed r ⟨t, x, p⟩ ⟨t, x, p'⟩

namespace Lexeme.Renamed

variable {l l' m m' : Lexeme}

/-- **A name and its new name are accepted by the same terminals.** -/
theorem keeps (hcount : ∀ x, (r x).isCount ↔ x.isCount) (h : Lexeme.Renamed r l l')
    (t : Terminal) : t.accepts l'.token = t.accepts l.token := by
  cases h with
  | name x p p' =>
      cases t
      case countWord =>
        rw [Bool.eq_iff_iff]
        exact (beq_iff_eq.trans (hcount x)).trans beq_iff_eq.symm
      all_goals rfl
  | other x p p' h => rfl

/-- Renamed lexemes are the same just if the lexemes are, places aside. -/
theorem content_iff (hr : Function.Injective r) (h : Lexeme.Renamed r l l')
    (h' : Lexeme.Renamed r m m') : l.content = m.content ↔ l'.content = m'.content := by
  cases h with
  | name x =>
      cases h' with
      | name y =>
          have htext : x.text = y.text ↔ (r x).text = (r y).text := by
            rw [Identifier.text_inj, Identifier.text_inj, hr.eq_iff]
          simp [Lexeme.content, htext]
      | other y q q' hy =>
          simp only [Lexeme.content, Prod.mk.injEq]
          exact ⟨fun he => absurd he.1.symm (hy _), fun he => absurd he.1.symm (hy _)⟩
  | other x p p' hx =>
      cases h' with
      | name y =>
          simp only [Lexeme.content, Prod.mk.injEq]
          exact ⟨fun he => absurd he.1 (hx _), fun he => absurd he.1 (hx _)⟩
      | other y q q' hy => exact Iff.rfl

end Lexeme.Renamed

/-! ### Texts of names -/

/-- Texts of lexemes that are read back are the same just if the lexemes are, places aside. -/
theorem Lexeme.join_eq_iff {us vs : List Lexeme} (hu : ∀ u ∈ us, u.Written)
    (hus : us.IsChain Lexeme.Apart) (hv : ∀ v ∈ vs, v.Written) (hvs : vs.IsChain Lexeme.Apart) :
    join us = join vs ↔ us.map content = vs.map content := by
  refine ⟨fun h => ?_, join_congr⟩
  obtain ⟨ws, p, htokens, hcontent⟩ := tokenize_join hu hus
  obtain ⟨ws', p', htokens', hcontent'⟩ := tokenize_join hv hvs
  rw [h, htokens', Except.ok.injEq] at htokens
  obtain ⟨rfl, -⟩ := List.append_inj' htokens rfl
  rw [← hcontent, ← hcontent']

/-- Nodes of a query have the same text just if their lexemes are the same, places aside. -/
theorem Cover.Of.text_eq_iff {c m n : Cover} {source : String} (h : c.Of source)
    (hm : m ∈ c.nodes) (hn : n ∈ c.nodes) :
    m.tree.text = n.tree.text ↔ m.own.map Lexeme.content = n.own.map Lexeme.content := by
  have hwritten : ∀ k ∈ c.nodes, ∀ u ∈ k.own, u.Written := fun k hk u hu =>
    h.written u ((h.own_infix hk).subset hu)
  have hchain : ∀ k ∈ c.nodes, k.own.IsChain Lexeme.Apart := fun k hk =>
    List.IsChain.infix h.isChain (h.own_infix hk)
  rw [tree_text, tree_text]
  exact Lexeme.join_eq_iff (hwritten m hm) (hchain m hm) (hwritten n hn) (hchain n hn)

/-- Lexemes are the same, one by one, just if those are that replace them. -/
theorem Lexeme.map_content_iff {φ : Lexeme → Lexeme} {us vs : List Lexeme}
    (h : ∀ u ∈ us, ∀ v ∈ vs, (u.content = v.content ↔ (φ u).content = (φ v).content)) :
    us.map content = vs.map content ↔ (us.map φ).map content = (vs.map φ).map content := by
  induction us generalizing vs with
  | nil => cases vs <;> simp
  | cons u us ih =>
      cases vs with
      | nil => simp
      | cons v vs =>
          have hhead := h u List.mem_cons_self v List.mem_cons_self
          have htail := ih fun u hu v hv =>
            h u (List.mem_cons_of_mem _ hu) v (List.mem_cons_of_mem _ hv)
          simp only [List.map_cons, List.cons.injEq, hhead, htail]

/-! ### Texts of renamed lexemes -/

/-- Lexemes and what replaces them: they are renamed one to one, and both are read back from
their normalized texts. -/
structure Renaming (r : Identifier → Identifier) (φ : Lexeme → Lexeme) (us : List Lexeme) :
    Prop where
  injective : Function.Injective r
  renamed : ∀ u ∈ us, u.Renamed r (φ u)
  written : ∀ u ∈ us, u.Written
  isChain : us.IsChain Lexeme.Apart
  written' : ∀ u ∈ us, (φ u).Written
  isChain' : (us.map φ).IsChain Lexeme.Apart

namespace Renaming

variable {φ : Lexeme → Lexeme} {us vs : List Lexeme}

theorem mono (h : Renaming r φ us) (hvs : vs <:+: us) : Renaming r φ vs where
  injective := h.injective
  renamed := fun v hv => h.renamed v (hvs.subset hv)
  written := fun v hv => h.written v (hvs.subset hv)
  isChain := h.isChain.infix hvs
  written' := fun v hv => h.written' v (hvs.subset hv)
  isChain' := h.isChain'.infix (hvs.map φ)

/-- **Texts correspond one to one.** -/
theorem text_iff (h : Renaming r φ us) (h' : Renaming r φ vs) :
    Lexeme.join us = Lexeme.join vs ↔ Lexeme.join (us.map φ) = Lexeme.join (vs.map φ) := by
  rw [Lexeme.join_eq_iff h.written h.isChain h'.written h'.isChain,
    Lexeme.map_content_iff fun u hu v hv =>
      (h.renamed u hu).content_iff h.injective (h'.renamed v hv),
    Lexeme.join_eq_iff (List.forall_mem_map.mpr h.written') h.isChain'
      (List.forall_mem_map.mpr h'.written') h'.isChain']

theorem star_iff (h : Renaming r φ us) : (Lexeme.join us).toList.head? = some '*' ↔
    (Lexeme.join (us.map φ)).toList.head? = some '*' := by
  cases us with
  | nil => rfl
  | cons u us =>
      have hu := h.written u List.mem_cons_self
      have hu' := h.written' u List.mem_cons_self
      rw [List.map_cons, Lexeme.head?_join hu, Lexeme.head?_join hu']
      have hrenamed := h.renamed u List.mem_cons_self
      generalize φ u = u' at hu' hrenamed
      cases hrenamed with
      | name x => exact iff_of_false (hu.head?_ne_star rfl) (hu'.head?_ne_star rfl)
      | other x => exact Iff.rfl

/-- How the nodes over lexemes of a query correspond to those over the renamed lexemes. -/
def matching (h : Renaming r φ us) : Matching where
  text x x' := ∃ vs, vs <:+: us ∧ x = Lexeme.join vs ∧ x' = Lexeme.join (vs.map φ)
  node k v v' := k = .variableName → ∃ l ∈ us, (∃ n, l.token = .identifier n) ∧
    v = ⟨l.text, l.position⟩ ∧ v' = ⟨(φ l).text, (φ l).position⟩
  oneToOne := by
    rintro _ _ _ _ ⟨vs, hvs, rfl, rfl⟩ ⟨ws, hws, rfl, rfl⟩
    exact (h.mono hvs).text_iff (h.mono hws)
  star := by
    rintro _ _ ⟨vs, hvs, rfl, rfl⟩
    exact (h.mono hvs).star_iff

/-- **The nodes of a query correspond to those of the renamed query.** -/
theorem matches_nodes {c : Cover} {source : String} (hc : c.Of source) (h : Renaming r φ c.own) :
    ∀ m ∈ c.nodes, m.Matches h.matching φ := by
  rintro ⟨k, us, cs⟩ hm
  refine ⟨⟨us, hc.own_infix hm, rfl, rfl⟩, ?_⟩
  rintro rfl
  obtain ⟨l, n, rfl, hl⟩ := hc.own_of_variable hm rfl
  have hmem : l ∈ c.own := (hc.own_infix hm).subset (List.mem_singleton_self l)
  refine ⟨l, hmem, ⟨n, hl⟩, ?_, ?_⟩
  · exact congrArg (Variable.mk · _) l.join_singleton
  · exact congrArg (Variable.mk · _) (φ l).join_singleton

theorem of_covers (hr : Function.Injective r) {source source' : String} {ls : List Lexeme}
    (hls : tokenize source = .ok ls) (hφ : ∀ l ∈ ls, l.Renamed r (φ l)) {c : Cover}
    (hc : c.Of source) (hc' : (c.relabel φ).Of source') : Renaming r φ c.own := by
  have hown : (c.relabel φ).own = c.own.map φ := c.own_relabel φ
  obtain ⟨p, rfl, -⟩ := hc.run_of_tokenize hls
  refine ⟨hr, fun u hu => hφ u (List.mem_append_left _ hu), hc.written, hc.isChain, ?_, ?_⟩
  · have hwritten := hc'.written
    rwa [hown, List.forall_mem_map] at hwritten
  · rw [← hown]
    exact hc'.isChain

end Renaming

/-! ### Analyzing renamed sources -/

/-- Findings about a name and its new name, at lexemes that stand at the same index. -/
def Diagnostic.Renamed (r : Identifier → Identifier) (ls ls' : List Lexeme)
    (d d' : Diagnostic) : Prop :=
  d.kind = d'.kind ∧ ∃ (i : Nat) (x : Identifier), d.name = x.text ∧ d'.name = (r x).text ∧
    ls[i]? = some ⟨.identifier x.text, x.text, d.position⟩ ∧
      ls'[i]? = some ⟨.identifier (r x).text, (r x).text, d'.position⟩

/-- Results for a source and the renamed source: the same construct is not analyzed, or there
are as many findings, each about the new name of the one that it stands for. -/
def Analysis.Renamed (r : Identifier → Identifier) (ls ls' : List Lexeme) :
    Except Unsupported Analysis → Except Unsupported Analysis → Prop
  | .ok a, .ok a' => List.Forall₂ (Diagnostic.Renamed r ls ls') a.diagnostics a'.diagnostics
  | .error u, .error u' => u.construct = u'.construct
  | _, _ => False

theorem Renaming.findings {φ : Lexeme → Lexeme} {us ls : List Lexeme} (h : Renaming r φ us)
    (hus : ∀ u ∈ us, u ∈ ls) {d d' : Diagnostic} (hd : h.matching.Findings d d') :
    d.Renamed r ls (ls.map φ) d' := by
  obtain ⟨hkind, hnode⟩ := hd
  obtain ⟨l, hl, ⟨n, hn⟩, hd, hd'⟩ := hnode rfl
  obtain ⟨hname, hposition⟩ := Variable.mk.inj hd
  obtain ⟨hname', hposition'⟩ := Variable.mk.inj hd'
  obtain ⟨i, hi⟩ := List.mem_iff_getElem?.mp (hus l hl)
  have hi' : (ls.map φ)[i]? = some (φ l) := by
    rw [List.getElem?_map, hi, Option.map_some]
  have hrenamed := h.renamed l hl
  refine ⟨hkind, i, ?_⟩
  rw [hi, hi', hname, hname', hposition, hposition']
  generalize φ l = l' at hrenamed
  cases hrenamed with
  | name x => exact ⟨x, rfl, rfl, rfl, rfl⟩
  | other x p p' hother => exact absurd hn (hother n)

theorem Renaming.results {φ : Lexeme → Lexeme} {us ls : List Lexeme} (h : Renaming r φ us)
    (hus : ∀ u ∈ us, u ∈ ls) {a a' : Except Unsupported Analysis} (ha : h.matching.Results a a') :
    Analysis.Renamed r ls (ls.map φ) a a' := by
  cases a <;> cases a'
  · exact ha.1
  · exact ha.elim
  · exact ha.elim
  · exact List.Forall₂.imp (fun _ _ hd => h.findings hus hd) ha

/-- **Renaming changes the names in the findings and nothing else.** -/
theorem analyze_renamed (hr : Function.Injective r) (hcount : ∀ x, (r x).isCount ↔ x.isCount)
    {source source' : String} {ls ls' : List Lexeme} (hls : tokenize source = .ok ls)
    (hls' : tokenize source' = .ok ls') (h : List.Forall₂ (Lexeme.Renamed r) ls ls') :
    ((∃ t, parse source = .ok t) ↔ ∃ t', parse source' = .ok t') ∧
      ∀ t t', parse source = .ok t → parse source' = .ok t' →
        Analysis.Renamed r ls ls' t.analyze t'.analyze := by
  obtain ⟨ψ, hψ, hback⟩ := exists_map_of_forall₂ (nodup_of_tokenize hls') h.flip
  obtain ⟨φ, rfl, hφ⟩ := exists_map_of_forall₂ (nodup_of_tokenize hls) h
  have hkeeps : ∀ l ∈ ls, l.Keeps φ := fun l hl => (hφ l hl).keeps hcount
  refine ⟨⟨?_, ?_⟩, fun t t' ht ht' => ?_⟩
  · rintro ⟨t, ht⟩
    obtain ⟨c, -, -, hc'⟩ := parse_of_keeps hls hls' hkeeps ht
    exact ⟨_, hc'.parsed⟩
  · rintro ⟨t', ht'⟩
    obtain ⟨c, -, -, hc⟩ := parse_of_keeps hls' (hψ ▸ hls)
      (fun l hl t => ((hback l hl).keeps hcount t).symm) ht'
    exact ⟨_, hc.parsed⟩
  · obtain ⟨c, hc, rfl, hc'⟩ := parse_of_keeps hls hls' hkeeps ht
    rw [hc'.parsed, Except.ok.injEq] at ht'
    subst ht'
    have hrenaming := Renaming.of_covers hr hls hφ hc hc'
    have hresults := (Cover.alike_relabel (hrenaming.matches_nodes hc)).analyze
    obtain ⟨p, htokens, -⟩ := hc.run
    rw [hls, Except.ok.injEq] at htokens
    subst htokens
    exact hrenaming.results (fun u hu => List.mem_append_left _ hu) hresults

/-- Two names change places, over two lines in the second source. -/
theorem analyze_renamed_of_swap :
    ∃ (r : Identifier → Identifier) (ls ls' : List Lexeme) (t t' : Tree),
      tokenize "MATCH (n) RETURN m" = .ok ls ∧ tokenize "MATCH (m)\nRETURN n" = .ok ls' ∧
        parse "MATCH (n) RETURN m" = .ok t ∧ parse "MATCH (m)\nRETURN n" = .ok t' ∧
          t.analyze = .ok ⟨[⟨.undefinedVariable, "m", ⟨1, 17⟩⟩]⟩ ∧
            Analysis.Renamed r ls ls' t.analyze t'.analyze := by
  classical
  let n : Identifier := ⟨"n", ⟨1, 0⟩, ⟨1, 1⟩, by decide +kernel⟩
  let m : Identifier := ⟨"m", ⟨1, 0⟩, ⟨1, 1⟩, by decide +kernel⟩
  have hn : Equiv.swap n m n = m := Equiv.swap_apply_left n m
  have hm : Equiv.swap n m m = n := Equiv.swap_apply_right n m
  have hcount : ∀ x : Identifier, (Equiv.swap n m x).isCount ↔ x.isCount := by
    intro x
    have hnot : ¬n.isCount ∧ ¬m.isCount := by
      unfold Identifier.isCount
      decide
    by_cases hxn : x = n
    · rw [hxn, hn]
      exact iff_of_false hnot.2 hnot.1
    · by_cases hxm : x = m
      · rw [hxm, hm]
        exact iff_of_false hnot.1 hnot.2
      · rw [Equiv.swap_apply_of_ne_of_ne hxn hxm]
  have hls : tokenize "MATCH (n) RETURN m" = .ok
      [⟨.keyword .MATCH, "MATCH", ⟨1, 0⟩⟩, ⟨.symbol .leftParen, "(", ⟨1, 6⟩⟩,
       ⟨.identifier "n", "n", ⟨1, 7⟩⟩, ⟨.symbol .rightParen, ")", ⟨1, 8⟩⟩,
       ⟨.keyword .RETURN, "RETURN", ⟨1, 10⟩⟩, ⟨.identifier "m", "m", ⟨1, 17⟩⟩,
       ⟨.eof, "", ⟨1, 18⟩⟩] := by
    decide +kernel
  have hls' : tokenize "MATCH (m)\nRETURN n" = .ok
      [⟨.keyword .MATCH, "MATCH", ⟨1, 0⟩⟩, ⟨.symbol .leftParen, "(", ⟨1, 6⟩⟩,
       ⟨.identifier "m", "m", ⟨1, 7⟩⟩, ⟨.symbol .rightParen, ")", ⟨1, 8⟩⟩,
       ⟨.keyword .RETURN, "RETURN", ⟨2, 0⟩⟩, ⟨.identifier "n", "n", ⟨2, 7⟩⟩,
       ⟨.eof, "", ⟨2, 8⟩⟩] := by
    decide +kernel
  have hother : ∀ {t : Token} (x : String) (p p' : Position), (∀ n, t ≠ .identifier n) →
      Lexeme.Renamed (Equiv.swap n m) ⟨t, x, p⟩ ⟨t, x, p'⟩ := .other
  have hnm : ∀ p p', Lexeme.Renamed (Equiv.swap n m) ⟨.identifier "n", "n", p⟩
      ⟨.identifier "m", "m", p'⟩ := by
    intro p p'
    have h := Lexeme.Renamed.name (r := Equiv.swap n m) n p p'
    rwa [hn] at h
  have hmn : ∀ p p', Lexeme.Renamed (Equiv.swap n m) ⟨.identifier "m", "m", p⟩
      ⟨.identifier "n", "n", p'⟩ := by
    intro p p'
    have h := Lexeme.Renamed.name (r := Equiv.swap n m) m p p'
    rwa [hm] at h
  obtain ⟨hiff, hall⟩ := analyze_renamed (Equiv.swap n m).injective hcount hls hls' <|
    .cons (hother _ _ _ (by simp)) <| .cons (hother _ _ _ (by simp)) <|
    .cons (hnm _ _) <| .cons (hother _ _ _ (by simp)) <|
    .cons (hother _ _ _ (by simp)) <| .cons (hmn _ _) <|
    .cons (hother _ _ _ (by simp)) .nil
  obtain ⟨t, ht, hfound⟩ : ∃ t, parse "MATCH (n) RETURN m" = .ok t ∧
      t.analyze = .ok ⟨[⟨.undefinedVariable, "m", ⟨1, 17⟩⟩]⟩ :=
    exists_parse_eq_ok (by decide +kernel)
  obtain ⟨t', ht'⟩ := hiff.mp ⟨t, ht⟩
  exact ⟨_, _, _, t, t', hls, hls', ht, ht', hfound, hall t t' ht ht'⟩

end BindCheck

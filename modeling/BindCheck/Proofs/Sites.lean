import BindCheck.Proofs.Runs

/-!
# BindCheck.Proofs.Sites

**Where in the grammar a node comes from.** A node of a run was made by a `wrap` or a `fork`
that occurs in the text of the rule, or in that of a rule that it calls. `Rule.sites` lists
these places, each with the lookahead that is known to hold there, and `Run.exists_site`
finds the one behind a node. So a property of all nodes of some kinds is a property of the
few sites that make such nodes.
-/

namespace BindCheck

deriving instance DecidableEq for Rule

/-! ### Nodes and what makes them -/

namespace Shape

/-- The kind of the nodes that a shape makes. -/
def kind? : Shape → Option NodeKind
  | bare => none
  | node k | ifMany k => some k

/-- The kind of the node that a shape makes over some nodes, if it makes one. -/
def kindOver (s : Shape) (cs : List Cover) : Option NodeKind :=
  match s with
  | bare => none
  | node k => some k
  | ifMany k => if 1 < cs.length then some k else none

theorem cover_of_kindOver {s : Shape} {us : List Lexeme} {cs : List Cover} {k : NodeKind}
    (h : s.kindOver cs = some k) : s.cover us cs = [⟨k, us, cs⟩] := by
  cases s with
  | bare => exact absurd h (Option.some_ne_none k).symm
  | node k' =>
      obtain rfl := Option.some.inj h
      rfl
  | ifMany k' =>
      by_cases hlen : 1 < cs.length
      · rw [kindOver, if_pos hlen] at h
        obtain rfl := Option.some.inj h
        rw [cover, if_pos hlen]
      · rw [kindOver, if_neg hlen] at h
        exact absurd h (Option.some_ne_none k).symm

/-- A shape that makes no node leaves the nodes as they are. -/
theorem cover_of_kindOver_none {s : Shape} {us : List Lexeme} {cs : List Cover}
    (h : s.kindOver cs = none) : s.cover us cs = cs := by
  cases s with
  | bare => rfl
  | node k => exact absurd h (Option.some_ne_none k)
  | ifMany k =>
      by_cases hlen : 1 < cs.length
      · rw [kindOver, if_pos hlen] at h
        exact absurd h (Option.some_ne_none k)
      · rw [cover, if_neg hlen]

theorem kind?_of_kindOver {s : Shape} {cs : List Cover} {k : NodeKind}
    (h : s.kindOver cs = some k) : s.kind? = some k := by
  cases s with
  | bare => exact h
  | node k' => exact h
  | ifMany k' =>
      by_cases hlen : 1 < cs.length
      · rwa [kindOver, if_pos hlen] at h
      · rw [kindOver, if_neg hlen] at h
        exact absurd h (Option.some_ne_none k).symm

end Shape

/-- That a rule itself has put a node over what it found, with `vs` behind it. -/
inductive Makes : Rule → List Lexeme → Cover → Prop where
  | wrap {s : Shape} {b : Rule} {k : NodeKind} {us vs : List Lexeme} {cs : List Cover}
      (made : s.kindOver cs = some k) (run : Run b us vs cs) : Makes (.wrap s b) vs ⟨k, us, cs⟩
  | forkYes {first y n : Rule} {l : Lookahead} {ys ns : Shape} {k : NodeKind}
      {us us' vs : List Lexeme} {cs cs' : List Cover} (made : ys.kindOver (cs ++ cs') = some k)
      (run : Run first us (us' ++ vs) cs) (holds : l.holds (us' ++ vs) = true)
      (more : Run y us' vs cs') : Makes (.fork first l ys y ns n) vs ⟨k, us ++ us', cs ++ cs'⟩
  | forkNo {first y n : Rule} {l : Lookahead} {ys ns : Shape} {k : NodeKind}
      {us us' vs : List Lexeme} {cs cs' : List Cover} (made : ns.kindOver (cs ++ cs') = some k)
      (run : Run first us (us' ++ vs) cs) (fails : l.holds (us' ++ vs) = false)
      (more : Run n us' vs cs') : Makes (.fork first l ys y ns n) vs ⟨k, us ++ us', cs ++ cs'⟩

/-- The kinds of the nodes that a rule itself makes. -/
def Rule.kinds : Rule → List NodeKind
  | wrap s _ => s.kind?.toList
  | fork _ _ ys _ ns _ => ys.kind?.toList ++ ns.kind?.toList
  | _ => []

/-- A rule that has made a node has run over its lexemes and found it alone. -/
theorem Makes.run {r : Rule} {vs : List Lexeme} {m : Cover} (h : Makes r vs m) :
    Run r m.own vs [m] := by
  cases h with
  | wrap made run => exact Shape.cover_of_kindOver made ▸ .wrap run
  | forkYes made run holds more => exact Shape.cover_of_kindOver made ▸ .forkYes run holds more
  | forkNo made run fails more => exact Shape.cover_of_kindOver made ▸ .forkNo run fails more

theorem Makes.kind_mem {r : Rule} {vs : List Lexeme} {m : Cover} (h : Makes r vs m) :
    m.kind ∈ r.kinds := by
  cases h with
  | wrap made run => simp [Rule.kinds, Shape.kind?_of_kindOver made]
  | forkYes made run holds more => simp [Rule.kinds, Shape.kind?_of_kindOver made]
  | forkNo made run fails more => simp [Rule.kinds, Shape.kind?_of_kindOver made]

/-! ### What is known behind a rule -/

/-- What is left of a lookahead behind its first token. -/
def Lookahead.behind : Lookahead → Option Lookahead
  | next (_ :: t :: ts) => some (next (t :: ts))
  | _ => none

theorem Lookahead.holds_behind {l l' : Lookahead} {u : Lexeme} {ls : List Lexeme}
    (h : l' ∈ l.behind) (hl : l.holds (u :: ls) = true) : l'.holds ls = true := by
  unfold behind at h
  split at h
  · obtain rfl := Option.mem_some_iff.mp h
    exact (Bool.and_eq_true_iff.mp hl).2
  · exact absurd h (Option.not_mem_none l')

/-- One of two reserved words is next if the one or the other is. -/
theorem Lookahead.holds_keywords {k k' : Keyword} {ls : List Lexeme} :
    (Lookahead.next [.keywords [k, k']]).holds ls =
      ((Lookahead.next [.keyword k]).holds ls || (Lookahead.next [.keyword k']).holds ls) := by
  cases ls with
  | nil => rfl
  | cons u ls =>
      simp only [Lookahead.holds, Lookahead.nextIn, Bool.and_true]
      cases u.token with
      | keyword k₁ =>
          rw [Bool.eq_iff_iff, Bool.or_eq_true]
          show [k, k'].contains k₁ = true ↔ (k == k₁) = true ∨ (k' == k₁) = true
          rw [List.contains_iff_mem, beq_iff_eq, beq_iff_eq, List.mem_cons, List.mem_singleton]
          exact or_congr eq_comm eq_comm
      | _ => rfl

/-- A lookahead that holds behind a rule, given one that holds where it starts. -/
def Rule.knownBehind (known : Option Lookahead) : Rule → Option Lookahead
  | demand l _ => some l
  | token _ _ => known.bind Lookahead.behind
  | wrap _ b => b.knownBehind known
  | _ => none

/-- What is known behind a rule holds there. -/
theorem Run.holds_knownBehind {r : Rule} {us vs : List Lexeme} {cs : List Cover}
    (h : Run r us vs cs) :
    ∀ {known : Option Lookahead}, (∀ l ∈ known, l.holds (us ++ vs) = true) →
      ∀ l ∈ r.knownBehind known, l.holds vs = true := by
  induction h with
  | demand holds => exact fun _ => Rule.holds_some holds
  | @token t e u vs accepts =>
      intro known hk l hl
      obtain ⟨l', hl', hl⟩ := Option.mem_bind_iff.mp hl
      exact Lookahead.holds_behind hl (hk l' hl')
  | wrap run ih => exact fun hk => ih hk
  | empty | seq | yes | no | done | step | sepBy | forkYes | forkNo | call | attemptFirst
  | attemptOther => exact fun _ => Rule.holds_none _

/-! ### The sites of a rule -/

/-- A rule that makes nodes, and a lookahead that holds where it starts. -/
structure Site where
  known : Option Lookahead
  rule : Rule
  deriving DecidableEq

/-- That a node was made at a site. -/
def Site.Made (site : Site) (m : Cover) : Prop :=
  ∃ vs, (∀ l ∈ site.known, l.holds (m.own ++ vs) = true) ∧ Makes site.rule vs m

namespace Rule

/-- The sites in a rule, those of the rules that it calls apart. -/
def sites (known : Option Lookahead) : Rule → List Site
  | empty | token _ _ | demand _ _ | call _ => []
  | seq r s => r.sites known ++ s.sites (r.knownBehind known)
  | branch l y n => y.sites (some l) ++ n.sites known
  | many l b => b.sites (some l)
  | sepBy item _ => item.sites none
  | wrap s b => ⟨known, wrap s b⟩ :: b.sites known
  | fork first l ys y ns n =>
    ⟨known, fork first l ys y ns n⟩ :: (first.sites known ++ (y.sites none ++ n.sites none))
  | attempt first _ other => first.sites known ++ other.sites known

/-- The rules that a rule calls by name. -/
def calls : Rule → List Nonterminal
  | empty | token _ _ | demand _ _ => []
  | call n => [n]
  | seq r s => r.calls ++ s.calls
  | branch _ y n => y.calls ++ n.calls
  | many _ b => b.calls
  | sepBy item _ => item.calls
  | wrap _ b => b.calls
  | fork first _ _ y _ n => first.calls ++ (y.calls ++ n.calls)
  | attempt first _ other => first.calls ++ other.calls

end Rule

namespace Nonterminal

/-- The named rules that expressions are made of. -/
def ofExpressions : List Nonterminal := [.expression, .comparison, .sum, .unary]

/-- All named rules. -/
def all : List Nonterminal := [.singleQuery, .queryTail, .patternElement] ++ ofExpressions

/-- Whether a list of named rules contains all that they call. -/
def Closed (N : List Nonterminal) : Prop :=
  ∀ n ∈ N, ∀ n' ∈ (Grammar.production n).calls, n' ∈ N

/-- The sites in some named rules. -/
def sites (N : List Nonterminal) : List Site :=
  N.flatMap fun n => (Grammar.production n).sites none

theorem closed_ofExpressions : Closed ofExpressions := by
  unfold Closed
  decide

theorem closed_all : Closed all := by
  unfold Closed
  decide

end Nonterminal

/-! ### The nodes of a run -/

namespace Cover

theorem nodesAll_append (cs cs' : List Cover) :
    nodesAll (cs ++ cs') = nodesAll cs ++ nodesAll cs' := by
  induction cs with
  | nil => rfl
  | cons c cs ih => rw [List.cons_append, nodesAll, nodesAll, ih, List.append_assoc]

theorem nodes_eq (c : Cover) : c.nodes = c :: nodesAll c.children := by
  cases c; rfl

theorem nodesAll_singleton (c : Cover) : nodesAll [c] = c.nodes :=
  List.append_nil c.nodes

end Cover

/-- The nodes after a shape: those there were, and the one that it made. -/
theorem Shape.mem_nodesAll_cover {s : Shape} {us : List Lexeme} {cs : List Cover} {m : Cover}
    (h : m ∈ Cover.nodesAll (s.cover us cs)) :
    (∃ k, s.kindOver cs = some k ∧ m = ⟨k, us, cs⟩) ∨ m ∈ Cover.nodesAll cs := by
  cases hk : s.kindOver cs with
  | none =>
      rw [cover_of_kindOver_none hk] at h
      exact .inr h
  | some k =>
      rw [cover_of_kindOver hk, Cover.nodesAll_singleton, Cover.nodes_eq] at h
      rcases List.mem_cons.mp h with rfl | h
      · exact .inl ⟨k, rfl, rfl⟩
      · exact .inr h

/-- What there was before a shape is still there. -/
theorem Shape.mem_nodesAll_of_mem {s : Shape} {us : List Lexeme} {cs : List Cover} {m : Cover}
    (h : m ∈ Cover.nodesAll cs) : m ∈ Cover.nodesAll (s.cover us cs) := by
  cases hk : s.kindOver cs with
  | none => rwa [cover_of_kindOver_none hk]
  | some k =>
      rw [cover_of_kindOver hk, Cover.nodesAll_singleton, Cover.nodes_eq]
      exact List.mem_cons_of_mem _ h

namespace Run

/-- **Every node of a run was made at a site** of the rule, or of a rule that it calls. -/
theorem exists_site {N : List Nonterminal} (hN : Nonterminal.Closed N) {r : Rule}
    {us vs : List Lexeme} {cs : List Cover} (h : Run r us vs cs) :
    ∀ {known : Option Lookahead}, (∀ l ∈ known, l.holds (us ++ vs) = true) →
      (∀ n ∈ r.calls, n ∈ N) → ∀ m ∈ Cover.nodesAll cs,
        ∃ site ∈ r.sites known ++ Nonterminal.sites N, site.Made m := by
  -- more sites may be looked at
  have mono : ∀ {sites sites' : List Site} {m : Cover}, (∀ x ∈ sites, x ∈ sites') →
      (∃ x ∈ sites ++ Nonterminal.sites N, x.Made m) →
        ∃ x ∈ sites' ++ Nonterminal.sites N, x.Made m := by
    intro sites sites' m hsub h
    obtain ⟨x, hx, hmade⟩ := h
    rcases List.mem_append.mp hx with hx | hx
    · exact ⟨x, List.mem_append_left _ (hsub x hx), hmade⟩
    · exact ⟨x, List.mem_append_right _ hx, hmade⟩
  induction h with
  | empty | token | demand | done => intro known _ _ m hm; exact absurd hm List.not_mem_nil
  | seq first second ih₁ ih₂ =>
      intro known hk hN' m hm
      rw [Cover.nodesAll_append] at hm
      rcases List.mem_append.mp hm with hm | hm
      · have hk' := by simpa only [List.append_assoc] using hk
        exact mono (fun x hx => List.mem_append_left _ hx)
          (ih₁ hk' (fun n hn => hN' n (List.mem_append_left _ hn)) m hm)
      · have hk' := first.holds_knownBehind (by simpa only [List.append_assoc] using hk)
        exact mono (fun x hx => List.mem_append_right _ hx)
          (ih₂ hk' (fun n hn => hN' n (List.mem_append_right _ hn)) m hm)
  | yes holds run ih =>
      intro known hk hN' m hm
      exact mono (fun x hx => List.mem_append_left _ hx)
        (ih (Rule.holds_some holds) (fun n hn => hN' n (List.mem_append_left _ hn)) m hm)
  | no fails run ih =>
      intro known hk hN' m hm
      exact mono (fun x hx => List.mem_append_right _ hx)
        (ih hk (fun n hn => hN' n (List.mem_append_right _ hn)) m hm)
  | step holds first more ih₁ ih₂ =>
      intro known hk hN' m hm
      rw [Cover.nodesAll_append] at hm
      rcases List.mem_append.mp hm with hm | hm
      · exact ih₁ (Rule.holds_some holds) hN' m hm
      · exact ih₂ (Rule.holds_none _) hN' m hm
  | sepBy first more ih₁ ih₂ =>
      intro known hk hN' m hm
      rw [Cover.nodesAll_append] at hm
      rcases List.mem_append.mp hm with hm | hm
      · exact ih₁ (Rule.holds_none _) hN' m hm
      · exact ih₂ (Rule.holds_none _) hN' m hm
  | wrap run ih =>
      intro known hk hN' m hm
      rcases Shape.mem_nodesAll_cover hm with ⟨k, hmade, rfl⟩ | hm
      · exact ⟨_, List.mem_append_left _ List.mem_cons_self, _, hk, .wrap hmade run⟩
      · exact mono (fun x hx => List.mem_cons_of_mem _ hx) (ih hk hN' m hm)
  | forkYes run holds more ih₁ ih₂ =>
      intro known hk hN' m hm
      rcases Shape.mem_nodesAll_cover hm with ⟨k, hmade, rfl⟩ | hm
      · exact ⟨_, List.mem_append_left _ List.mem_cons_self, _, hk, .forkYes hmade run holds more⟩
      · rw [Cover.nodesAll_append] at hm
        rcases List.mem_append.mp hm with hm | hm
        · have hk' := by simpa only [List.append_assoc] using hk
          exact mono (fun x hx => List.mem_cons_of_mem _ (List.mem_append_left _ hx))
            (ih₁ hk' (fun n hn => hN' n (List.mem_append_left _ hn)) m hm)
        · exact mono
            (fun x hx => List.mem_cons_of_mem _ (List.mem_append_right _ (List.mem_append_left _ hx)))
            (ih₂ (Rule.holds_none _)
              (fun n hn => hN' n (List.mem_append_right _ (List.mem_append_left _ hn))) m hm)
  | forkNo run fails more ih₁ ih₂ =>
      intro known hk hN' m hm
      rcases Shape.mem_nodesAll_cover hm with ⟨k, hmade, rfl⟩ | hm
      · exact ⟨_, List.mem_append_left _ List.mem_cons_self, _, hk, .forkNo hmade run fails more⟩
      · rw [Cover.nodesAll_append] at hm
        rcases List.mem_append.mp hm with hm | hm
        · have hk' := by simpa only [List.append_assoc] using hk
          exact mono (fun x hx => List.mem_cons_of_mem _ (List.mem_append_left _ hx))
            (ih₁ hk' (fun n hn => hN' n (List.mem_append_left _ hn)) m hm)
        · exact mono
            (fun x hx => List.mem_cons_of_mem _ (List.mem_append_right _ (List.mem_append_right _ hx)))
            (ih₂ (Rule.holds_none _)
              (fun n hn => hN' n (List.mem_append_right _ (List.mem_append_right _ hn))) m hm)
  | @call n us vs cs run ih =>
      intro known _ hN' m hm
      have hn := hN' n (List.mem_singleton_self n)
      obtain ⟨site, hsite, hmade⟩ := ih (Rule.holds_none _) (hN n hn) m hm
      have hmem : site ∈ Nonterminal.sites N := by
        rcases List.mem_append.mp hsite with hsite | hsite
        · exact List.mem_flatMap.mpr ⟨n, hn, hsite⟩
        · exact hsite
      exact ⟨site, List.mem_append_right _ hmem, hmade⟩
  | attemptFirst run holds ih =>
      intro known hk hN' m hm
      exact mono (fun x hx => List.mem_append_left _ hx)
        (ih hk (fun n hn => hN' n (List.mem_append_left _ hn)) m hm)
  | attemptOther run ih =>
      intro known hk hN' m hm
      exact mono (fun x hx => List.mem_append_right _ hx)
        (ih hk (fun n hn => hN' n (List.mem_append_right _ hn)) m hm)

/-- The lexemes of a node stand in a row among those of the run. -/
theorem own_infix {r : Rule} {us vs : List Lexeme} {cs : List Cover} (h : Run r us vs cs) :
    ∀ m ∈ Cover.nodesAll cs, m.own <:+: us := by
  induction h with
  | empty | token | demand | done => intro m hm; exact absurd hm List.not_mem_nil
  | seq _ _ ih₁ ih₂ | step _ _ _ ih₁ ih₂ | sepBy _ _ ih₁ ih₂ =>
      intro m hm
      rw [Cover.nodesAll_append] at hm
      rcases List.mem_append.mp hm with hm | hm
      · exact (ih₁ m hm).trans (List.prefix_append _ _).isInfix
      · exact (ih₂ m hm).trans (List.suffix_append _ _).isInfix
  | yes _ _ ih | no _ _ ih | call _ ih | attemptFirst _ _ ih | attemptOther _ ih => exact ih
  | wrap _ ih =>
      intro m hm
      rcases Shape.mem_nodesAll_cover hm with ⟨k, -, rfl⟩ | hm
      · exact List.infix_rfl
      · exact ih m hm
  | forkYes _ _ _ ih₁ ih₂ | forkNo _ _ _ ih₁ ih₂ =>
      intro m hm
      rcases Shape.mem_nodesAll_cover hm with ⟨k, -, rfl⟩ | hm
      · exact List.infix_rfl
      · rw [Cover.nodesAll_append] at hm
        rcases List.mem_append.mp hm with hm | hm
        · exact (ih₁ m hm).trans (List.prefix_append _ _).isInfix
        · exact (ih₂ m hm).trans (List.suffix_append _ _).isInfix

end Run

end BindCheck

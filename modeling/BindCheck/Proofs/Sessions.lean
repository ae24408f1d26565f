import BindCheck.Proofs.Progress
import BindCheck.Proofs.Unbounded

/-!
# BindCheck.Proofs.Sessions

**A session is safe whatever is asked of it.** A request parses with a rule, which parses with the
rules that it is made of. Each time that a rule is used somewhere in the text is an `Activation`,
and `Activation.Starts` says which ones an activation starts, those of abandoned attempts among
them.

* Every request ends (`Activation.ends`): no activation is started on and on, as no rule is
  used again, in a repetition or inside itself, before a lexeme has been taken
  (`Activation.consumes`).
* Every activation of a request has a rest of the text ahead, with its end (`Starts.placed`).
  So there is always a lexeme to look at, the end is never taken, and each node is put over
  lexemes of this rest, at least one.
-/

namespace BindCheck

theorem Nonterminal.mem_all (n : Nonterminal) : n ∈ all := by
  cases n <;> decide

/-! ### Activations -/

/-- The use of a rule on the lexemes that are ahead. -/
structure Activation where
  rule : Rule
  ahead : List Lexeme

namespace Activation

/-- That the use of a rule starts that of another one: a rule that it is made of, or itself for
another round. -/
inductive Starts : Activation → Activation → Prop where
  | seqFirst {r s : Rule} {ls : List Lexeme} : Starts ⟨.seq r s, ls⟩ ⟨r, ls⟩
  | seqSecond {r s : Rule} {ls us rest : List Lexeme} {ns : List Tree}
      (first : r.parse ls = .done ns us rest) : Starts ⟨.seq r s, ls⟩ ⟨s, rest⟩
  | yes {l : Lookahead} {y n : Rule} {ls : List Lexeme} (holds : l.holds ls = true) :
      Starts ⟨.branch l y n, ls⟩ ⟨y, ls⟩
  | no {l : Lookahead} {y n : Rule} {ls : List Lexeme} (fails : l.holds ls = false) :
      Starts ⟨.branch l y n, ls⟩ ⟨n, ls⟩
  | round {l : Lookahead} {b : Rule} {ls : List Lexeme} (holds : l.holds ls = true) :
      Starts ⟨.many l b, ls⟩ ⟨b, ls⟩
  | again {l : Lookahead} {b : Rule} {ls us rest : List Lexeme} {ns : List Tree}
      (holds : l.holds ls = true) (first : b.parse ls = .done ns us rest) :
      Starts ⟨.many l b, ls⟩ ⟨.many l b, rest⟩
  | item {item : Rule} {t : Terminal} {ls : List Lexeme} : Starts ⟨.sepBy item t, ls⟩ ⟨item, ls⟩
  | items {item : Rule} {t : Terminal} {ls us rest : List Lexeme} {ns : List Tree}
      (first : item.parse ls = .done ns us rest) :
      Starts ⟨.sepBy item t, ls⟩ ⟨.separated item t, rest⟩
  | body {s : Shape} {b : Rule} {ls : List Lexeme} : Starts ⟨.wrap s b, ls⟩ ⟨b, ls⟩
  | forkFirst {first y n : Rule} {l : Lookahead} {ys ns : Shape} {ls : List Lexeme} :
      Starts ⟨.fork first l ys y ns n, ls⟩ ⟨first, ls⟩
  | forkYes {first y n : Rule} {l : Lookahead} {ys ns : Shape} {ls us rest : List Lexeme}
      {cs : List Tree} (done : first.parse ls = .done cs us rest) (holds : l.holds rest = true) :
      Starts ⟨.fork first l ys y ns n, ls⟩ ⟨y, rest⟩
  | forkNo {first y n : Rule} {l : Lookahead} {ys ns : Shape} {ls us rest : List Lexeme}
      {cs : List Tree} (done : first.parse ls = .done cs us rest) (fails : l.holds rest = false) :
      Starts ⟨.fork first l ys y ns n, ls⟩ ⟨n, rest⟩
  | call {n : Nonterminal} {ls : List Lexeme} : Starts ⟨.call n, ls⟩ ⟨Grammar.production n, ls⟩
  | attempted {first other : Rule} {l : Lookahead} {ls : List Lexeme} :
      Starts ⟨.attempt first l other, ls⟩ ⟨first, ls⟩
  | failed {first other : Rule} {l : Lookahead} {ls rest : List Lexeme} {e : Expectation}
      (failure : first.parse ls = .failed e rest) : Starts ⟨.attempt first l other, ls⟩ ⟨other, ls⟩
  | unfit {first other : Rule} {l : Lookahead} {ls us rest : List Lexeme} {cs : List Tree}
      (done : first.parse ls = .done cs us rest) (fails : l.holds rest = false) :
      Starts ⟨.attempt first l other, ls⟩ ⟨other, ls⟩

/-- The activations that are started are all that a step without bounds depends on. -/
theorem parseBy_congr {go : Rule → List Lexeme → Outcome} {a : Activation}
    (h : ∀ b, Starts a b → go b.rule b.ahead = b.rule.parse b.ahead) :
    a.rule.parseBy go a.ahead = a.rule.parseBy Rule.parse a.ahead := by
  obtain ⟨r, ls⟩ := a
  cases r with
  | empty | token | demand => rfl
  | seq r s => exact Outcome.andThen_congr (h _ .seqFirst) fun _ _ _ hd => h _ (.seqSecond hd)
  | branch l y n =>
      simp only [Rule.parseBy]
      split
      case isTrue hl => exact h _ (.yes hl)
      case isFalse hl => exact h _ (.no (Bool.eq_false_iff.mpr hl))
  | many l b =>
      simp only [Rule.parseBy]
      split
      case isTrue hl =>
        exact Outcome.andThen_congr (h _ (.round hl)) fun _ _ _ hd => h _ (.again hl hd)
      case isFalse => rfl
  | sepBy item t => exact Outcome.andThen_congr (h _ .item) fun _ _ _ hd => h _ (.items hd)
  | wrap s b => exact congrArg (·.shaped s) (h _ .body)
  | fork first l ys y ns n =>
      simp only [Rule.parseBy, h _ .forkFirst]
      cases hd : first.parse ls with
      | failed e rest => rfl
      | done cs us rest =>
          cases hl : l.holds rest with
          | true => simp [Outcome.andThen, h _ (.forkYes hd hl), hl]
          | false => simp [Outcome.andThen, h _ (.forkNo hd hl), hl]
  | call n => exact h _ .call
  | attempt first l other =>
      simp only [Rule.parseBy, h _ .attempted]
      cases hd : first.parse ls with
      | failed e rest => exact h _ (.failed hd)
      | done cs us rest =>
          cases hl : l.holds rest with
          | true => simp [hl]
          | false => simp [hl, h _ (.unfit hd hl)]

/-! ### Every activation ends -/

/-- That no activations are started on and on below an activation. -/
def Ends (a : Activation) : Prop := Acc (fun b a => Starts a b) a

/-- That whatever has fewer lexemes ahead than these ends. -/
def EndsBehind (ls : List Lexeme) : Prop :=
  ∀ (r : Rule) (rest : List Lexeme), r.progresses = true → rest.length < ls.length →
    Ends ⟨r, rest⟩

/-- That a rule ends on some lexemes, if the rules end there that it calls before it has taken
a lexeme. -/
def EndsOn (ls : List Lexeme) (r : Rule) : Prop :=
  ∀ known : Option Lookahead, (∀ l ∈ known, l.holds ls = true) →
    (r.callsFirst known = true → ∀ n, Ends ⟨.call n, ls⟩) → Ends ⟨r, ls⟩

namespace EndsOn

variable {ls : List Lexeme} {r s : Rule}

/-- A rule ends behind another one: on the same lexemes, or on fewer. -/
theorem behind (hless : EndsBehind ls) (hr : r.progresses = true) (hs : s.progresses = true)
    (hends : EndsOn ls s) {known : Option Lookahead} (hk : ∀ l ∈ known, l.holds ls = true)
    (hcalls : r.takes known = false → s.callsFirst known = true → ∀ n, Ends ⟨.call n, ls⟩)
    {us rest : List Lexeme} {ns : List Tree} (h : r.parse ls = .done ns us rest) :
    Ends ⟨s, rest⟩ := by
  obtain ⟨rfl, cs, -, run⟩ := Run.of_parse hr h
  cases us with
  | nil =>
      exact hends known hk (hcalls (run.takes_eq_false hk))
  | cons u us =>
      have hlength : (us ++ rest).length = us.length + rest.length := List.length_append
      exact hless s rest hs (by rw [List.cons_append, List.length_cons]; omega)

theorem seq (hless : EndsBehind ls) (hprog : (Rule.seq r s).progresses = true)
    (hr : EndsOn ls r) (hs : EndsOn ls s) : EndsOn ls (.seq r s) := by
  intro known hk hcalls
  obtain ⟨hpr, hps⟩ := Bool.and_eq_true_iff.mp hprog
  refine Acc.intro _ fun b hb => ?_
  cases hb with
  | seqFirst => exact hr known hk fun hc => hcalls (by simp [Rule.callsFirst, hc])
  | seqSecond h =>
      exact hs.behind hless hpr hps hk (fun ht hc => hcalls (by simp [Rule.callsFirst, ht, hc])) h

theorem branch {l : Lookahead} {y n : Rule} (hy : EndsOn ls y) (hn : EndsOn ls n) :
    EndsOn ls (.branch l y n) := by
  intro known hk hcalls
  refine Acc.intro _ fun b hb => ?_
  cases hb with
  | yes hl => exact hy (some l) (Rule.holds_some hl) fun hc => hcalls (by simp [Rule.callsFirst, hc])
  | no hl => exact hn known hk fun hc => hcalls (by simp [Rule.callsFirst, hc])

theorem many (hless : EndsBehind ls) {l : Lookahead} {b : Rule}
    (hprog : (Rule.many l b).progresses = true) (hb : EndsOn ls b) : EndsOn ls (.many l b) := by
  intro known hk hcalls
  have hp := hprog
  simp only [Rule.progresses, Bool.and_eq_true] at hp
  obtain ⟨⟨ht, -⟩, hbody⟩ := hp
  refine Acc.intro _ fun a ha => ?_
  cases ha with
  | round hl => exact hb (some l) (Rule.holds_some hl) hcalls
  | again hl h =>
      obtain ⟨rfl, cs, -, run⟩ := Run.of_parse hbody h
      have hpos := List.length_pos_iff.mpr (run.taken_ne_nil (Rule.holds_some hl) ht)
      exact hless _ _ hprog (by rw [List.length_append]; omega)

theorem token (t : Terminal) (e : Expectation) : EndsOn ls (.token t e) :=
  fun _ _ _ => Acc.intro _ fun _ hb => nomatch hb

theorem sepBy (hless : EndsBehind ls) {t : Terminal} (hprog : r.progresses = true)
    (hr : EndsOn ls r) : EndsOn ls (.sepBy r t) := by
  intro known hk hcalls
  have hstep : (Rule.seq (.token t (.terminal t)) r).progresses = true := hprog
  have hmore := many hless (Rule.progresses_separated hprog t) (seq hless hstep (token t _) hr)
  refine Acc.intro _ fun b hb => ?_
  cases hb with
  | item => exact hr known hk hcalls
  | items h =>
      exact hmore.behind hless hprog (Rule.progresses_separated hprog t) hk
        (fun _ hc => by rw [Rule.callsFirst_separated] at hc; exact Bool.noConfusion hc) h

theorem wrap {sh : Shape} (hr : EndsOn ls r) : EndsOn ls (.wrap sh r) := by
  intro known hk hcalls
  refine Acc.intro _ fun b hb => ?_
  cases hb with
  | body => exact hr known hk hcalls

theorem fork (hless : EndsBehind ls) {l : Lookahead} {ys ns : Shape} {y n : Rule}
    (hprog : (Rule.fork r l ys y ns n).progresses = true) (hr : EndsOn ls r) (hy : EndsOn ls y)
    (hn : EndsOn ls n) : EndsOn ls (.fork r l ys y ns n) := by
  intro known hk hcalls
  simp only [Rule.progresses, Bool.and_eq_true] at hprog
  obtain ⟨⟨hpr, hpy⟩, hpn⟩ := hprog
  refine Acc.intro _ fun b hb => ?_
  cases hb with
  | forkFirst => exact hr known hk fun hc => hcalls (by simp [Rule.callsFirst, hc])
  | forkYes h =>
      exact hy.behind hless hpr hpy hk (fun ht hc => hcalls (by simp [Rule.callsFirst, ht, hc])) h
  | forkNo h =>
      exact hn.behind hless hpr hpn hk (fun ht hc => hcalls (by simp [Rule.callsFirst, ht, hc])) h

theorem attempt {l : Lookahead} (hr : EndsOn ls r) (hs : EndsOn ls s) :
    EndsOn ls (.attempt r l s) := by
  intro known hk hcalls
  have hother : Ends ⟨s, ls⟩ := hs known hk fun hc => hcalls (by simp [Rule.callsFirst, hc])
  refine Acc.intro _ fun b hb => ?_
  cases hb with
  | attempted => exact hr known hk fun hc => hcalls (by simp [Rule.callsFirst, hc])
  | failed => exact hother
  | unfit => exact hother

/-- Every rule ends, if whatever has fewer lexemes ahead does. -/
theorem of_behind (hless : EndsBehind ls) (hr : r.progresses = true) : EndsOn ls r := by
  induction r with
  | empty | demand => exact fun _ _ _ => Acc.intro _ fun _ hb => nomatch hb
  | token t e => exact token t e
  | call n => exact fun known _ hcalls => hcalls rfl n
  | seq r s ihr ihs =>
      have hp := hr
      obtain ⟨hpr, hps⟩ := Bool.and_eq_true_iff.mp hp
      exact seq hless hr (ihr hpr) (ihs hps)
  | branch l y n ihy ihn =>
      obtain ⟨hy, hn⟩ := Bool.and_eq_true_iff.mp hr
      exact branch (ihy hy) (ihn hn)
  | many l b ih => exact many hless hr (ih (Bool.and_eq_true_iff.mp hr).2)
  | sepBy item t ih =>
      have hitem : item.progresses = true := hr
      exact sepBy hless hitem (ih hitem)
  | wrap sh b ih => exact wrap (ih hr)
  | fork r l ys y ns n ihr ihy ihn =>
      have hp := hr
      simp only [Rule.progresses, Bool.and_eq_true] at hp
      exact fork hless hr (ihr hp.1.1) (ihy hp.1.2) (ihn hp.2)
  | attempt r l s ihr ihs =>
      obtain ⟨hr, hs⟩ := Bool.and_eq_true_iff.mp hr
      exact attempt (ihr hr) (ihs hs)

end EndsOn

/-- **The use of a rule ends.** -/
theorem ends {r : Rule} (hr : r.progresses = true) (ls : List Lexeme) : Ends ⟨r, ls⟩ := by
  induction hlen : ls.length using Nat.strong_induction_on generalizing r ls with
  | _ n ih =>
      subst hlen
      have hless : EndsBehind ls := fun s rest hs hlt => ih rest.length hlt hs rest rfl
      -- a production calls no rule before it has taken a lexeme
      have hcall : ∀ n, Ends ⟨.call n, ls⟩ := by
        intro n
        refine Acc.intro _ fun b hb => ?_
        cases hb with
        | call =>
            exact EndsOn.of_behind hless (Grammar.progresses_production n) none (Rule.holds_none ls)
              fun hc => by rw [Grammar.callsFirst_production n] at hc; exact Bool.noConfusion hc
      exact EndsOn.of_behind hless hr none (Rule.holds_none ls) fun _ => hcall

/-- What ends is not started by itself. -/
theorem Ends.not_transGen {a : Activation} (h : Ends a) : ¬Relation.TransGen Starts a a := by
  have hacc : Acc (Relation.TransGen fun b a => Starts a b) a := h.transGen
  intro hcycle
  have hswap : Relation.TransGen (fun b a => Starts a b) a a := Relation.transGen_swap.mp hcycle
  clear hcycle h
  induction hacc with
  | intro a _ ih => exact ih a hswap hswap

/-! ### What is ahead of an activation -/

/-- That a rule of the grammar is used on a rest of a text. What is said of the rule is read off
its text. -/
structure Placed (a : Activation) : Prop where
  progresses : a.rule.progresses = true
  sparesEnd : a.rule.sparesEnd = true
  sites : ∃ known : Option Lookahead, (∀ l ∈ known, l.holds a.ahead = true) ∧
    ∀ site ∈ a.rule.sites known, site ∈ Grammar.sites
  closed : Lexeme.Closed a.ahead

/-- The rules that an activation starts progress, as its own rule does. -/
theorem Starts.progresses {a b : Activation} (h : Starts a b) (ha : a.rule.progresses = true) :
    b.rule.progresses = true := by
  cases h with
  | round => exact (Bool.and_eq_true_iff.mp ha).2
  | again => exact ha
  | items => exact Rule.progresses_separated ha _
  | call => exact Grammar.progresses_production _
  | _ => simp_all [Rule.progresses]

/-- Nor do they take the end of a text. -/
theorem Starts.sparesEnd {a b : Activation} (h : Starts a b) (ha : a.rule.sparesEnd = true) :
    b.rule.sparesEnd = true := by
  cases h with
  | again => exact ha
  | call => exact Grammar.sparesEnd_production _
  | _ => simp_all [Rule.sparesEnd, Rule.separated]

/-- What is ahead of the activations that an activation starts is a rest of what is ahead of
it, which it leaves the end of the text to. -/
theorem Starts.leaves {a b : Activation} (h : Starts a b) (ha : Placed a) :
    b.ahead <:+ a.ahead ∧ Lexeme.Closed b.ahead := by
  have hsame : a.ahead <:+ a.ahead ∧ Lexeme.Closed a.ahead := ⟨List.suffix_rfl, ha.closed⟩
  -- behind a success
  have hbehind : ∀ {r : Rule} {us rest : List Lexeme} {ns : List Tree}, r.sparesEnd = true →
      r.parse a.ahead = .done ns us rest → rest <:+ a.ahead ∧ Lexeme.Closed rest := by
    intro r us rest ns hr hdone
    have hleaves := Rule.parse_leaves hr ha.closed
    rwa [hdone] at hleaves
  have hends := ha.sparesEnd
  cases h with
  | seqFirst | yes | no | round | item | body | forkFirst | call | attempted | failed | unfit =>
      exact hsame
  | seqSecond hdone => exact hbehind (Bool.and_eq_true_iff.mp hends).1 hdone
  | @again l b _ _ _ _ _ hdone =>
      have hb : b.sparesEnd = true := hends
      exact hbehind hb hdone
  | items hdone => exact hbehind (Bool.and_eq_true_iff.mp hends).1 hdone
  | forkYes hdone | forkNo hdone =>
      simp only [Rule.sparesEnd, Bool.and_eq_true] at hends
      exact hbehind hends.1.1 hdone

/-- The sites of the rules that an activation starts are those of its own rule, or of the rule that
it calls. -/
theorem Starts.sites {a b : Activation} (h : Starts a b) (ha : Placed a) :
    ∃ known : Option Lookahead, (∀ l ∈ known, l.holds b.ahead = true) ∧
      ∀ site ∈ b.rule.sites known, site ∈ Grammar.sites := by
  obtain ⟨known, hk, hsites⟩ := ha.sites
  have hprog := ha.progresses
  cases h with
  | seqFirst => exact ⟨known, hk, fun x hx => hsites x (List.mem_append_left _ hx)⟩
  | @seqSecond r s _ _ _ _ hdone =>
      obtain ⟨rfl, cs, -, run⟩ := Run.of_parse (Bool.and_eq_true_iff.mp hprog).1 hdone
      exact ⟨r.knownBehind known, run.holds_knownBehind hk,
        fun x hx => hsites x (List.mem_append_right _ hx)⟩
  | @yes l _ _ _ hl =>
      exact ⟨some l, Rule.holds_some hl, fun x hx => hsites x (List.mem_append_left _ hx)⟩
  | no => exact ⟨known, hk, fun x hx => hsites x (List.mem_append_right _ hx)⟩
  | @round l _ _ hl => exact ⟨some l, Rule.holds_some hl, hsites⟩
  | again => exact ⟨none, Rule.holds_none _, hsites⟩
  | item => exact ⟨none, Rule.holds_none _, hsites⟩
  | items => exact ⟨none, Rule.holds_none _, hsites⟩
  | body => exact ⟨known, hk, fun x hx => hsites x (List.mem_cons_of_mem _ hx)⟩
  | forkFirst =>
      exact ⟨known, hk, fun x hx => hsites x (List.mem_cons_of_mem _ (List.mem_append_left _ hx))⟩
  | forkYes =>
      refine ⟨none, Rule.holds_none _, fun x hx => hsites x (List.mem_cons_of_mem _ ?_)⟩
      exact List.mem_append_right _ (List.mem_append_left _ hx)
  | forkNo =>
      refine ⟨none, Rule.holds_none _, fun x hx => hsites x (List.mem_cons_of_mem _ ?_)⟩
      exact List.mem_append_right _ (List.mem_append_right _ hx)
  | @call n =>
      refine ⟨none, Rule.holds_none _, fun x hx => List.mem_append_right _ ?_⟩
      exact List.mem_flatMap_of_mem n.mem_all hx
  | attempted => exact ⟨known, hk, fun x hx => hsites x (List.mem_append_left _ hx)⟩
  | failed | unfit => exact ⟨known, hk, fun x hx => hsites x (List.mem_append_right _ hx)⟩

/-- **An activation starts activations of rules of the grammar on rests of what is ahead.** -/
theorem Starts.placed {a b : Activation} (h : Starts a b) (ha : Placed a) : Placed b where
  progresses := h.progresses ha.progresses
  sparesEnd := h.sparesEnd ha.sparesEnd
  sites := h.sites ha
  closed := (h.leaves ha).2

/-- So do the activations below it. -/
theorem Placed.of_reflTransGen {a b : Activation} (ha : Placed a)
    (h : Relation.ReflTransGen Starts a b) : Placed b ∧ b.ahead <:+ a.ahead := by
  induction h with
  | refl => exact ⟨ha, List.suffix_rfl⟩
  | tail _ hstep ih => exact ⟨hstep.placed ih.1, (hstep.leaves ih.1).1.trans ih.2⟩

/-- **No rule is used again below itself before a lexeme has been taken.** -/
theorem Placed.consumes {a : Activation} (ha : Placed a) {ls : List Lexeme}
    (h : Relation.TransGen Starts a ⟨a.rule, ls⟩) : ls.length < a.ahead.length := by
  obtain ⟨-, hsuffix⟩ := ha.of_reflTransGen h.to_reflTransGen
  refine lt_of_le_of_ne hsuffix.length_le fun heq => ?_
  obtain rfl := hsuffix.eq_of_length heq
  exact (ends ha.progresses a.ahead).not_transGen h

/-! ### The nodes that are built -/

end Activation

/-- The kind of the node that a shape puts over so many nodes, if it makes one. -/
def Shape.kindOf (s : Shape) (n : Nat) : Option NodeKind :=
  match s with
  | bare => none
  | node k => some k
  | ifMany k => if 1 < n then some k else none

theorem Shape.kindOver_eq (s : Shape) (cs : List Cover) : s.kindOver cs = s.kindOf cs.length := by
  cases s <;> rfl

namespace Activation

/-- That the rule of an activation itself puts a node over lexemes that it has taken. -/
inductive Builds : Activation → List Lexeme → List Lexeme → Prop where
  | wrap {s : Shape} {b : Rule} {k : NodeKind} {ls us rest : List Lexeme} {ns : List Tree}
      (done : b.parse ls = .done ns us rest) (made : s.kindOf ns.length = some k) :
      Builds ⟨.wrap s b, ls⟩ us rest
  | forkYes {first y n : Rule} {l : Lookahead} {ys ns : Shape} {k : NodeKind}
      {ls us rest us' rest' : List Lexeme} {cs cs' : List Tree}
      (done : first.parse ls = .done cs us rest) (holds : l.holds rest = true)
      (more : y.parse rest = .done cs' us' rest') (made : ys.kindOf (cs ++ cs').length = some k) :
      Builds ⟨.fork first l ys y ns n, ls⟩ (us ++ us') rest'
  | forkNo {first y n : Rule} {l : Lookahead} {ys ns : Shape} {k : NodeKind}
      {ls us rest us' rest' : List Lexeme} {cs cs' : List Tree}
      (done : first.parse ls = .done cs us rest) (fails : l.holds rest = false)
      (more : n.parse rest = .done cs' us' rest') (made : ns.kindOf (cs ++ cs').length = some k) :
      Builds ⟨.fork first l ys y ns n, ls⟩ (us ++ us') rest'

/-- What is built is a node of a run, over lexemes that were ahead. -/
theorem Builds.makes {a : Activation} {us rest : List Lexeme} (h : Builds a us rest)
    (ha : a.rule.progresses = true) :
    a.ahead = us ++ rest ∧ ∃ m : Cover, m.own = us ∧ Makes a.rule rest m := by
  cases h with
  | @wrap s b _ _ _ _ _ hdone made =>
      have hb : b.progresses = true := ha
      obtain ⟨rfl, cs, rfl, run⟩ := Run.of_parse hb hdone
      rw [List.length_map, ← Shape.kindOver_eq] at made
      exact ⟨rfl, _, rfl, .wrap made run⟩
  | forkYes hdone hl hmore made =>
      simp only [Rule.progresses, Bool.and_eq_true] at ha
      obtain ⟨rfl, cs, rfl, run⟩ := Run.of_parse ha.1.1 hdone
      obtain ⟨rfl, cs', rfl, run'⟩ := Run.of_parse ha.1.2 hmore
      rw [← List.map_append, List.length_map, ← Shape.kindOver_eq] at made
      exact ⟨(List.append_assoc _ _ _).symm, _, rfl, .forkYes made run hl run'⟩
  | forkNo hdone hl hmore made =>
      simp only [Rule.progresses, Bool.and_eq_true] at ha
      obtain ⟨rfl, cs, rfl, run⟩ := Run.of_parse ha.1.1 hdone
      obtain ⟨rfl, cs', rfl, run'⟩ := Run.of_parse ha.2 hmore
      rw [← List.map_append, List.length_map, ← Shape.kindOver_eq] at made
      exact ⟨(List.append_assoc _ _ _).symm, _, rfl, .forkNo made run hl run'⟩

/-- The rule that builds a node is the first of its sites. -/
theorem mem_sites_of_makes {r : Rule} {vs : List Lexeme} {m : Cover} (h : Makes r vs m)
    (known : Option Lookahead) : ⟨known, r⟩ ∈ r.sites known := by
  cases h <;> exact List.mem_cons_self

/-- What is safe about an activation, somewhere below a request with `ls` ahead. -/
structure Safe (ls : List Lexeme) (a : Activation) : Prop where
  /-- A rest is ahead, with the end of the text. -/
  within : a.ahead <:+ ls
  closed : Lexeme.Closed a.ahead
  /-- The outcome is what a step without bounds makes of the activations that are started; no
  other ones are used for it. It leaves a rest, too. -/
  unbounded : ∀ go : Rule → List Lexeme → Outcome,
    (∀ b, Starts a b → go b.rule b.ahead = b.rule.parse b.ahead) →
      a.rule.parse a.ahead = a.rule.parseBy go a.ahead
  leaves : (a.rule.parse a.ahead).Leaves a.ahead
  /-- The end is not taken. -/
  spares : ∀ t e l rest, a.rule = .token t e → a.ahead = l :: rest → t.accepts l.token = true →
    l.token ≠ .eof
  /-- A node is put over lexemes that were ahead, at least one. -/
  builds : ∀ us rest, Builds a us rest → a.ahead = us ++ rest ∧ us ≠ []
  /-- Nothing is started on and on, and a rule is used again only on fewer lexemes. -/
  ends : a.Ends
  consumes : ∀ rest, Relation.TransGen Starts a ⟨a.rule, rest⟩ → rest.length < a.ahead.length

theorem Placed.safe {ls : List Lexeme} {a : Activation} (ha : Placed a) (hls : a.ahead <:+ ls) :
    a.Safe ls where
  within := hls
  closed := ha.closed
  unbounded := by
    intro go hgo
    rw [parseBy_congr hgo, ← Rule.parse_eq ha.progresses]
  leaves := Rule.parse_leaves ha.sparesEnd ha.closed
  spares := by
    intro t e l rest hrule _ haccepts heof
    have hspares := ha.sparesEnd
    rw [hrule, Rule.sparesEnd, ← heof, haccepts] at hspares
    exact Bool.noConfusion hspares
  builds := by
    intro us rest hbuilds
    obtain ⟨hsplit, m, rfl, hmakes⟩ := hbuilds.makes ha.progresses
    obtain ⟨known, hk, hsites⟩ := ha.sites
    rw [hsplit] at hk
    have hsite : (⟨known, a.rule⟩ : Site) ∈ Grammar.sites := hsites _ (mem_sites_of_makes hmakes known)
    exact ⟨hsplit, Site.Made.own_ne_nil ⟨rest, hk, hmakes⟩ hsite⟩
  ends := Activation.ends ha.progresses a.ahead
  consumes := fun _ h => ha.consumes h

end Activation

/-! ### Requests -/

/-- An error is about the first lexeme that is left. -/
theorem Outcome.result_eq_error {o : Outcome} {e : ParseError} (h : o.result.1 = .error e) :
    ∃ x, e = .unexpected x (o.rest.headD (.ending .start)) := by
  rcases o with ⟨_ | ⟨t, ts⟩, taken, rest⟩ | ⟨x, rest⟩
  · exact ⟨_, (Except.error.inj h).symm⟩
  · cases h
  · exact ⟨_, (Except.error.inj h).symm⟩

/-- What a session can be asked for. -/
inductive Request where
  /-- A whole query. -/
  | query
  /-- One expression. -/
  | expression
  deriving Repr, DecidableEq

namespace Request

/-- The answer to a request, and the session behind it. -/
def ask (q : Request) (s : Session) : Except ParseError Tree × Session :=
  match q with
  | query => s.query
  | expression => s.expression

/-- The rule that a request parses with. -/
def rule : Request → Rule
  | query => Grammar.cypher
  | expression => Grammar.expression

theorem ask_eq (q : Request) (s : Session) : q.ask s = s.request q.rule := by
  cases q <;> rfl

theorem progresses_rule (q : Request) : q.rule.progresses = true := by
  cases q <;> decide

theorem sparesEnd_rule (q : Request) : q.rule.sparesEnd = true := by
  cases q <;> decide

theorem takes_rule (q : Request) : q.rule.Takes := by
  cases q with
  | query => exact Grammar.takes_cypher
  | expression => exact .of_takes (by decide)

theorem placed (q : Request) {ls : List Lexeme} (hls : Lexeme.Closed ls) :
    Activation.Placed ⟨q.rule, ls⟩ where
  progresses := q.progresses_rule
  sparesEnd := q.sparesEnd_rule
  sites := by
    refine ⟨none, Rule.holds_none ls, fun site hsite => ?_⟩
    cases q with
    | query => exact List.mem_append_left _ hsite
    | expression =>
        exact List.mem_append_right _
          (List.mem_flatMap_of_mem (Nonterminal.mem_all .expression) hsite)
  closed := hls

variable (q : Request) {s : Session}

theorem ahead_ask : (q.ask s).2.ahead = (q.rule.parse s.ahead).rest := by
  rw [q.ask_eq, Session.request]
  rcases q.rule.parse s.ahead with ⟨_ | ⟨t, ts⟩, taken, rest⟩ | ⟨e, rest⟩ <;> rfl

/-- A request, whether it is met or not, leaves a rest of what was ahead. -/
theorem leaves (hs : Lexeme.Closed s.ahead) :
    (q.ask s).2.ahead <:+ s.ahead ∧ Lexeme.Closed (q.ask s).2.ahead := by
  rw [q.ahead_ask]
  exact Rule.parse_leaves q.sparesEnd_rule hs

/-- A request that is met goes on in the text. -/
theorem advances {t : Tree} (h : (q.ask s).1 = .ok t) :
    (q.ask s).2.ahead.length < s.ahead.length := by
  rw [q.ahead_ask]
  rw [q.ask_eq] at h
  obtain ⟨ts, taken, rest, hdone⟩ := Session.request_eq_ok.mp h
  obtain ⟨hsplit, cs, -, run⟩ := Run.of_parse q.progresses_rule hdone
  have hpos := List.length_pos_iff.mpr (q.takes_rule _ _ _ run)
  rw [hdone, Outcome.rest, hsplit, List.length_append]
  omega

/-- A request that fails says which lexeme it has stopped at. -/
theorem points (hs : Lexeme.Closed s.ahead) {e : ParseError} (h : (q.ask s).1 = .error e) :
    ∃ x l rest, e = .unexpected x l ∧ (q.ask s).2.ahead = l :: rest := by
  obtain ⟨l, rest, hrest⟩ := List.exists_cons_of_ne_nil (q.leaves hs).2.ne_nil
  rw [q.ask_eq] at h
  obtain ⟨x, rfl⟩ := Outcome.result_eq_error h
  rw [← q.ahead_ask, hrest]
  exact ⟨x, l, rest, rfl, rfl⟩

end Request

/-! ### Sessions -/

/-- What is safe about a request to a session on a text with the lexemes `ls`. -/
structure Request.Safe (ls : List Lexeme) (s : Session) (q : Request) : Prop where
  /-- A rest of the text is ahead of the session, with its end. -/
  within : s.ahead <:+ ls
  closed : Lexeme.Closed s.ahead
  /-- The request leaves such a rest, which is shorter if it is met. If it is not, the error is
  about the first lexeme of the rest. -/
  leaves : (q.ask s).2.ahead <:+ s.ahead ∧ Lexeme.Closed (q.ask s).2.ahead
  advances : ∀ t, (q.ask s).1 = .ok t → (q.ask s).2.ahead.length < s.ahead.length
  points : ∀ e, (q.ask s).1 = .error e →
    ∃ x l rest, e = .unexpected x l ∧ (q.ask s).2.ahead = l :: rest
  /-- Whatever rule is used to meet the request, wherever, is safe there. -/
  activations : ∀ a, Relation.ReflTransGen Activation.Starts ⟨q.rule, s.ahead⟩ a → a.Safe s.ahead

/-- The session behind several requests. -/
def Session.after (s : Session) (qs : List Request) : Session :=
  qs.foldl (fun s q => (q.ask s).2) s

/-- Any requests leave a rest of what is ahead of a session. -/
theorem Session.after_leaves (qs : List Request) {s : Session} (hs : Lexeme.Closed s.ahead) :
    (s.after qs).ahead <:+ s.ahead ∧ Lexeme.Closed (s.after qs).ahead := by
  induction qs generalizing s with
  | nil => exact ⟨List.suffix_rfl, hs⟩
  | cons q qs ih =>
      obtain ⟨hsuffix, hclosed⟩ := q.leaves hs
      obtain ⟨hsuffix', hclosed'⟩ := ih hclosed
      exact ⟨hsuffix'.trans hsuffix, hclosed'⟩

/-- **A session is safe whatever it has been asked before.** On a text that has tokens, behind any
requests in any order, met or not, every request is safe. -/
theorem session_safe {source : String} {ls : List Lexeme} (h : tokenize source = .ok ls)
    (qs : List Request) (q : Request) : q.Safe ls (Session.after ⟨ls⟩ qs) := by
  have hclosed := Lexeme.closed_of_tokenize h
  obtain ⟨hwithin, hrest⟩ := Session.after_leaves qs (s := ⟨ls⟩) hclosed
  refine ⟨hwithin, hrest, q.leaves hrest, fun _ => q.advances, fun _ => q.points hrest, ?_⟩
  intro a ha
  obtain ⟨hplaced, hsuffix⟩ := (q.placed hrest).of_reflTransGen ha
  exact hplaced.safe hsuffix

/-- A query fails at a second name, which an expression then reads; only the end is left. -/
theorem session_safe_of_failure :
    ∃ ls, tokenize "RETURN a b" = .ok ls ∧
      (Session.after ⟨ls⟩ [.query, .expression]).ahead.map Lexeme.token = [.eof] ∧
        Request.query.Safe ls (Session.after ⟨ls⟩ [.query, .expression]) := by
  have hleft : (tokenize "RETURN a b").toOption.map (fun ls =>
      (Session.after ⟨ls⟩ [.query, .expression]).ahead.map Lexeme.token) = some [.eof] := by
    decide +kernel
  cases hls : tokenize "RETURN a b" with
  | error e => rw [hls] at hleft; cases hleft
  | ok ls =>
      rw [hls] at hleft
      exact ⟨ls, rfl, Option.some.inj hleft, session_safe hls [.query, .expression] .query⟩

end BindCheck

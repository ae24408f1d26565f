import BindCheck.Proofs.RuleForms
import BindCheck.Proofs.StandaloneCalls

/-!
# BindCheck.Proofs.Predictive

**Every derivation is a run, where the lookaheads of a rule tell its alternatives apart.** A
rule takes what its form yields if, at each choice, the tokens that may then stand ahead answer
its lookahead: all the tokens that one alternative may begin with make it hold, and all that
the other one may begin with make it fail (`Rule.predicts`). What may stand ahead is computed
to the depth that a lookahead asks for (`Rule.opens`), and goes on behind the rule with what
may stand there (`Ahead`).

This is more than that the parser finds some derivation. The grammar may be ambiguous, and then
the check fails; such a rule is a leaf, and has a proof of its own.
-/

namespace BindCheck

open RegularExpression

/-! ### Runs without what they find -/

/-- With `us ++ vs` ahead a rule may take `us`. -/
abbrev Rule.Accepts (r : Rule) (us vs : List Lexeme) : Prop := ∃ cs, Run r us vs cs

namespace Rule.Accepts

variable {r s t y n : Rule} {l : Lookahead} {us vs : List Lexeme}

theorem seq_iff : (seq r s).Accepts us vs ↔
    ∃ us₁ us₂, us = us₁ ++ us₂ ∧ r.Accepts us₁ (us₂ ++ vs) ∧ s.Accepts us₂ vs := by
  constructor
  · rintro ⟨cs, h⟩
    obtain ⟨us₁, us₂, _, _, rfl, -, first, second⟩ := Run.seq_iff.mp h
    exact ⟨us₁, us₂, rfl, ⟨_, first⟩, _, second⟩
  · rintro ⟨us₁, us₂, rfl, ⟨_, first⟩, _, second⟩
    exact ⟨_, .seq first second⟩

theorem seq {us₁ us₂ : List Lexeme} (first : r.Accepts us₁ (us₂ ++ vs)) (second : s.Accepts us₂ vs) :
    (Rule.seq r s).Accepts (us₁ ++ us₂) vs :=
  seq_iff.mpr ⟨us₁, us₂, rfl, first, second⟩

theorem seq_assoc : (Rule.seq (.seq r s) t).Accepts us vs ↔ (Rule.seq r (.seq s t)).Accepts us vs := by
  constructor
  · intro h
    obtain ⟨_, us₃, rfl, h, third⟩ := seq_iff.mp h
    obtain ⟨us₁, us₂, rfl, first, second⟩ := seq_iff.mp h
    rw [List.append_assoc]
    exact .seq (by rwa [List.append_assoc]) (second.seq third)
  · intro h
    obtain ⟨us₁, _, rfl, first, h⟩ := seq_iff.mp h
    obtain ⟨us₂, us₃, rfl, second, third⟩ := seq_iff.mp h
    rw [← List.append_assoc]
    exact .seq (.seq (by rwa [← List.append_assoc]) second) third

theorem seq_congr {r' s' : Rule} (hr : ∀ us vs, r.Accepts us vs ↔ r'.Accepts us vs)
    (hs : ∀ us vs, s.Accepts us vs ↔ s'.Accepts us vs) :
    (Rule.seq r s).Accepts us vs ↔ (Rule.seq r' s').Accepts us vs := by
  simp only [seq_iff, hr, hs]

theorem empty_iff : Rule.empty.Accepts us vs ↔ us = [] := by
  simp only [Accepts, Run.empty_iff, exists_and_left, exists_eq, and_true]

theorem token_iff {u : Terminal} {e : Expectation} :
    (token u e).Accepts us vs ↔ ∃ v, us = [v] ∧ u.accepts v.token = true := by
  constructor
  · rintro ⟨_, h⟩
    obtain ⟨v, rfl, hv, -⟩ := Run.token_iff.mp h
    exact ⟨v, rfl, hv⟩
  · rintro ⟨v, rfl, hv⟩
    exact ⟨[], .token hv⟩

theorem branch_iff : (branch l y n).Accepts us vs ↔
    (l.holds (us ++ vs) = true ∧ y.Accepts us vs) ∨
      l.holds (us ++ vs) = false ∧ n.Accepts us vs := by
  simp only [Accepts, Run.branch_iff, exists_or, exists_and_left]

theorem wrap_iff {sh : Shape} : (wrap sh r).Accepts us vs ↔ r.Accepts us vs := by
  constructor
  · rintro ⟨cs, h⟩
    obtain ⟨cs, -, h⟩ := Run.wrap_iff.mp h
    exact ⟨cs, h⟩
  · rintro ⟨cs, h⟩
    exact ⟨_, .wrap h⟩

/-- Where shapes do not matter, a fork is a rule and then a choice. -/
theorem fork_iff {ys ns : Shape} :
    (fork r l ys y ns n).Accepts us vs ↔ (Rule.seq r (.branch l y n)).Accepts us vs := by
  constructor
  · rintro ⟨cs, h⟩
    obtain ⟨us₁, us₂, _, _, rfl, first, ⟨holds, more, -⟩ | ⟨fails, more, -⟩⟩ := Run.fork_iff.mp h
    · exact ⟨_, .seq first (.yes holds more)⟩
    · exact ⟨_, .seq first (.no fails more)⟩
  · intro h
    obtain ⟨us₁, us₂, rfl, ⟨_, first⟩, h⟩ := seq_iff.mp h
    rcases branch_iff.mp h with ⟨holds, _, more⟩ | ⟨fails, _, more⟩
    · exact ⟨_, .forkYes first holds more⟩
    · exact ⟨_, .forkNo first fails more⟩

theorem call_iff {nt : Nonterminal} :
    (call nt).Accepts us vs ↔ (Grammar.production nt).Accepts us vs := by
  simp only [Accepts, Run.call_iff]

end Rule.Accepts

/-! ### What may stand ahead -/

/-- What may stand ahead: to each depth, rows of terminals for the next tokens. -/
abbrev Ahead : Type := Nat → List (List Terminal)

namespace Ahead

/-- A token of one of some sets. -/
def tokens (ts : List Terminal) : Ahead
  | 0 => [[]]
  | _ + 1 => ts.map ([·])

/-- One thing or the other. -/
def or (G H : Ahead) : Ahead := fun k => G k ++ H k

/-- A token of a set, and then something. -/
def behind (t : Terminal) (G : Ahead) : Ahead
  | 0 => [[]]
  | 1 => [[t]]
  | k + 2 => (G (k + 1)).map (t :: ·)

/-- That it is true of the lexemes ahead. -/
def Holds (G : Ahead) (ls : List Lexeme) : Prop :=
  ∀ k, ∃ ts ∈ G k, Lookahead.nextIn ts ls = true

variable {G H : Ahead} {t : Terminal} {ts : List Terminal} {u : Lexeme} {ls : List Lexeme}

theorem Holds.tokens (ht : Terminal.anyAccepts ts u) : (tokens ts).Holds (u :: ls) := by
  obtain ⟨t, ht, hu⟩ := ht
  intro k
  cases k with
  | zero => exact ⟨[], List.mem_singleton_self _, rfl⟩
  | succ k =>
      refine ⟨[t], List.mem_map_of_mem ht, ?_⟩
      rw [Lookahead.nextIn, hu]
      cases ls <;> rfl

/-- In front of some token there is some token. -/
theorem Holds.anything {vs : List Lexeme} (h : (Ahead.tokens ts).Holds vs) (us : List Lexeme) :
    (Ahead.tokens [.anything]).Holds (us ++ vs) := by
  cases hls : us ++ vs with
  | nil =>
      obtain ⟨-, rfl⟩ := List.append_eq_nil_iff.mp hls
      obtain ⟨us, hus, hnext⟩ := h 1
      obtain ⟨t, -, rfl⟩ := List.mem_map.mp hus
      exact Bool.noConfusion hnext
  | cons u ls => exact .tokens ⟨_, List.mem_singleton_self _, rfl⟩

theorem Holds.inl (h : G.Holds ls) : (or G H).Holds ls := by
  intro k
  obtain ⟨ts, hts, hnext⟩ := h k
  exact ⟨ts, List.mem_append_left _ hts, hnext⟩

theorem Holds.inr (h : H.Holds ls) : (or G H).Holds ls := by
  intro k
  obtain ⟨ts, hts, hnext⟩ := h k
  exact ⟨ts, List.mem_append_right _ hts, hnext⟩

theorem Holds.behind (hu : t.accepts u.token = true) (h : G.Holds ls) :
    (behind t G).Holds (u :: ls) := by
  intro k
  match k with
  | 0 => exact ⟨[], List.mem_singleton_self _, rfl⟩
  | 1 =>
      refine ⟨[t], List.mem_singleton_self _, ?_⟩
      rw [Lookahead.nextIn, hu]
      cases ls <;> rfl
  | k + 2 =>
      obtain ⟨ts, hts, hnext⟩ := h (k + 1)
      exact ⟨t :: ts, List.mem_map_of_mem hts, by rw [Lookahead.nextIn, hu, hnext]; rfl⟩

end Ahead

namespace Lookahead

/-- Whether each terminal of a lookahead has all tokens of the one that stands in its place. -/
def covers : List Terminal → List Terminal → Bool
  | [], _ => true
  | _ :: _, [] => false
  | t :: ts, u :: us => u.within t && covers ts us

/-- Whether some terminal of a lookahead has no token of the one that stands in its place. -/
def clashes : List Terminal → List Terminal → Bool
  | t :: ts, u :: us => u.disjoint t || clashes ts us
  | _, _ => false

/-- Whether a lookahead holds whatever of this stands ahead. -/
def surely (G : Ahead) : Lookahead → Bool
  | next ts => (G ts.length).all fun us => covers ts us
  | notNext t => (G 1).all fun us => us.head?.any fun u => u.disjoint t
  | dottedCall => false

/-- Whether a lookahead fails whatever of this stands ahead. -/
def surelyNot (G : Ahead) : Lookahead → Bool
  | next ts => (G ts.length).all fun us => clashes ts us
  | notNext t => (G 1).all fun us => us.head?.any fun u => u.within t
  | dottedCall => false

theorem nextIn_of_covers {ts us : List Terminal} {ls : List Lexeme} (h : covers ts us = true)
    (hls : nextIn us ls = true) : nextIn ts ls = true := by
  induction ts generalizing us ls with
  | nil => cases ls <;> rfl
  | cons t ts ih =>
      cases us with
      | nil => exact Bool.noConfusion h
      | cons u us =>
          cases ls with
          | nil => exact Bool.noConfusion hls
          | cons l ls =>
              obtain ⟨hl, hrest⟩ := Bool.and_eq_true_iff.mp hls
              obtain ⟨ht, hts⟩ := Bool.and_eq_true_iff.mp h
              exact Bool.and_eq_true_iff.mpr ⟨Terminal.accepts_of_within ht hl, ih hts hrest⟩

theorem nextIn_of_clashes {ts us : List Terminal} {ls : List Lexeme} (h : clashes ts us = true)
    (hls : nextIn us ls = true) : nextIn ts ls = false := by
  induction ts generalizing us ls with
  | nil => cases us <;> exact Bool.noConfusion h
  | cons t ts ih =>
      cases us with
      | nil => exact Bool.noConfusion h
      | cons u us =>
          cases ls with
          | nil => exact Bool.noConfusion hls
          | cons l ls =>
              rw [nextIn, Bool.and_eq_true] at hls
              rw [nextIn, Bool.and_eq_false_iff]
              rcases Bool.or_eq_true_iff.mp h with h | h
              · exact .inl (Terminal.accepts_eq_false_of_disjoint h hls.1)
              · exact .inr (ih h hls.2)

variable {l : Lookahead} {G : Ahead} {ls : List Lexeme}

theorem holds_of_surely (h : l.surely G = true) (hG : G.Holds ls) : l.holds ls = true := by
  cases l with
  | next ts =>
      obtain ⟨us, hus, hnext⟩ := hG ts.length
      exact nextIn_of_covers (List.all_eq_true.mp h us hus) hnext
  | notNext t =>
      obtain ⟨us, hus, hnext⟩ := hG 1
      have hhead := List.all_eq_true.mp h us hus
      cases us with
      | nil => exact Bool.noConfusion hhead
      | cons u us =>
          cases ls with
          | nil => exact Bool.noConfusion hnext
          | cons l ls =>
              rw [nextIn, Bool.and_eq_true] at hnext
              rw [holds, Terminal.accepts_eq_false_of_disjoint hhead hnext.1]
              rfl
  | dottedCall => exact Bool.noConfusion h

theorem fails_of_surelyNot (h : l.surelyNot G = true) (hG : G.Holds ls) : l.holds ls = false := by
  cases l with
  | next ts =>
      obtain ⟨us, hus, hnext⟩ := hG ts.length
      exact nextIn_of_clashes (List.all_eq_true.mp h us hus) hnext
  | notNext t =>
      obtain ⟨us, hus, hnext⟩ := hG 1
      have hhead := List.all_eq_true.mp h us hus
      cases us with
      | nil => exact Bool.noConfusion hhead
      | cons u us =>
          cases ls with
          | nil => exact Bool.noConfusion hnext
          | cons l ls =>
              rw [nextIn, Bool.and_eq_true] at hnext
              rw [holds, Terminal.accepts_of_within hhead hnext.1]
              rfl
  | dottedCall => exact Bool.noConfusion h

end Lookahead

/-- What a rule that takes a lexeme begins with stands ahead of it. -/
theorem Run.holds_firsts {r : Rule} {us vs : List Lexeme} {cs : List Cover} (h : Run r us vs cs)
    (ht : r.takes none = true) : (Ahead.tokens r.firsts).Holds (us ++ vs) := by
  cases us with
  | nil => exact absurd rfl (h.taken_ne_nil (Rule.holds_none _) ht)
  | cons u us => exact .tokens (h.head_firsts u rfl)

/-! ### Rules whose lookaheads decide -/

/-- What a leaf's form yields, the leaf takes in front of what may stand behind it. -/
def Leaf.Complete (m : Nat) (leaf : Leaf) : Prop :=
  ∀ {known : Option Lookahead} {us vs : List Lexeme}, leaf.rule.Below m known us →
    (Ahead.tokens leaf.follow).Holds vs → Yields leaf.form (us.map Lexeme.token) →
    leaf.rule.Accepts us vs

namespace Rule

variable (leaves : List Leaf)

/-- What may stand behind a round of a repeated rule. -/
def again (b : Rule) (G : Ahead) : Ahead := .or (.tokens b.firsts) G

/-- What may stand ahead where a rule starts, given what may stand behind it. -/
def opens (known : Option Lookahead) (G : Ahead) (r : Rule) : Ahead :=
  if (r.leaf? leaves).isSome then if r.takes none then .tokens r.firsts else r.again G
  else
    match r with
    | empty | demand _ _ | call _ => G
    | token t _ => .behind (narrow known t) G
    | seq r s => r.opens known (s.opens (r.knownBehind known) G)
    | branch l y n => .or (y.opens (some l) G) (n.opens known G)
    | many l b =>
      let round := b.opens (some l) (b.again G)
      if known.any (·.implies l) then round else .or round G
    | sepBy item t => item.opens known (.or (.tokens [t]) G)
    | wrap _ b => b.opens known G
    | fork first l _ y _ n => first.opens known (.or (y.opens (some l) G) (n.opens none G))
    | attempt first _ other => .or (first.opens known G) (other.opens known G)

section

variable {leaves} {known : Option Lookahead} {G : Ahead} {r s y n : Rule} {l : Lookahead}

theorem opens_seq (h : (seq r s).leaf? leaves = none) : (seq r s).opens leaves known G =
    r.opens leaves known (s.opens leaves (r.knownBehind known) G) :=
  if_neg (by rw [h]; exact Bool.false_ne_true)

theorem opens_branch (h : (branch l y n).leaf? leaves = none) :
    (branch l y n).opens leaves known G =
      .or (y.opens leaves (some l) G) (n.opens leaves known G) :=
  if_neg (by rw [h]; exact Bool.false_ne_true)

theorem opens_many (h : (many l r).leaf? leaves = none) : (many l r).opens leaves known G =
    if known.any (·.implies l) then r.opens leaves (some l) (r.again G)
    else .or (r.opens leaves (some l) (r.again G)) G :=
  if_neg (by rw [h]; exact Bool.false_ne_true)

theorem opens_sepBy {t : Terminal} (h : (sepBy r t).leaf? leaves = none) :
    (sepBy r t).opens leaves known G = r.opens leaves known (.or (.tokens [t]) G) :=
  if_neg (by rw [h]; exact Bool.false_ne_true)

theorem opens_fork {ys ns : Shape} (h : (fork r l ys y ns n).leaf? leaves = none) :
    (fork r l ys y ns n).opens leaves known G =
      r.opens leaves known (.or (y.opens leaves (some l) G) (n.opens leaves none G)) :=
  if_neg (by rw [h]; exact Bool.false_ne_true)

theorem opens_attempt (h : (attempt r l s).leaf? leaves = none) :
    (attempt r l s).opens leaves known G =
      .or (r.opens leaves known G) (s.opens leaves known G) :=
  if_neg (by rw [h]; exact Bool.false_ne_true)

end

/-- Whether a rule takes a lexeme by its form too. -/
def isEmptyFree (known : Option Lookahead) (r : Rule) : Bool :=
  !(r.label leaves (r.spelled leaves known)).matchEpsilon

/-- Whether all choices of a rule are decided by what may stand ahead, down to the leaves. -/
def predicts (known : Option Lookahead) (G : Ahead) (r : Rule) : Bool :=
  match r.leaf? leaves with
  | some leaf => (G 1).all fun us => us.head?.any fun u => leaf.follow.any u.within
  | none =>
    match r with
    | empty => true
    | call _ => false
    | token t _ => (narrow known t).within t
    | demand l _ => l.surely G
    | seq r s =>
      let behind := r.knownBehind known
      s.predicts behind G && r.predicts known (s.opens leaves behind G) &&
        (!r.takes known || r.isEmptyFree leaves known)
    | branch l y n =>
      l.surely (y.opens leaves (some l) G) && l.surelyNot (n.opens leaves known G) &&
        y.predicts (some l) G && n.predicts known G
    | many l b =>
      l.surely (b.opens leaves (some l) (b.again G)) && l.surelyNot G &&
        b.predicts (some l) (b.again G)
    | sepBy item t =>
      let behind := Ahead.or (.tokens [t]) G
      (Lookahead.next [t]).surelyNot G && item.predicts known behind && item.predicts none behind
    | wrap _ b => b.predicts known G
    | fork first l _ y _ n =>
      let yes := y.opens leaves (some l) G
      let no := n.opens leaves none G
      first.isEmptyFree leaves known && l.surely yes && l.surelyNot no &&
        first.predicts known (.or yes no) && y.predicts (some l) G && n.predicts none G
    | attempt first l other => l.surely G && first.predicts known G && other.predicts known G

end Rule

/-! ### Lexemes and forms -/

namespace Yields

variable {f g : Form} {us : List Lexeme}

theorem split (h : Yields (f * g) (us.map Lexeme.token)) :
    ∃ us₁ us₂, us = us₁ ++ us₂ ∧ Yields f (us₁.map Lexeme.token) ∧
      Yields g (us₂.map Lexeme.token) := by
  obtain ⟨_, _, hmap, hf, hg⟩ := mul_iff.mp h
  obtain ⟨us₁, us₂, rfl, rfl, rfl⟩ := List.map_eq_append_iff.mp hmap
  exact ⟨us₁, us₂, rfl, hf, hg⟩

theorem eq_nil (h : Yields 1 (us.map Lexeme.token)) : us = [] :=
  List.map_eq_nil_iff.mp (one_iff.mp h)

theorem exists_token {t : Terminal} (h : Yields (.token t) (us.map Lexeme.token)) :
    ∃ u, us = [u] ∧ t.accepts u.token = true := by
  obtain ⟨k, hmap, hk⟩ := token_iff.mp h
  obtain ⟨u, rfl, rfl⟩ := List.map_eq_singleton_iff.mp hmap
  exact ⟨u, rfl, hk⟩

theorem ne_nil (h : Yields f (us.map Lexeme.token)) (hf : f.matchEpsilon = false) : us ≠ [] := by
  rintro rfl
  rw [List.map_nil, nil_iff, hf] at h
  exact Bool.noConfusion h

/-- Induction over the rounds of a repetition, on lexemes. -/
theorem star_rounds {P : List Lexeme → Prop} (nil : P [])
    (cons : ∀ us vs, Yields f (us.map Lexeme.token) → Yields f.star (vs.map Lexeme.token) →
      P vs → P (us ++ vs))
    (h : Yields f.star (us.map Lexeme.token)) : P us := by
  refine star_induction (P := fun ks => ∀ us : List Lexeme, us.map Lexeme.token = ks → P us)
    ?_ ?_ h us rfl
  · intro us hus
    obtain rfl := List.map_eq_nil_iff.mp hus
    exact nil
  · intro ks ks' hf hstar ih us hus
    obtain ⟨us₁, us₂, rfl, rfl, rfl⟩ := List.map_eq_append_iff.mp hus
    exact cons us₁ us₂ hf hstar (ih us₂ rfl)

end Yields

/-! ### Derivations are runs -/

section

variable {leaves : List Leaf} {m : Nat} {known : Option Lookahead} {G : Ahead} {r s : Rule}

/-- That a rule takes what its form yields, in front of what may stand behind it, and what may
stand ahead of it does. -/
def Rule.Finds (leaves : List Leaf) (m : Nat) (known : Option Lookahead) (G : Ahead) (r : Rule)
    (f : Form) : Prop :=
  ∀ us vs, r.Below m known us → G.Holds vs → Yields f (us.map Lexeme.token) →
    r.Accepts us vs ∧ (r.opens leaves known G).Holds (us ++ vs)

namespace Rule.Finds

/-- Behind a round of a repeated rule there is another round, or what is behind all of them. -/
theorem holds_again {us vs : List Lexeme} {cs : List Cover} (run : Run r us vs cs) {b : Rule}
    (hfirsts : r.firsts = b.firsts) (hG : G.Holds vs) : (b.again G).Holds (us ++ vs) := by
  cases us with
  | nil => exact .inr hG
  | cons u us => exact .inl (.tokens (hfirsts ▸ run.head_firsts u rfl))

/-- From what a rule spells to its form from outside. -/
theorem label (hleaves : ∀ leaf ∈ leaves, leaf.Complete m) (hr : r.conforms leaves known = true)
    (hp : r.predicts leaves known G = true)
    (h : r.leaf? leaves = none → r.Finds leaves m known G (r.spelled leaves known)) :
    r.Finds leaves m known G (r.label leaves (r.spelled leaves known)) := by
  intro us vs hbelow hG hyields
  unfold Rule.label at hyields
  cases hleaf : r.leaf? leaves with
  | some leaf =>
      rw [hleaf] at hyields
      obtain ⟨hmem, rfl⟩ := leaf?_eq_some hleaf
      have hfollow : (Ahead.tokens leaf.follow).Holds vs := by
        rw [predicts.eq_def, hleaf] at hp
        obtain ⟨ts, hts, hnext⟩ := hG 1
        have hhead := List.all_eq_true.mp hp ts hts
        cases ts with
        | nil => exact Bool.noConfusion hhead
        | cons t ts =>
            cases vs with
            | nil => exact Bool.noConfusion hnext
            | cons v vs =>
                obtain ⟨t', ht', hwithin⟩ := List.any_eq_true.mp hhead
                refine .tokens ⟨t', ht', Terminal.accepts_of_within hwithin ?_⟩
                exact (Bool.and_eq_true_iff.mp hnext).1
      obtain ⟨cs, run⟩ := hleaves leaf hmem hbelow hfollow hyields
      refine ⟨⟨cs, run⟩, ?_⟩
      rw [opens.eq_def, hleaf, Option.isSome_some, if_pos rfl]
      split
      · next ht => exact run.holds_firsts ht
      · exact holds_again run rfl hG
  | none =>
      refine h hleaf us vs hbelow hG ?_
      rw [hleaf] at hyields
      rw [conforms.eq_def, hleaf, Option.isSome_none, Bool.false_or, Bool.and_eq_true] at hr
      cases hphrase : r.phrase? with
      | none => rwa [hphrase] at hyields
      | some p =>
          rw [hphrase] at hyields
          rw [spellsPhrase, hphrase, Bool.and_eq_true] at hr
          exact (Yields.of_iff.mp hyields).mono hr.1.2

theorem seq (hr : r.Finds leaves m known (s.opens leaves (r.knownBehind known) G)
      (r.label leaves (r.spelled leaves known)))
    (hs : s.Finds leaves m (r.knownBehind known) G
      (s.label leaves (s.spelled leaves (r.knownBehind known))))
    (hcalls : (r.takes known || !s.callsFirst (r.knownBehind known) || s.callsFirst known) = true)
    (hfree : (!r.takes known || r.isEmptyFree leaves known) = true)
    (hleaf : (Rule.seq r s).leaf? leaves = none) :
    (Rule.seq r s).Finds leaves m known G ((Rule.seq r s).spelled leaves known) := by
  intro us vs hbelow hG hyields
  obtain ⟨us₁, us₂, rfl, h₁, h₂⟩ := (Yields.times_iff.mp hyields).split
  have hne : r.takes known = true → us₁ ≠ [] := by
    intro ht
    rw [ht, Bool.not_true, Bool.false_or] at hfree
    exact h₁.ne_nil (Bool.not_eq_true' _ ▸ hfree)
  obtain ⟨⟨cs₂, run₂⟩, hopens₂⟩ := hs us₂ vs (hbelow.second hne hcalls) hG h₂
  obtain ⟨⟨cs₁, run₁⟩, hopens₁⟩ := hr us₁ (us₂ ++ vs) hbelow.first hopens₂ h₁
  refine ⟨⟨_, .seq run₁ run₂⟩, ?_⟩
  rw [opens_seq hleaf, List.append_assoc]
  exact hopens₁

theorem branch {l : Lookahead} {y n : Rule}
    (hy : y.Finds leaves m (some l) G (y.label leaves (y.spelled leaves (some l))))
    (hn : n.Finds leaves m known G (n.label leaves (n.spelled leaves known)))
    (hyes : l.surely (y.opens leaves (some l) G) = true)
    (hno : l.surelyNot (n.opens leaves known G) = true)
    (hleaf : (Rule.branch l y n).leaf? leaves = none) :
    (Rule.branch l y n).Finds leaves m known G ((Rule.branch l y n).spelled leaves known) := by
  intro us vs hbelow hG hyields
  rw [opens_branch hleaf]
  rcases Yields.add_iff.mp hyields with h | h
  · obtain ⟨⟨cs, run⟩, hopens⟩ := hy us vs hbelow.yes hG h
    exact ⟨⟨cs, .yes (Lookahead.holds_of_surely hyes hopens) run⟩, hopens.inl⟩
  · obtain ⟨⟨cs, run⟩, hopens⟩ := hn us vs hbelow.no hG h
    exact ⟨⟨cs, .no (Lookahead.fails_of_surelyNot hno hopens) run⟩, hopens.inr⟩

theorem many {l : Lookahead} {b : Rule}
    (hb : b.Finds leaves m (some l) (b.again G) (b.label leaves (b.spelled leaves (some l))))
    (hyes : l.surely (b.opens leaves (some l) (b.again G)) = true)
    (hno : l.surelyNot G = true) (hleaf : (Rule.many l b).leaf? leaves = none) :
    (Rule.many l b).Finds leaves m known G ((Rule.many l b).spelled leaves known) := by
  intro us vs hbelow hG hyields
  -- a round, in front of all that follows it
  have hround : ∀ us ws : List Lexeme, (Rule.many l b).Below m known (us ++ ws) →
      (b.again G).Holds (ws ++ vs) →
      Yields (b.label leaves (b.spelled leaves (some l))) (us.map Lexeme.token) →
      b.Accepts us (ws ++ vs) ∧ (b.opens leaves (some l) (b.again G)).Holds (us ++ (ws ++ vs)) :=
    fun us ws hbelow hagain h => hb us (ws ++ vs) (hbelow.mono (by simp)) hagain h
  have hstar : ∀ us : List Lexeme, (Rule.many l b).Below m known us →
      Yields (b.label leaves (b.spelled leaves (some l))).star (us.map Lexeme.token) →
      (Rule.many l b).Accepts us vs ∧
        (Ahead.or (b.opens leaves (some l) (b.again G)) G).Holds (us ++ vs) := by
    refine fun us hbelow h => Yields.star_rounds (P := fun us => (Rule.many l b).Below m known us →
      (Rule.many l b).Accepts us vs ∧
        (Ahead.or (b.opens leaves (some l) (b.again G)) G).Holds (us ++ vs)) ?_ ?_ h hbelow
    · exact fun _ => ⟨⟨[], .done (Lookahead.fails_of_surelyNot hno hG)⟩, hG.inr⟩
    · intro us ws h _ ih hbelow
      obtain ⟨⟨cs', more⟩, -⟩ := ih (hbelow.mono (by simp))
      obtain ⟨⟨cs, run⟩, hopens⟩ := hround us ws hbelow (holds_again more rfl hG) h
      refine ⟨⟨_, .step (Lookahead.holds_of_surely hyes hopens) run more⟩, ?_⟩
      rw [List.append_assoc]
      exact hopens.inl
  rw [spelled_many] at hyields
  rw [opens_many hleaf]
  by_cases hk : known.any (·.implies l) = true
  · simp only [hk, if_true] at hyields ⊢
    obtain ⟨us₁, us₂, rfl, h₁, h₂⟩ := (Yields.times_iff.mp hyields).split
    obtain ⟨⟨cs₂, more⟩, -⟩ := hstar us₂ (hbelow.mono (by simp)) h₂
    obtain ⟨⟨cs₁, run⟩, hopens⟩ := hround us₁ us₂ hbelow (holds_again more rfl hG) h₁
    refine ⟨⟨_, .step (Lookahead.holds_of_surely hyes hopens) run more⟩, ?_⟩
    rw [List.append_assoc]
    exact hopens
  · simp only [hk] at hyields ⊢
    exact hstar us hbelow hyields

theorem sepBy {item : Rule} {t : Terminal}
    (hfirst : item.Finds leaves m known (.or (.tokens [t]) G)
      (item.label leaves (item.spelled leaves known)))
    (hrest : item.Finds leaves m none (.or (.tokens [t]) G)
      (item.label leaves (item.spelled leaves none)))
    (hno : (Lookahead.next [t]).surelyNot G = true)
    (hleaf : (Rule.sepBy item t).leaf? leaves = none) :
    (Rule.sepBy item t).Finds leaves m known G ((Rule.sepBy item t).spelled leaves known) := by
  intro us vs hbelow hG hyields
  obtain ⟨us₁, us₂, rfl, h₁, h₂⟩ := (Yields.times_iff.mp hyields).split
  have hstar : us₂.length ≤ m →
      (Rule.many (.next [t]) (.seq (.token t (.terminal t)) item)).Accepts us₂ vs ∧
        (Ahead.or (.tokens [t]) G).Holds (us₂ ++ vs) := by
    refine Yields.star_rounds (P := fun us => us.length ≤ m →
      (Rule.many (.next [t]) (.seq (.token t (.terminal t)) item)).Accepts us vs ∧
        (Ahead.or (.tokens [t]) G).Holds (us ++ vs)) ?_ ?_ h₂
    · exact fun _ => ⟨⟨[], .done (Lookahead.fails_of_surelyNot hno hG)⟩, hG.inr⟩
    · intro us ws h _ ih hlen
      obtain ⟨sep, us', rfl, hsep, hitem⟩ := (Yields.times_iff.mp h).split
      obtain ⟨u, rfl, hu⟩ := hsep.exists_token
      simp only [List.length_append, List.length_singleton] at hlen
      obtain ⟨⟨cs', more⟩, hbehind⟩ := ih (by omega)
      obtain ⟨⟨cs, run⟩, -⟩ := hrest us' (ws ++ vs) (.of_lt (by omega)) hbehind hitem
      have hopens : (Ahead.tokens [t]).Holds (u :: (us' ++ (ws ++ vs))) :=
        .tokens ⟨t, List.mem_singleton_self t, hu⟩
      have holds : (Lookahead.next [t]).holds (u :: (us' ++ (ws ++ vs))) = true := by
        rw [Lookahead.holds, Lookahead.nextIn, hu]
        cases us' ++ (ws ++ vs) <;> rfl
      refine ⟨⟨_, .step ?_ (.seq (.token hu) run) more⟩, ?_⟩
      · simpa using holds
      · simpa using hopens.inl
  have hlen := hbelow.1
  rw [List.length_append] at hlen
  obtain ⟨⟨cs₂, more⟩, hbehind⟩ := hstar (by omega)
  obtain ⟨⟨cs₁, run⟩, hopens⟩ := hfirst us₁ (us₂ ++ vs) (hbelow.mono (by simp)) hbehind h₁
  refine ⟨⟨_, .sepBy run more⟩, ?_⟩
  rw [opens_sepBy hleaf, List.append_assoc]
  exact hopens

theorem fork {l : Lookahead} {ys ns : Shape} {y n : Rule}
    (hr : r.Finds leaves m known (.or (y.opens leaves (some l) G) (n.opens leaves none G))
      (r.label leaves (r.spelled leaves known)))
    (hy : y.Finds leaves m (some l) G (y.label leaves (y.spelled leaves (some l))))
    (hn : n.Finds leaves m none G (n.label leaves (n.spelled leaves none)))
    (hfree : r.isEmptyFree leaves known = true)
    (hyes : l.surely (y.opens leaves (some l) G) = true)
    (hno : l.surelyNot (n.opens leaves none G) = true)
    (hleaf : (Rule.fork r l ys y ns n).leaf? leaves = none) :
    (Rule.fork r l ys y ns n).Finds leaves m known G
      ((Rule.fork r l ys y ns n).spelled leaves known) := by
  intro us vs hbelow hG hyields
  obtain ⟨us₁, us₂, rfl, h₁, h₂⟩ := (Yields.times_iff.mp hyields).split
  have hpos := List.length_pos_iff.mpr (h₁.ne_nil (Bool.not_eq_true' _ ▸ hfree))
  have hlen := hbelow.1
  rw [List.length_append] at hlen
  have hbelow' : r.Below m known us₁ := hbelow.forkFirst.mono (by simp)
  rw [opens_fork hleaf, List.append_assoc]
  rcases Yields.add_iff.mp h₂ with h | h
  · obtain ⟨⟨cs₂, more⟩, hopens⟩ := hy us₂ vs (.of_lt (by omega)) hG h
    obtain ⟨⟨cs₁, run⟩, hopens₁⟩ := hr us₁ (us₂ ++ vs) hbelow' hopens.inl h₁
    exact ⟨⟨_, .forkYes run (Lookahead.holds_of_surely hyes hopens) more⟩, hopens₁⟩
  · obtain ⟨⟨cs₂, more⟩, hopens⟩ := hn us₂ vs (.of_lt (by omega)) hG h
    obtain ⟨⟨cs₁, run⟩, hopens₁⟩ := hr us₁ (us₂ ++ vs) hbelow' hopens.inr h₁
    exact ⟨⟨_, .forkNo run (Lookahead.fails_of_surelyNot hno hopens) more⟩, hopens₁⟩

theorem attempt {l : Lookahead}
    (hr : r.Finds leaves m known G (r.label leaves (r.spelled leaves known)))
    (hs : s.Finds leaves m known G (s.label leaves (s.spelled leaves known)))
    (hyes : l.surely G = true) (hleaf : (Rule.attempt r l s).leaf? leaves = none) :
    (Rule.attempt r l s).Finds leaves m known G ((Rule.attempt r l s).spelled leaves known) := by
  intro us vs hbelow hG hyields
  rw [opens_attempt hleaf]
  rcases Yields.add_iff.mp hyields with h | h
  · obtain ⟨⟨cs, run⟩, hopens⟩ := hr us vs hbelow.attemptFirst hG h
    exact ⟨⟨cs, .attemptFirst run (Lookahead.holds_of_surely hyes hG)⟩, hopens.inl⟩
  · obtain ⟨⟨cs, run⟩, hopens⟩ := hs us vs hbelow.attemptOther hG h
    exact ⟨⟨cs, .attemptOther run⟩, hopens.inr⟩

end Rule.Finds

/-- The parts of a rule that conforms do. -/
theorem Rule.parts_conform {parts : Bool} (hleaf : r.leaf? leaves = none)
    (hr : ((r.leaf? leaves).isSome || r.spellsPhrase leaves known && parts) = true) :
    parts = true := by
  rw [hleaf, Option.isSome_none, Bool.false_or, Bool.and_eq_true] at hr
  exact hr.2

/-- **A rule whose choices are decided takes all that its form yields.** -/
theorem Rule.finds (hleaves : ∀ leaf ∈ leaves, leaf.Complete m)
    (hr : r.conforms leaves known = true) (hp : r.predicts leaves known G = true) :
    r.Finds leaves m known G (r.label leaves (r.spelled leaves known)) := by
  induction r generalizing known G with
  | empty =>
      refine Finds.label hleaves hr hp fun hleaf us vs _ hG hyields => ?_
      obtain rfl := hyields.eq_nil
      rw [opens.eq_def, hleaf]
      exact ⟨⟨[], .empty⟩, hG⟩
  | token t e =>
      refine Finds.label hleaves hr hp fun hleaf us vs _ hG hyields => ?_
      rw [predicts, hleaf] at hp
      obtain ⟨u, rfl, hu⟩ := hyields.exists_token
      rw [opens.eq_def, hleaf]
      exact ⟨⟨[], .token (Terminal.accepts_of_within hp hu)⟩, .behind hu hG⟩
  | demand l e =>
      refine Finds.label hleaves hr hp fun hleaf us vs _ hG hyields => ?_
      rw [predicts, hleaf] at hp
      obtain rfl := hyields.eq_nil
      rw [opens.eq_def, hleaf]
      exact ⟨⟨[], .demand (Lookahead.holds_of_surely hp hG)⟩, hG⟩
  | call n =>
      refine Finds.label hleaves hr hp fun hleaf => ?_
      rw [predicts, hleaf] at hp
      exact Bool.noConfusion hp
  | seq r s ihr ihs =>
      refine Finds.label hleaves hr hp fun hleaf => ?_
      have hparts := parts_conform hleaf (by rwa [conforms] at hr)
      rw [predicts, hleaf] at hp
      simp only [Bool.and_eq_true] at hparts hp
      obtain ⟨⟨hr, hs⟩, hcalls⟩ := hparts
      obtain ⟨⟨hps, hpr⟩, hfree⟩ := hp
      exact .seq (ihr hr hpr) (ihs hs hps) hcalls hfree hleaf
  | branch l y n ihy ihn =>
      refine Finds.label hleaves hr hp fun hleaf => ?_
      have hparts := parts_conform hleaf (by rwa [conforms] at hr)
      rw [predicts, hleaf] at hp
      simp only [Bool.and_eq_true] at hparts hp
      obtain ⟨hy, hn⟩ := hparts
      obtain ⟨⟨⟨hyes, hno⟩, hpy⟩, hpn⟩ := hp
      exact .branch (ihy hy hpy) (ihn hn hpn) hyes hno hleaf
  | many l b ih =>
      refine Finds.label hleaves hr hp fun hleaf => ?_
      have hb := parts_conform hleaf (by rwa [conforms] at hr)
      rw [predicts, hleaf] at hp
      simp only [Bool.and_eq_true] at hp
      obtain ⟨⟨hyes, hno⟩, hpb⟩ := hp
      exact .many (ih hb hpb) hyes hno hleaf
  | sepBy item t ih =>
      refine Finds.label hleaves hr hp fun hleaf => ?_
      have hparts := parts_conform hleaf (by rwa [conforms] at hr)
      rw [predicts, hleaf] at hp
      simp only [Bool.and_eq_true] at hparts hp
      obtain ⟨hfirst, hrest⟩ := hparts
      obtain ⟨⟨hno, hpfirst⟩, hprest⟩ := hp
      exact .sepBy (ih hfirst hpfirst) (ih hrest hprest) hno hleaf
  | wrap sh b ih =>
      refine Finds.label hleaves hr hp fun hleaf us vs hbelow hG hyields => ?_
      have hb := parts_conform hleaf (by rwa [conforms] at hr)
      rw [predicts, hleaf] at hp
      obtain ⟨⟨cs, run⟩, hopens⟩ := ih hb hp us vs hbelow hG hyields
      rw [opens.eq_def, hleaf]
      exact ⟨⟨_, .wrap run⟩, hopens⟩
  | fork first l ys y ns n ihfirst ihy ihn =>
      refine Finds.label hleaves hr hp fun hleaf => ?_
      have hparts := parts_conform hleaf (by rwa [conforms] at hr)
      rw [predicts, hleaf] at hp
      simp only [Bool.and_eq_true] at hparts hp
      obtain ⟨⟨⟨-, hfirst⟩, hy⟩, hn⟩ := hparts
      obtain ⟨⟨⟨⟨⟨hfree, hyes⟩, hno⟩, hpfirst⟩, hpy⟩, hpn⟩ := hp
      exact .fork (ihfirst hfirst hpfirst) (ihy hy hpy) (ihn hn hpn) hfree hyes hno hleaf
  | attempt first l other ihfirst ihother =>
      refine Finds.label hleaves hr hp fun hleaf => ?_
      have hparts := parts_conform hleaf (by rwa [conforms] at hr)
      rw [predicts, hleaf] at hp
      simp only [Bool.and_eq_true] at hparts hp
      obtain ⟨hfirst, hother⟩ := hparts
      obtain ⟨⟨hyes, hpfirst⟩, hpother⟩ := hp
      exact .attempt (ihfirst hfirst hpfirst) (ihother hother hpother) hyes hleaf

end

end BindCheck

import BindCheck.Proofs.Failures
import BindCheck.Proofs.RuleForms

/-!
# BindCheck.Proofs.Completions

**What a rule has taken before it fails is the beginning of what its form yields**
(`Fails.completes`), and the rest can be written down. It is the counterpart for failures of
`Run.yields`: in front of the rule that fails there are runs, which are derivations, and behind
it whatever is still asked for can be met, as no form of the grammar is empty.

That there is no empty form is computed: `Phrase.sampleTo` finds tokens for a category, always
those of the first alternative that has some.
-/

namespace BindCheck

open RegularExpression

/-! ### Tokens that can be written -/

/-- That a token can be written: some text spells it. -/
def Token.Writable (k : Token) : Prop := ∃ text, ∀ p, (Lexeme.mk k text p).Written

theorem Token.Writable.of_spells {k : Token} {w : List Char} (h : Spells k w)
    (hblank : w.head?.any isBlank = false) : k.Writable := by
  have htext : (String.ofList w).toList = w := String.toList_ofList
  have hhead : ∀ c ∈ w.head?, isBlank c = false := by
    intro c hc
    rwa [Option.mem_def.mp hc] at hblank
  exact ⟨String.ofList w, fun p => ⟨by rwa [htext], by rwa [htext]⟩⟩

/-- A reserved word in capitals is a word. -/
theorem Keyword.spelling_spec : ∀ k ∈ all,
    Token.ofWord k.spelling.toList = .keyword k ∧ k.spelling.toList.head?.any startsWord = true ∧
      k.spelling.toList.head?.any isBlank = false ∧
        k.spelling.toList.tail.all continuesWord = true := by
  decide +kernel

theorem Token.writable_keyword (k : Keyword) : (Token.keyword k).Writable := by
  obtain ⟨hword, hhead, hblank, htail⟩ := Keyword.spelling_spec k k.mem_all
  cases hspelling : k.spelling.toList with
  | nil =>
      rw [hspelling] at hhead
      cases hhead
  | cons c r =>
      rw [hspelling] at hword hhead hblank htail
      have hspells : Spells (Token.ofWord (c :: r)) (c :: r) :=
        .word hhead (List.all_eq_true.mp htail)
      rw [hword] at hspells
      exact .of_spells hspells hblank

theorem Symbol.spelling_row (s : Symbol) :
    (s, s.spelling) ∈ spellings ∧ s.spelling.head?.any isBlank = false := by
  cases s <;> decide +kernel

theorem Token.writable_symbol (s : Symbol) : (Token.symbol s).Writable :=
  .of_spells (.symbol s.spelling_row.1) s.spelling_row.2

/-- A name that is in every set of names. -/
def Token.count : Token := .identifier "count"

theorem Token.writable_count : Token.count.Writable := by
  have hword : Token.ofWord ['c', 'o', 'u', 'n', 't'] = Token.count := by decide +kernel
  have hspells : Spells (Token.ofWord ['c', 'o', 'u', 'n', 't']) ['c', 'o', 'u', 'n', 't'] :=
    .word (by decide) (List.all_eq_true.mp (by decide))
  rw [hword] at hspells
  exact .of_spells hspells (by decide)

theorem Token.writable_zero : (Token.integer 0).Writable := by
  have hspells : Spells (.integer 0) ['0'] :=
    .number (by decide) (by decide) (by decide +kernel)
  exact .of_spells hspells (by decide)

/-! ### Samples -/

/-- A token of a set, if one can be written. -/
def Terminal.sample : Terminal → Option Token
  | keyword k => some (.keyword k)
  | keywords ks => ks.head?.map .keyword
  | symbol s => some (.symbol s)
  | symbols ss => ss.head?.map .symbol
  | identifier | countWord | name | parameterName | anything => some .count
  | integer | literal => some (.integer 0)
  | queryEnd => some (.symbol .semicolon)
  | ending => none

theorem Terminal.sample_spec {t : Terminal} {k : Token} (h : t.sample = some k) :
    t.accepts k = true ∧ k.Writable := by
  cases t with
  | keyword k' =>
      obtain rfl := Option.some.inj h
      exact ⟨beq_self_eq_true k', Token.writable_keyword k'⟩
  | keywords ks =>
      obtain ⟨k', hk', rfl⟩ := Option.map_eq_some_iff.mp h
      exact ⟨List.contains_iff_mem.mpr (List.mem_of_head? hk'), Token.writable_keyword k'⟩
  | symbol s =>
      obtain rfl := Option.some.inj h
      exact ⟨beq_self_eq_true s, Token.writable_symbol s⟩
  | symbols ss =>
      obtain ⟨s, hs, rfl⟩ := Option.map_eq_some_iff.mp h
      exact ⟨List.contains_iff_mem.mpr (List.mem_of_head? hs), Token.writable_symbol s⟩
  | identifier | countWord | name | parameterName | anything =>
      obtain rfl := Option.some.inj h
      exact ⟨by decide, Token.writable_count⟩
  | integer | literal =>
      obtain rfl := Option.some.inj h
      exact ⟨rfl, Token.writable_zero⟩
  | queryEnd =>
      obtain rfl := Option.some.inj h
      exact ⟨rfl, Token.writable_symbol .semicolon⟩
  | ending => cases h

/-- Tokens of a form, given some for the categories. -/
def Form.sampleWith (named : Phrase → Option (List Token)) : Form → Option (List Token)
  | zero => none
  | epsilon | .star _ => some []
  | char (.terminal t) => t.sample.map fun k => [k]
  | char (.phrase p) => named p
  | plus f g => (sampleWith named f).or (sampleWith named g)
  | comp f g => (sampleWith named f).bind fun us => (sampleWith named g).map fun vs => us ++ vs

/-- Tokens of a category, to a depth of categories. -/
def Phrase.sampleTo : Nat → Phrase → Option (List Token)
  | 0, _ => none
  | depth + 1, p => Form.sampleWith (sampleTo depth) p.form

/-! ### Completions -/

/-- That tokens are the beginning of what a form yields, and the rest can be written. -/
def Completes (f : Form) (ks : List Token) : Prop :=
  ∃ ws, (∀ k ∈ ws, k.Writable) ∧ Yields f (ks ++ ws)

namespace Completes

variable {f g : Form} {p : Phrase} {ks us vs : List Token}

theorem of_yields (h : Yields f ks) : Completes f ks :=
  ⟨[], List.forall_mem_nil _, by rwa [List.append_nil]⟩

theorem imp (h : Completes f ks) (himp : ∀ ks, Yields f ks → Yields g ks) : Completes g ks := by
  obtain ⟨ws, hw, hyields⟩ := h
  exact ⟨ws, hw, himp _ hyields⟩

theorem mono (h : Completes f ks) (hincludes : includes 0 f g = true) : Completes g ks :=
  h.imp fun _ => Yields.mono hincludes

theorem of_iff : Completes (.of p) ks ↔ Completes p.form ks :=
  ⟨fun h => h.imp fun _ => Yields.of_iff.mp, fun h => h.imp fun _ => Yields.of_iff.mpr⟩

theorem inl (h : Completes f ks) : Completes (f + g) ks :=
  h.imp fun _ hf => Yields.add_iff.mpr (.inl hf)

theorem inr (h : Completes g ks) : Completes (f + g) ks :=
  h.imp fun _ hg => Yields.add_iff.mpr (.inr hg)

theorem times (h : Completes (f * g) ks) : Completes (f.times g) ks :=
  h.imp fun _ => Yields.times_iff.mpr

/-- What is still asked for behind a form may be anything that it yields. -/
theorem first (h : Completes f ks) (hg : Completes g []) : Completes (f * g) ks := by
  obtain ⟨ws, hw, hf⟩ := h
  obtain ⟨vs, hv, hg⟩ := hg
  refine ⟨ws ++ vs, List.forall_mem_append.mpr ⟨hw, hv⟩, ?_⟩
  rw [← List.append_assoc]
  exact hf.mul hg

theorem second (hf : Yields f us) (h : Completes g vs) : Completes (f * g) (us ++ vs) := by
  obtain ⟨ws, hw, hg⟩ := h
  refine ⟨ws, hw, ?_⟩
  rw [List.append_assoc]
  exact hf.mul hg

theorem round (h : Completes f ks) : Completes f.star ks := by
  obtain ⟨ws, hw, hf⟩ := h
  refine ⟨ws, hw, ?_⟩
  rw [← List.append_nil (ks ++ ws)]
  exact hf.star_cons Yields.star_nil

theorem again (hf : Yields f us) (h : Completes f.star vs) : Completes f.star (us ++ vs) := by
  obtain ⟨ws, hw, hstar⟩ := h
  refine ⟨ws, hw, ?_⟩
  rw [List.append_assoc]
  exact hf.star_cons hstar

theorem star_nil : Completes f.star [] := of_yields Yields.star_nil

theorem nil : Completes 1 [] := of_yields (Yields.one_iff.mpr rfl)

theorem token {t : Terminal} (h : t.sample.isSome = true) : Completes (.token t) [] := by
  obtain ⟨k, hk⟩ := Option.isSome_iff_exists.mp h
  obtain ⟨haccepts, hw⟩ := Terminal.sample_spec hk
  exact ⟨[k], List.forall_mem_singleton.mpr hw, Yields.token_iff.mpr ⟨k, rfl, haccepts⟩⟩

end Completes

/-- What is found for a form is of the form. -/
theorem Form.completes_of_sampleWith {named : Phrase → Option (List Token)}
    (hnamed : ∀ p, (named p).isSome = true → Completes (.of p) []) {f : Form}
    (h : (sampleWith named f).isSome = true) : Completes f [] := by
  induction f with
  | zero => exact Bool.noConfusion h
  | epsilon => exact .nil
  | star => exact .star_nil
  | char i =>
      cases i with
      | terminal t =>
          rw [sampleWith, Option.isSome_map] at h
          exact .token h
      | phrase p => exact hnamed p h
  | plus f g ihf ihg =>
      rw [sampleWith, Option.isSome_or, Bool.or_eq_true] at h
      rcases h with h | h
      · exact (ihf h).inl
      · exact (ihg h).inr
  | comp f g ihf ihg =>
      obtain ⟨ws, hw⟩ := Option.isSome_iff_exists.mp h
      obtain ⟨us, hf, hg⟩ := Option.bind_eq_some_iff.mp hw
      obtain ⟨vs, hg, -⟩ := Option.map_eq_some_iff.mp hg
      exact (ihf (Option.isSome_iff_exists.mpr ⟨us, hf⟩)).first
        (ihg (Option.isSome_iff_exists.mpr ⟨vs, hg⟩))

theorem Phrase.completes_of_sampleTo {depth : Nat} {p : Phrase}
    (h : (p.sampleTo depth).isSome = true) : Completes (.of p) [] := by
  induction depth generalizing p with
  | zero => exact Bool.noConfusion h
  | succ depth ih => exact Completes.of_iff.mpr (Form.completes_of_sampleWith (fun _ => ih) h)

/-- **No category is without a text.** -/
theorem Phrase.completes_nil (p : Phrase) : Completes (.of p) [] := by
  have hsample : (p.sampleTo 32).isSome = true := by cases p <;> decide +kernel
  exact completes_of_sampleTo hsample

/-- Whether there are tokens of a form, whatever they are for its categories. -/
theorem Form.completes_nil {f : Form} (h : (sampleWith (fun _ => some []) f).isSome = true) :
    Completes f [] :=
  completes_of_sampleWith (fun p _ => p.completes_nil) h

/-! ### Rules that can be met -/

namespace Rule

/-- Whether each set of tokens that a rule takes one of has one that can be written. -/
def writable : Rule → Bool
  | empty | demand _ _ | call _ => true
  | token t _ => t.sample.isSome
  | seq r s => r.writable && s.writable
  | branch _ y n => y.writable && n.writable
  | many _ b => b.writable
  | sepBy item t => item.writable && t.sample.isSome
  | wrap _ b => b.writable
  | fork first _ _ y _ n => first.writable && y.writable && n.writable
  | attempt first _ other => first.writable && other.writable

section

variable {leaves : List Leaf} {known : Option Lookahead} {r : Rule} {ks : List Token}

/-- From what a rule spells to its form from outside. -/
theorem completes_label {parts : Bool}
    (hleaf : ∀ leaf ∈ leaves, leaf.rule = r → Completes leaf.form ks)
    (hr : ((r.leaf? leaves).isSome || r.spellsPhrase leaves known && parts) = true)
    (h : parts = true → Completes (r.spelled leaves known) ks) :
    Completes (r.label leaves (r.spelled leaves known)) ks := by
  unfold label
  cases hr' : r.leaf? leaves with
  | some leaf =>
      obtain ⟨hmem, heq⟩ := leaf?_eq_some hr'
      exact hleaf leaf hmem heq
  | none =>
      rw [hr', Option.isSome_none, Bool.false_or, Bool.and_eq_true] at hr
      obtain ⟨hspells, hparts⟩ := hr
      cases hp : r.phrase? with
      | none => exact h hparts
      | some p =>
          rw [spellsPhrase, hp, Bool.and_eq_true] at hspells
          exact Completes.of_iff.mpr ((h hparts).mono hspells.1)

/-- **What a rule asks for can be met**, if this is so for the leaves. -/
theorem completes_nil (hleaves : ∀ leaf ∈ leaves, Completes leaf.form [])
    (hr : r.conforms leaves known = true) (hw : r.writable = true) :
    Completes (r.label leaves (r.spelled leaves known)) [] := by
  induction r generalizing known with
  | empty =>
      exact completes_label (fun l hl _ => hleaves l hl) (by rwa [conforms] at hr) fun _ => .nil
  | demand l e =>
      exact completes_label (fun l hl _ => hleaves l hl) (by rwa [conforms] at hr) fun _ => .nil
  | token t e =>
      refine completes_label (fun l hl _ => hleaves l hl) (by rwa [conforms] at hr) fun _ => ?_
      refine Completes.token ?_
      unfold narrow
      split
      · rfl
      · exact hw
  | call n =>
      exact completes_label (fun l hl _ => hleaves l hl) (by rwa [conforms] at hr)
        fun hnot => Bool.noConfusion hnot
  | seq r s ihr ihs =>
      refine completes_label (fun l hl _ => hleaves l hl) (by rwa [conforms] at hr) fun hparts => ?_
      simp only [Bool.and_eq_true] at hparts
      obtain ⟨hwr, hws⟩ := Bool.and_eq_true_iff.mp hw
      exact ((ihr hparts.1.1 hwr).first (ihs hparts.1.2 hws)).times
  | branch l y n ihy ihn =>
      refine completes_label (fun l hl _ => hleaves l hl) (by rwa [conforms] at hr) fun hparts => ?_
      exact (ihy (Bool.and_eq_true_iff.mp hparts).1 (Bool.and_eq_true_iff.mp hw).1).inl
  | many l b ih =>
      refine completes_label (fun l hl _ => hleaves l hl) (by rwa [conforms] at hr) fun hb => ?_
      rw [spelled_many]
      split
      · exact ((ih hb hw).first .star_nil).times
      · exact .star_nil
  | sepBy item t ih =>
      refine completes_label (fun l hl _ => hleaves l hl) (by rwa [conforms] at hr) fun hparts => ?_
      exact ((ih (Bool.and_eq_true_iff.mp hparts).1 (Bool.and_eq_true_iff.mp hw).1).first
        .star_nil).times
  | wrap sh b ih =>
      refine completes_label (fun l hl _ => hleaves l hl) (by rwa [conforms] at hr) fun hb => ?_
      exact ih hb hw
  | fork first l ys y ns n ihfirst ihy ihn =>
      refine completes_label (fun l hl _ => hleaves l hl) (by rwa [conforms] at hr) fun hparts => ?_
      simp only [Bool.and_eq_true] at hparts
      simp only [writable, Bool.and_eq_true] at hw
      exact ((ihfirst hparts.1.1.2 hw.1.1).first (ihy hparts.1.2 hw.1.2).inl).times
  | attempt first l other ihfirst ihother =>
      refine completes_label (fun l hl _ => hleaves l hl) (by rwa [conforms] at hr) fun hparts => ?_
      exact (ihfirst (Bool.and_eq_true_iff.mp hparts).1 (Bool.and_eq_true_iff.mp hw).1).inl

end

end Rule

/-! ### Rules that fail -/

/-- That there is something of a leaf's form, and what the rule has taken of it before it fails can
be completed. -/
structure Leaf.Viable (m : Nat) (leaf : Leaf) : Prop where
  inhabited : Completes leaf.form []
  completes : ∀ {known : Option Lookahead} {us vs : List Lexeme}, leaf.rule.Below m known us →
    Fails leaf.rule us vs → Completes leaf.form (us.map Lexeme.token)

namespace Rule

/-- That what a rule has taken before it fails can be completed to what a form yields. -/
def FailsWithin (m : Nat) (known : Option Lookahead) (r : Rule) (f : Form) : Prop :=
  ∀ us vs, Fails r us vs → r.Below m known us → (∀ l ∈ known, l.holds (us ++ vs) = true) →
    Completes f (us.map Lexeme.token)

namespace FailsWithin

variable {leaves : List Leaf} {m : Nat} {known : Option Lookahead} {l : Lookahead}
  {r s y n b item : Rule}

theorem seq (hsound : ∀ leaf ∈ leaves, leaf.Sound m) (hconforms : r.conforms leaves known = true)
    (hcalls : (r.takes known || !s.callsFirst (r.knownBehind known) || s.callsFirst known) = true)
    (hr : r.FailsWithin m known (r.label leaves (r.spelled leaves known)))
    (hs : s.FailsWithin m (r.knownBehind known)
      (s.label leaves (s.spelled leaves (r.knownBehind known))))
    (hnil : Completes (s.label leaves (s.spelled leaves (r.knownBehind known))) []) :
    (Rule.seq r s).FailsWithin m known ((Rule.seq r s).spelled leaves known) := by
  intro us vs h hbelow hk
  refine Completes.times ?_
  rcases h.seq_cases with failure | ⟨us₁, us₂, cs, rfl, run, failure⟩
  · exact (hr _ _ failure hbelow.seqFirst hk).first hnil
  · rw [List.append_assoc] at hk
    have h₁ := run.yields hsound hconforms hbelow.first hk
    have h₂ := hs _ _ failure (hbelow.second (run.taken_ne_nil hk) hcalls)
      (run.holds_knownBehind hk)
    rw [List.map_append]
    exact .second h₁ h₂

theorem branch (hy : y.FailsWithin m (some l) (y.label leaves (y.spelled leaves (some l))))
    (hn : n.FailsWithin m known (n.label leaves (n.spelled leaves known))) :
    (Rule.branch l y n).FailsWithin m known ((Rule.branch l y n).spelled leaves known) := by
  intro us vs h hbelow hk
  rcases h.branch_cases with ⟨holds, failure⟩ | ⟨-, failure⟩
  · exact (hy _ _ failure hbelow.yes (holds_some holds)).inl
  · exact (hn _ _ failure hbelow.no hk).inr

/-- A repetition, whose last round fails. -/
theorem many (hsound : ∀ leaf ∈ leaves, leaf.Sound m)
    (hconforms : b.conforms leaves (some l) = true)
    (hb : b.FailsWithin m (some l) (b.label leaves (b.spelled leaves (some l)))) :
    (Rule.many l b).FailsWithin m known ((Rule.many l b).spelled leaves known) := by
  intro us vs h hbelow hk
  have hround : ∀ {us : List Lexeme}, Fails b us vs → l.holds (us ++ vs) = true →
      (Rule.many l b).Below m known us →
        Completes (b.label leaves (b.spelled leaves (some l))) (us.map Lexeme.token) :=
    fun failure holds hbelow => hb _ _ failure hbelow (holds_some holds)
  have hdone : ∀ {us us' : List Lexeme} {cs : List Cover}, Run b us (us' ++ vs) cs →
      l.holds (us ++ (us' ++ vs)) = true → (Rule.many l b).Below m known (us ++ us') →
        Yields (b.label leaves (b.spelled leaves (some l))) (us.map Lexeme.token) := by
    intro us us' cs run holds hbelow
    have hbelow' : b.Below m (some l) us := hbelow.mono (by simp)
    exact run.yields hsound hconforms hbelow' (holds_some holds)
  have hstar : ∀ {us : List Lexeme}, Fails (.many l b) us vs → (Rule.many l b).Below m known us →
      Completes (b.label leaves (b.spelled leaves (some l))).star (us.map Lexeme.token) := by
    intro us failure
    refine Fails.many_induction (P := fun us => (Rule.many l b).Below m known us →
      Completes (b.label leaves (b.spelled leaves (some l))).star (us.map Lexeme.token))
      ?_ ?_ failure
    · exact fun us holds failure hbelow => (hround failure holds hbelow).round
    · intro us us' cs holds run _ ihmore hbelow
      rw [List.map_append]
      exact .again (hdone run holds hbelow) (ihmore (hbelow.mono (by simp)))
  rw [spelled_many]
  split
  · refine Completes.times ?_
    cases h with
    | round holds failure => exact (hround failure holds hbelow).first .star_nil
    | again holds run failure =>
        rw [List.map_append]
        exact .second (hdone run holds hbelow) (hstar failure (hbelow.mono (by simp)))
  · exact hstar h hbelow

/-- What stands between separators: the separator is missing, or what should stand behind it. -/
theorem separated {t : Terminal} (ht : t.sample.isSome = true)
    (hsound : ∀ leaf ∈ leaves, leaf.Sound m) (hconforms : item.conforms leaves none = true)
    (hitem : item.FailsWithin m none (item.label leaves (item.spelled leaves none)))
    (hnil : Completes (item.label leaves (item.spelled leaves none)) []) {us vs : List Lexeme}
    (h : Fails (.separated item t) us vs) (hlen : us.length ≤ m) :
    Completes (times (Form.token t) (item.label leaves (item.spelled leaves none))).star
      (us.map Lexeme.token) := by
  refine Fails.many_induction (P := fun us => us.length ≤ m →
    Completes (times (Form.token t) (item.label leaves (item.spelled leaves none))).star
      (us.map Lexeme.token)) ?_ ?_ h hlen
  · intro us _ last hlen
    refine Completes.round (Completes.times ?_)
    rcases last.seq_cases with nosep | ⟨us₁, us₂, cs, rfl, run, failure⟩
    · obtain rfl := nosep.eq_nil_of_token
      exact (Completes.token ht).first hnil
    · obtain ⟨u, rfl, hu, -⟩ := Run.token_iff.mp run
      simp only [List.length_append, List.length_singleton] at hlen
      rw [List.map_append]
      exact .second (Yields.token_iff.mpr ⟨_, rfl, hu⟩)
        (hitem _ _ failure (.of_lt (by omega)) (holds_none _))
  · intro us us' cs _ round _ ihmore hlen
    obtain ⟨us₁, us₂, _, _, rfl, -, sep, run⟩ := Run.seq_iff.mp round
    obtain ⟨u, rfl, hu, -⟩ := Run.token_iff.mp sep
    simp only [List.length_append, List.length_singleton] at hlen
    have hyields := run.yields hsound hconforms (.of_lt (by omega)) (holds_none _)
    have hsep : Yields (Form.token t) [u.token] := Yields.token_iff.mpr ⟨_, rfl, hu⟩
    rw [List.map_append, List.map_append]
    exact .again (Yields.times_iff.mpr (hsep.mul hyields)) (ihmore (by omega))

theorem sepBy {t : Terminal} (ht : t.sample.isSome = true)
    (hsound : ∀ leaf ∈ leaves, leaf.Sound m) (hknown : item.conforms leaves known = true)
    (hnone : item.conforms leaves none = true)
    (hfirst : item.FailsWithin m known (item.label leaves (item.spelled leaves known)))
    (hitem : item.FailsWithin m none (item.label leaves (item.spelled leaves none)))
    (hnil : Completes (item.label leaves (item.spelled leaves none)) []) :
    (Rule.sepBy item t).FailsWithin m known ((Rule.sepBy item t).spelled leaves known) := by
  intro us vs h hbelow hk
  refine Completes.times ?_
  cases h with
  | item failure =>
      have hbelow' : item.Below m known us := hbelow
      exact (hfirst us vs failure hbelow' hk).first .star_nil
  | @items _ _ us us' _ _ run failure =>
      have hlen : us'.length ≤ m := Nat.le_trans (by simp) hbelow.1
      rw [List.append_assoc] at hk
      rw [List.map_append]
      exact .second (run.yields hsound hknown (hbelow.mono (by simp)) hk)
        (separated ht hsound hnone hitem hnil failure hlen)

/-- A fork, whose first rule has taken a lexeme before one of the others fails. -/
theorem fork {ys ns : Shape} (hsound : ∀ leaf ∈ leaves, leaf.Sound m)
    (ht : r.takes known = true) (hconforms : r.conforms leaves known = true)
    (hr : r.FailsWithin m known (r.label leaves (r.spelled leaves known)))
    (hy : y.FailsWithin m (some l) (y.label leaves (y.spelled leaves (some l))))
    (hn : n.FailsWithin m none (n.label leaves (n.spelled leaves none)))
    (hnil : Completes (y.label leaves (y.spelled leaves (some l))) []) :
    (Rule.fork r l ys y ns n).FailsWithin m known
      ((Rule.fork r l ys y ns n).spelled leaves known) := by
  intro us vs h hbelow hk
  have hdone : ∀ {us us' : List Lexeme} {cs : List Cover},
      (Rule.fork r l ys y ns n).Below m known (us ++ us') → Run r us (us' ++ vs) cs →
      (∀ l ∈ known, l.holds (us ++ us' ++ vs) = true) →
        Yields (r.label leaves (r.spelled leaves known)) (us.map Lexeme.token) ∧
          us'.length < m := by
    intro us us' cs hbelow run hk
    rw [List.append_assoc] at hk
    have hlen := hbelow.1
    have hpos := List.length_pos_iff.mpr (run.taken_ne_nil hk ht)
    rw [List.length_append] at hlen
    exact ⟨run.yields hsound hconforms (hbelow.forkFirst.mono (by simp)) hk, by omega⟩
  refine Completes.times ?_
  cases h with
  | forkFirst failure => exact (hr _ _ failure hbelow.forkFirst hk).first hnil.inl
  | forkYes run holds failure =>
      obtain ⟨h₁, hlt⟩ := hdone hbelow run hk
      rw [List.map_append]
      exact .second h₁ (hy _ _ failure (.of_lt hlt) (holds_some holds)).inl
  | forkNo run fails failure =>
      obtain ⟨h₁, hlt⟩ := hdone hbelow run hk
      rw [List.map_append]
      exact .second h₁ (hn _ _ failure (.of_lt hlt) (holds_none _)).inr

end FailsWithin

end Rule

/-- A rule fails within its form, if the leaves fail within theirs. -/
theorem Rule.failsWithin {leaves : List Leaf} {m : Nat} (hsound : ∀ leaf ∈ leaves, leaf.Sound m)
    (hviable : ∀ leaf ∈ leaves, leaf.Viable m) {known : Option Lookahead} {r : Rule}
    (hr : r.conforms leaves known = true) (hw : r.writable = true) :
    r.FailsWithin m known (r.label leaves (r.spelled leaves known)) := by
  have hnil : ∀ {r : Rule} {known : Option Lookahead}, r.conforms leaves known = true →
      r.writable = true → Completes (r.label leaves (r.spelled leaves known)) [] :=
    completes_nil fun leaf hl => (hviable leaf hl).inhabited
  -- from outside, a rule is a leaf or what it spells
  have hlabel : ∀ {r : Rule} {known : Option Lookahead} {parts : Bool},
      ((r.leaf? leaves).isSome || r.spellsPhrase leaves known && parts) = true →
      (parts = true → r.FailsWithin m known (r.spelled leaves known)) →
        r.FailsWithin m known (r.label leaves (r.spelled leaves known)) := by
    intro r known parts hr hparts us vs h hbelow hk
    refine completes_label ?_ hr fun hp => hparts hp us vs h hbelow hk
    rintro leaf hl rfl
    exact (hviable leaf hl).completes hbelow h
  induction r generalizing known with
  | empty => exact fun us vs h _ _ => nomatch h
  | token t e =>
      intro us vs h _ _
      obtain rfl := h.eq_nil_of_token
      exact hnil hr hw
  | demand l e =>
      intro us vs h _ _
      obtain rfl := h.eq_nil_of_demand
      exact hnil hr hw
  | call n => exact hlabel (by rwa [conforms] at hr) fun hnot => Bool.noConfusion hnot
  | seq r s ihr ihs =>
      refine hlabel (by rwa [conforms] at hr) fun hparts => ?_
      simp only [Bool.and_eq_true] at hparts
      obtain ⟨⟨hr, hs⟩, hcalls⟩ := hparts
      obtain ⟨hwr, hws⟩ := Bool.and_eq_true_iff.mp hw
      exact .seq hsound hr hcalls (ihr hr hwr) (ihs hs hws) (hnil hs hws)
  | branch l y n ihy ihn =>
      refine hlabel (by rwa [conforms] at hr) fun hparts => ?_
      obtain ⟨hy, hn⟩ := Bool.and_eq_true_iff.mp hparts
      obtain ⟨hwy, hwn⟩ := Bool.and_eq_true_iff.mp hw
      exact .branch (ihy hy hwy) (ihn hn hwn)
  | many l b ih =>
      refine hlabel (by rwa [conforms] at hr) fun hb => ?_
      exact .many hsound hb (ih hb hw)
  | sepBy item t ih =>
      refine hlabel (by rwa [conforms] at hr) fun hparts => ?_
      obtain ⟨hknown, hnone⟩ := Bool.and_eq_true_iff.mp hparts
      obtain ⟨hwitem, hwt⟩ := Bool.and_eq_true_iff.mp hw
      exact .sepBy hwt hsound hknown hnone (ih hknown hwitem) (ih hnone hwitem) (hnil hnone hwitem)
  | wrap sh b ih =>
      refine hlabel (by rwa [conforms] at hr) fun hb us vs h hbelow hk => ?_
      exact ih hb hw us vs (Fails.wrap_iff.mp h) hbelow hk
  | fork first l ys y ns n ihfirst ihy ihn =>
      refine hlabel (by rwa [conforms] at hr) fun hparts => ?_
      simp only [Bool.and_eq_true] at hparts
      obtain ⟨⟨⟨ht, hfirst⟩, hy⟩, hn⟩ := hparts
      simp only [writable, Bool.and_eq_true] at hw
      obtain ⟨⟨hwfirst, hwy⟩, hwn⟩ := hw
      exact .fork hsound ht hfirst (ihfirst hfirst hwfirst) (ihy hy hwy) (ihn hn hwn) (hnil hy hwy)
  | attempt first l other ihfirst ihother =>
      refine hlabel (by rwa [conforms] at hr) fun hparts us vs h hbelow hk => ?_
      obtain ⟨-, hother⟩ := Bool.and_eq_true_iff.mp hparts
      cases h with
      | other failure =>
          exact (ihother hother (Bool.and_eq_true_iff.mp hw).2 us vs failure
            hbelow.attemptOther hk).inr

/-- **What a rule has taken before it fails can be completed** to what its form yields. -/
theorem Fails.completes {leaves : List Leaf} {m : Nat} (hsound : ∀ leaf ∈ leaves, leaf.Sound m)
    (hviable : ∀ leaf ∈ leaves, leaf.Viable m) {known : Option Lookahead} {r : Rule}
    {us vs : List Lexeme} (h : Fails r us vs) (hr : r.conforms leaves known = true)
    (hw : r.writable = true) (hbelow : r.Below m known us)
    (hk : ∀ l ∈ known, l.holds (us ++ vs) = true) :
    Completes (r.label leaves (r.spelled leaves known)) (us.map Lexeme.token) :=
  Rule.failsWithin hsound hviable hr hw us vs h hbelow hk

end BindCheck

import BindCheck.Proofs.Relexing
import BindCheck.Proofs.Runs

/-!
# BindCheck.Proofs.Adjacency

**No two lexemes that a query can have next to each other run together**, so the
normalized text of a query is read back as its lexemes.

The grammar is asked, and not a single query: for each rule the terminals that its lexemes
may begin and end with (`Rule.firsts`, `Rule.lasts`) are computed from its text, with two
tables for the rules that are called by name; `Rule.apart` then says whether no terminal
that may end one part of a rule runs together with one that may begin the next part.
`Run.isChain` carries the answer over to every run, and the grammar of queries passes
(`Grammar.apart_cypher`).
-/

namespace BindCheck

/-! ### Terminals that run together -/

/-- The symbols that some token behind them would make longer or turn into another token. -/
def Symbol.unfinished : List Symbol := [.dot, .plus, .less, .greater, .slash]

/-- The symbols that some symbol in front of them runs together with. -/
def Symbol.finishing : List Symbol :=
  [.dot, .twoDots, .equal, .greater, .atLeast, .slash, .star]

/-- A token for each way of running together with a symbol in front. -/
def Token.samples : List Token :=
  [.integer 0, .float 0] ++ Symbol.finishing.map .symbol

/-- Whether a token of one set may run together with a token of another one. -/
def Terminal.mayFuse (t u : Terminal) : Bool :=
  Symbol.unfinished.any fun s => t.accepts (.symbol s) &&
    Token.samples.any fun b => u.accepts b && (Token.symbol s).fuses b

theorem Token.fuses_left {a b : Token} (h : a.fuses b = true) :
    ∃ s ∈ Symbol.unfinished, a = .symbol s := by
  cases a with
  | symbol s =>
      refine ⟨s, ?_, rfl⟩
      cases s <;> first | decide | exact Bool.noConfusion h
  | _ => exact Bool.noConfusion h

/-- All numbers are alike to a terminal and in how they run together. -/
theorem Token.fuses_right {s : Symbol} {b : Token} (h : (Token.symbol s).fuses b = true) :
    ∃ b' ∈ samples, (Token.symbol s).fuses b' = true ∧
      ∀ u : Terminal, u.accepts b = true → u.accepts b' = true := by
  cases b with
  | integer n =>
      refine ⟨.integer 0, by decide, by cases s <;> exact h, fun u hu => ?_⟩
      cases u <;> first | rfl | exact hu
  | float f =>
      refine ⟨.float 0, by decide, by cases s <;> exact h, fun u hu => ?_⟩
      cases u <;> first | rfl | exact hu
  | symbol s' =>
      have hs' : s' ∈ Symbol.finishing := by
        cases s <;> simp [fuses] at h
        case dot | slash => rcases h with rfl | rfl <;> decide
        case less => rcases h with (rfl | rfl) | rfl <;> decide
        case plus | greater => exact h ▸ by decide
      exact ⟨.symbol s', List.mem_append_right _ (List.mem_map_of_mem hs'), h, fun u hu => hu⟩
  | string v | keyword k | identifier n | eof => cases s <;> exact Bool.noConfusion h

theorem Terminal.mayFuse_of_fuses {t u : Terminal} {a b : Token} (ha : t.accepts a = true)
    (hb : u.accepts b = true) (h : a.fuses b = true) : t.mayFuse u = true := by
  obtain ⟨s, hs, rfl⟩ := Token.fuses_left h
  obtain ⟨b', hb', hfuses, haccepts⟩ := Token.fuses_right h
  refine List.any_eq_true.mpr ⟨s, hs, ?_⟩
  rw [ha, Bool.true_and]
  exact List.any_eq_true.mpr ⟨b', hb', by rw [haccepts u hb, hfuses]; rfl⟩

/-! ### What the lexemes of a rule begin and end with -/

/-- The terminals that a named rule may begin with. -/
def Nonterminal.firsts : Nonterminal → List Terminal
  | .singleQuery | .queryTail =>
    [.keyword .UNWIND, .keyword .CALL, .keyword .OPTIONAL, .keyword .MATCH, .keyword .CREATE,
     .keyword .MERGE, .keyword .SET, .keyword .REMOVE, .keyword .DETACH, .keyword .DELETE,
     .keyword .WITH, .keyword .RETURN]
  | .patternElement => [.symbol .leftParen]
  | .expression => .keyword .NOT :: operand
  | .comparison | .sum | .unary => operand
where
  /-- The terminals that an operand may begin with. -/
  operand : List Terminal :=
    [.symbols [.plus, .minus], .literal, .symbol .leftBracket, .symbol .leftBrace,
     .symbol .dollar, .keyword .CASE, .symbol .leftParen, .countWord, .identifier]

/-- The terminals that a named rule may end with. -/
def Nonterminal.lasts : Nonterminal → List Terminal
  | .singleQuery | .queryTail =>
    operand ++
      [.name, .keyword .DISTINCT, .symbol .star, .keywords [.ASCENDING, .ASC, .DESCENDING, .DESC]]
  | .patternElement => [.symbol .rightParen]
  | .expression | .comparison | .sum | .unary => operand
where
  /-- The terminals that an operand may end with. -/
  operand : List Terminal :=
    [.literal, .symbol .rightBracket, .symbol .rightBrace, .parameterName, .keyword .END,
     .symbol .rightParen, .identifier, .name, .keyword .NULL]

/-- The terminals that the lexemes of the rule behind a lookahead may begin with. A dotted
call begins with a name that is no reserved word. -/
def Lookahead.narrow (l : Lookahead) (ts : List Terminal) : List Terminal :=
  match l with
  | dottedCall => [.identifier]
  | _ => ts

namespace Rule

/-- The terminals that the lexemes of a rule may begin with. -/
def firsts : Rule → List Terminal
  | empty | demand _ _ => []
  | token t _ => [t]
  | call n => n.firsts
  | seq r s => r.firsts ++ if r.takes none then [] else s.firsts
  | branch l y n => l.narrow y.firsts ++ n.firsts
  | many _ b => b.firsts
  | sepBy item t => item.firsts ++ if item.takes none then [] else [t]
  | wrap _ b => b.firsts
  | fork first _ _ y _ n => first.firsts ++ if first.takes none then [] else y.firsts ++ n.firsts
  | attempt first _ other => first.firsts ++ other.firsts

/-- The terminals that the lexemes of a rule may end with. -/
def lasts : Rule → List Terminal
  | empty | demand _ _ => []
  | token t _ => [t]
  | call n => n.lasts
  | seq r s => s.lasts ++ if s.takes none then [] else r.lasts
  | branch _ y n => y.lasts ++ n.lasts
  | many _ b => b.lasts
  | sepBy item t => item.lasts ++ if item.takes none then [] else [t]
  | wrap _ b => b.lasts
  | fork first _ _ y _ n =>
    y.lasts ++ n.lasts ++ if y.takes none && n.takes none then [] else first.lasts
  | attempt first _ other => first.lasts ++ other.lasts

/-- Whether no terminal of one list runs together with one of another list. -/
def keepsApart (ts us : List Terminal) : Bool := ts.all fun t => us.all fun u => !t.mayFuse u

/-- Whether no two parts of a rule that may stand next to each other run together. -/
def apart : Rule → Bool
  | empty | token _ _ | demand _ _ | call _ => true
  | seq r s => r.apart && s.apart && keepsApart r.lasts s.firsts
  | branch _ y n => y.apart && n.apart
  | many _ b => b.apart && keepsApart b.lasts b.firsts
  | sepBy item t =>
    item.apart && item.takes none && keepsApart item.lasts [t] && keepsApart [t] item.firsts
  | wrap _ b => b.apart
  | fork first _ _ y _ n =>
    first.apart && y.apart && n.apart && keepsApart first.lasts (y.firsts ++ n.firsts)
  | attempt first _ other => first.apart && other.apart

end Rule

theorem Grammar.firsts_production (n : Nonterminal) :
    ∀ t ∈ (production n).firsts, t ∈ n.firsts := by
  cases n <;> decide

theorem Grammar.lasts_production (n : Nonterminal) :
    ∀ t ∈ (production n).lasts, t ∈ n.lasts := by
  cases n <;> decide +kernel

theorem Grammar.apart_production (n : Nonterminal) : (production n).apart = true := by
  cases n <;> decide

theorem Grammar.apart_cypher : cypher.apart = true := by
  decide

/-! ### What a run begins and ends with -/

theorem mem_head?_append {α : Type} {a : α} {xs ys : List α} (h : a ∈ (xs ++ ys).head?) :
    a ∈ xs.head? ∨ xs = [] ∧ a ∈ ys.head? := by
  cases xs with
  | nil => exact .inr ⟨rfl, h⟩
  | cons x xs => exact .inl h

theorem mem_getLast?_append {α : Type} {a : α} {xs ys : List α}
    (h : a ∈ (xs ++ ys).getLast?) : a ∈ ys.getLast? ∨ ys = [] ∧ a ∈ xs.getLast? := by
  cases ys with
  | nil => exact .inr ⟨rfl, by simpa using h⟩
  | cons y ys =>
      rw [List.getLast?_append_of_ne_nil _ (List.cons_ne_nil y ys)] at h
      exact .inl h

/-- Whether some terminal of a list accepts the lexeme. -/
def Terminal.anyAccepts (ts : List Terminal) (u : Lexeme) : Prop :=
  ∃ t ∈ ts, t.accepts u.token = true

theorem Terminal.anyAccepts.mono {ts ts' : List Terminal} {u : Lexeme}
    (h : anyAccepts ts u) (hsub : ∀ t ∈ ts, t ∈ ts') : anyAccepts ts' u := by
  obtain ⟨t, ht, hu⟩ := h
  exact ⟨t, hsub t ht, hu⟩

namespace Run

/-- Two parts next to each other begin with what the first may begin with, or with what the
second does where the first need not take anything. -/
theorem head_append {r : Rule} {us us' vs : List Lexeme} {cs : List Cover} {ts : List Terminal}
    (first : Run r us (us' ++ vs) cs) (h : ∀ u ∈ us.head?, Terminal.anyAccepts r.firsts u)
    (h' : ∀ u ∈ us'.head?, Terminal.anyAccepts ts u) :
    ∀ u ∈ (us ++ us').head?,
      Terminal.anyAccepts (r.firsts ++ if r.takes none then [] else ts) u := by
  intro u hu
  rcases mem_head?_append hu with hhead | ⟨rfl, hhead⟩
  · exact (h u hhead).mono fun t ht => List.mem_append_left _ ht
  · refine (h' u hhead).mono fun t ht => List.mem_append_right _ ?_
    rwa [first.takes_eq_false (Rule.holds_none _)]

/-- Two parts next to each other end with what the second may end with, or with what the first
does where the second need not take anything. -/
theorem getLast_append {r : Rule} {us us' vs : List Lexeme} {cs : List Cover}
    {ts : List Terminal} (second : Run r us' vs cs)
    (h : ∀ u ∈ us.getLast?, Terminal.anyAccepts ts u)
    (h' : ∀ u ∈ us'.getLast?, Terminal.anyAccepts r.lasts u) :
    ∀ u ∈ (us ++ us').getLast?,
      Terminal.anyAccepts (r.lasts ++ if r.takes none then [] else ts) u := by
  intro u hu
  rcases mem_getLast?_append hu with hlast | ⟨rfl, hlast⟩
  · exact (h' u hlast).mono fun t ht => List.mem_append_left _ ht
  · refine (h u hlast).mono fun t ht => List.mem_append_right _ ?_
    rwa [second.takes_eq_false (Rule.holds_none _)]

/-- The first lexeme of a run is one that the rule may begin with. -/
theorem head_firsts {r : Rule} {us vs : List Lexeme} {cs : List Cover} (h : Run r us vs cs) :
    ∀ u ∈ us.head?, Terminal.anyAccepts r.firsts u := by
  induction h with
  | empty | demand | done => intro u hu; exact absurd hu (Option.not_mem_none u)
  | token accepts =>
      intro u hu
      rw [List.head?_cons, Option.mem_some_iff] at hu
      exact ⟨_, List.mem_singleton_self _, hu ▸ accepts⟩
  | seq first second ih₁ ih₂ => exact first.head_append ih₁ ih₂
  | @yes l y n us vs cs holds run ih =>
      intro u hu
      have hnarrow : Terminal.anyAccepts (l.narrow y.firsts) u := by
        cases l with
        | next ts | notNext t => exact ih u hu
        | dottedCall =>
            obtain ⟨us, rfl⟩ : ∃ us', us = u :: us' := List.head?_eq_some_iff.mp hu
            rw [List.cons_append, Lookahead.holds, Bool.and_eq_true] at holds
            exact ⟨.identifier, List.mem_singleton_self _, holds.1⟩
      exact hnarrow.mono fun t ht => List.mem_append_left _ ht
  | no fails run ih =>
      intro u hu
      exact (ih u hu).mono fun t ht => List.mem_append_right _ ht
  | step holds first more ih₁ ih₂ =>
      intro u hu
      rcases mem_head?_append hu with hu | ⟨rfl, hu⟩
      · exact ih₁ u hu
      · exact ih₂ u hu
  | sepBy first more ih₁ ih₂ => exact first.head_append ih₁ ih₂
  | wrap run ih => exact ih
  | forkYes run holds more ih₁ ih₂ =>
      exact run.head_append ih₁ fun u hu =>
        (ih₂ u hu).mono fun t ht => List.mem_append_left _ ht
  | forkNo run fails more ih₁ ih₂ =>
      exact run.head_append ih₁ fun u hu =>
        (ih₂ u hu).mono fun t ht => List.mem_append_right _ ht
  | call run ih =>
      intro u hu
      exact (ih u hu).mono (Grammar.firsts_production _)
  | attemptFirst run holds ih =>
      intro u hu
      exact (ih u hu).mono fun t ht => List.mem_append_left _ ht
  | attemptOther run ih =>
      intro u hu
      exact (ih u hu).mono fun t ht => List.mem_append_right _ ht

/-- The last lexeme of a run is one that the rule may end with. -/
theorem getLast_lasts {r : Rule} {us vs : List Lexeme} {cs : List Cover} (h : Run r us vs cs) :
    ∀ u ∈ us.getLast?, Terminal.anyAccepts r.lasts u := by
  induction h with
  | empty | demand | done => intro u hu; exact absurd hu (Option.not_mem_none u)
  | token accepts =>
      intro u hu
      rw [List.getLast?_singleton, Option.mem_some_iff] at hu
      exact ⟨_, List.mem_singleton_self _, hu ▸ accepts⟩
  | seq first second ih₁ ih₂ => exact second.getLast_append ih₁ ih₂
  | yes holds run ih =>
      intro u hu
      exact (ih u hu).mono fun t ht => List.mem_append_left _ ht
  | no fails run ih =>
      intro u hu
      exact (ih u hu).mono fun t ht => List.mem_append_right _ ht
  | step holds first more ih₁ ih₂ =>
      intro u hu
      rcases mem_getLast?_append hu with hu' | ⟨rfl, hu'⟩
      · exact ih₂ u hu'
      · exact ih₁ u hu'
  | @sepBy item t us us' vs cs cs' first more ih₁ ih₂ =>
      intro u hu
      rcases mem_getLast?_append hu with hu' | ⟨rfl, hu'⟩
      · exact ih₂ u hu'
      · exact (ih₁ u hu').mono fun t ht => List.mem_append_left _ ht
  | wrap run ih => exact ih
  | forkYes run holds more ih₁ ih₂ =>
      intro u hu
      rcases mem_getLast?_append hu with hu' | ⟨rfl, hu'⟩
      · exact (ih₂ u hu').mono fun t ht => List.mem_append_left _ (List.mem_append_left _ ht)
      · refine (ih₁ u hu').mono fun t ht => List.mem_append_right _ ?_
        rwa [more.takes_eq_false (Rule.holds_none _)]
  | forkNo run fails more ih₁ ih₂ =>
      intro u hu
      rcases mem_getLast?_append hu with hu' | ⟨rfl, hu'⟩
      · exact (ih₂ u hu').mono fun t ht => List.mem_append_left _ (List.mem_append_right _ ht)
      · refine (ih₁ u hu').mono fun t ht => List.mem_append_right _ ?_
        rwa [more.takes_eq_false (Rule.holds_none _), Bool.and_false]
  | call run ih =>
      intro u hu
      exact (ih u hu).mono (Grammar.lasts_production _)
  | attemptFirst run holds ih =>
      intro u hu
      exact (ih u hu).mono fun t ht => List.mem_append_left _ ht
  | attemptOther run ih =>
      intro u hu
      exact (ih u hu).mono fun t ht => List.mem_append_right _ ht

end Run

/-! ### Runs of rules whose parts stay apart -/

theorem Rule.apart_of_keepsApart {ts us : List Terminal} (h : keepsApart ts us = true)
    {a b : Lexeme} (ha : Terminal.anyAccepts ts a) (hb : Terminal.anyAccepts us b) :
    Lexeme.Apart a b := by
  obtain ⟨t, ht, hta⟩ := ha
  obtain ⟨u, hu, hub⟩ := hb
  have hfuse : t.mayFuse u = false := by
    simpa using List.all_eq_true.mp (List.all_eq_true.mp h t ht) u hu
  refine Bool.eq_false_iff.mpr fun hab => ?_
  rw [Terminal.mayFuse_of_fuses hta hub hab] at hfuse
  exact Bool.noConfusion hfuse

/-- Two parts next to each other, each of which keeps apart. -/
theorem Rule.isChain_append {ts us : List Terminal} {as bs : List Lexeme}
    (h : Rule.keepsApart ts us = true) (ha : as.IsChain Lexeme.Apart)
    (hb : bs.IsChain Lexeme.Apart) (hlast : ∀ a ∈ as.getLast?, Terminal.anyAccepts ts a)
    (hhead : ∀ b ∈ bs.head?, Terminal.anyAccepts us b) : (as ++ bs).IsChain Lexeme.Apart :=
  List.isChain_append.mpr
    ⟨ha, hb, fun a has b hbs => Rule.apart_of_keepsApart h (hlast a has) (hhead b hbs)⟩

/-- **The lexemes of a run do not run together** if the rule keeps its parts apart. -/
theorem Run.isChain {r : Rule} {us vs : List Lexeme} {cs : List Cover} (h : Run r us vs cs)
    (hr : r.apart = true) : us.IsChain Lexeme.Apart := by
  induction h with
  | empty | demand | done => exact .nil
  | token => exact .singleton _
  | seq first second ih₁ ih₂ =>
      simp only [Rule.apart, Bool.and_eq_true] at hr
      exact Rule.isChain_append hr.2 (ih₁ hr.1.1) (ih₂ hr.1.2)
        first.getLast_lasts second.head_firsts
  | yes holds run ih =>
      rw [Rule.apart, Bool.and_eq_true] at hr
      exact ih hr.1
  | no fails run ih =>
      rw [Rule.apart, Bool.and_eq_true] at hr
      exact ih hr.2
  | step holds first more ih₁ ih₂ =>
      have hb := hr
      rw [Rule.apart, Bool.and_eq_true] at hb
      exact Rule.isChain_append hb.2 (ih₁ hb.1) (ih₂ hr)
        first.getLast_lasts more.head_firsts
  | sepBy first more ih₁ ih₂ =>
      simp only [Rule.apart, Bool.and_eq_true] at hr
      obtain ⟨⟨⟨hitem, htakes⟩, hsep⟩, hnext⟩ := hr
      refine Rule.isChain_append hsep (ih₁ hitem) (ih₂ ?_)
        first.getLast_lasts more.head_firsts
      simp [Rule.apart, Rule.firsts, Rule.lasts, Rule.takes, hitem, htakes, hsep, hnext]
  | wrap run ih => exact ih hr
  | forkYes run holds more ih₁ ih₂ =>
      simp only [Rule.apart, Bool.and_eq_true] at hr
      refine Rule.isChain_append hr.2 (ih₁ hr.1.1.1) (ih₂ hr.1.1.2)
        run.getLast_lasts fun u hu => (more.head_firsts u hu).mono fun t ht => ?_
      exact List.mem_append_left _ ht
  | forkNo run fails more ih₁ ih₂ =>
      simp only [Rule.apart, Bool.and_eq_true] at hr
      refine Rule.isChain_append hr.2 (ih₁ hr.1.1.1) (ih₂ hr.1.2)
        run.getLast_lasts fun u hu => (more.head_firsts u hu).mono fun t ht => ?_
      exact List.mem_append_right _ ht
  | call run ih => exact ih (Grammar.apart_production _)
  | attemptFirst run holds ih =>
      rw [Rule.apart, Bool.and_eq_true] at hr
      exact ih hr.1
  | attemptOther run ih =>
      rw [Rule.apart, Bool.and_eq_true] at hr
      exact ih hr.2

end BindCheck

import BindCheck.Proofs.Relexing
import BindCheck.Grammar.Parser

/-!
# BindCheck.Proofs.Unplaced

**What is parsed does not depend on places.** `unplaced` moves lexemes, trees and outcomes to
the start of the text, and parsing commutes with it (`Rule.parse_unplaced`). So two texts
with the same lexemes, wherever these stand, have the same trees but for their places
(`Rule.unplaced_parse_congr`), and fail for the same reasons.

A terminal asks for a token and a lookahead for terminals; the one place where parsing
touches a position at all is `Tree.over`.
-/

namespace BindCheck

/-! ### Without places -/

/-- A lexeme at the start of the text. -/
def Lexeme.unplaced (l : Lexeme) : Lexeme := { l with position := .start }

@[simp] theorem Lexeme.unplaced_token (l : Lexeme) : l.unplaced.token = l.token := rfl

@[simp] theorem Lexeme.unplaced_text (l : Lexeme) : l.unplaced.text = l.text := rfl

theorem Lexeme.map_unplaced_congr {us vs : List Lexeme} (h : us.map content = vs.map content) :
    us.map unplaced = vs.map unplaced := by
  have hmap : ∀ ls : List Lexeme,
      ls.map unplaced = (ls.map content).map fun c => ⟨c.1, c.2, .start⟩ := by
    intro ls
    rw [List.map_map]
    rfl
  rw [hmap us, hmap vs, h]

theorem Lexeme.joinAfter_unplaced (us : List Lexeme) (word : Bool) :
    joinAfter word (us.map unplaced) = joinAfter word us := by
  induction us generalizing word with
  | nil => rfl
  | cons u us ih =>
      rw [List.map_cons, joinAfter, joinAfter, unplaced_token, ih]
      rfl

@[simp] theorem Lexeme.join_unplaced (us : List Lexeme) : join (us.map unplaced) = join us := by
  rw [← String.toList_inj, toList_join, toList_join, joinAfter_unplaced]

/-- Lexemes that differ in their places alone have the same text. -/
theorem Lexeme.join_congr {us vs : List Lexeme} (h : us.map content = vs.map content) :
    join us = join vs := by
  rw [← join_unplaced us, map_unplaced_congr h, join_unplaced]

namespace Tree

mutual

/-- A tree with every node at the start of the text. -/
def unplaced : Tree → Tree
  | ⟨k, x, _, cs⟩ => ⟨k, x, .start, unplacedAll cs⟩

/-- Trees with every node at the start of the text. -/
def unplacedAll : List Tree → List Tree
  | [] => []
  | c :: cs => c.unplaced :: unplacedAll cs

end

theorem unplacedAll_eq_map (ts : List Tree) : unplacedAll ts = ts.map unplaced := by
  induction ts with
  | nil => rfl
  | cons t ts ih => rw [unplacedAll, ih, List.map_cons]

@[simp] theorem unplaced_kind (t : Tree) : t.unplaced.kind = t.kind := by
  cases t; rfl

@[simp] theorem unplaced_text (t : Tree) : t.unplaced.text = t.text := by
  cases t; rfl

@[simp] theorem unplaced_position (t : Tree) : t.unplaced.position = .start := by
  cases t; rfl

@[simp] theorem unplaced_children (t : Tree) :
    t.unplaced.children = t.children.map unplaced := by
  cases t
  rw [unplaced, unplacedAll_eq_map]

theorem unplaced_over (k : NodeKind) (us : List Lexeme) (ts : List Tree) :
    (Tree.over k us ts).unplaced = Tree.over k (us.map Lexeme.unplaced) (ts.map unplaced) := by
  have hpos : ((us.map Lexeme.unplaced).head?.map Lexeme.position).getD .start = .start := by
    cases us <;> rfl
  rw [Tree.over, Tree.over, unplaced, unplacedAll_eq_map, Lexeme.join_unplaced, hpos]

end Tree

/-- An outcome with all trees and lexemes at the start of the text. -/
def Outcome.unplaced : Outcome → Outcome
  | done ns taken rest =>
    done (ns.map Tree.unplaced) (taken.map Lexeme.unplaced) (rest.map Lexeme.unplaced)
  | failed e rest => failed e (rest.map Lexeme.unplaced)

theorem Outcome.unplaced_done (ns : List Tree) (us rest : List Lexeme) :
    (done ns us rest).unplaced =
      done (ns.map Tree.unplaced) (us.map Lexeme.unplaced) (rest.map Lexeme.unplaced) := rfl

/-! ### Lookaheads and shapes -/

theorem Lookahead.nextIn_unplaced (ts : List Terminal) (ls : List Lexeme) :
    nextIn ts (ls.map Lexeme.unplaced) = nextIn ts ls := by
  induction ts generalizing ls with
  | nil => cases ls <;> rfl
  | cons t ts ih =>
      cases ls with
      | nil => rfl
      | cons l ls => rw [List.map_cons, nextIn, nextIn, ih, Lexeme.unplaced_token]

theorem Lookahead.callFollows_unplaced (ls : List Lexeme) :
    callFollows (ls.map Lexeme.unplaced) = callFollows ls := by
  induction ls using callFollows.induct with
  | case1 | case2 l => rfl
  | case3 l m ls h ih =>
      simp only [List.map_cons, callFollows, Lexeme.unplaced_token, h, if_true]
      exact ih
  | case4 l m ls h =>
      simp only [List.map_cons, callFollows, Lexeme.unplaced_token, h, Bool.false_eq_true, if_false]

@[simp] theorem Lookahead.holds_unplaced (l : Lookahead) (ls : List Lexeme) :
    l.holds (ls.map Lexeme.unplaced) = l.holds ls := by
  cases l with
  | next ts => exact nextIn_unplaced ts ls
  | notNext t => cases ls <;> rfl
  | dottedCall =>
      cases ls with
      | nil => rfl
      | cons l ls =>
          rw [List.map_cons, holds, holds, callFollows_unplaced, Lexeme.unplaced_token]

theorem Shape.apply_unplaced (s : Shape) (us : List Lexeme) (ts : List Tree) :
    s.apply (us.map Lexeme.unplaced) (ts.map Tree.unplaced) =
      (s.apply us ts).map Tree.unplaced := by
  cases s with
  | bare => rfl
  | node k => simp [apply, Tree.unplaced_over]
  | ifMany k => by_cases h : 1 < ts.length <;> simp [apply, h, Tree.unplaced_over]

/-! ### Rules -/

/-- Whether parsing commutes with `unplaced`. -/
def Placeless (f : List Lexeme → Outcome) : Prop :=
  ∀ ls, f (ls.map Lexeme.unplaced) = (f ls).unplaced

theorem Outcome.unplaced_andThen {next : List Lexeme → Outcome} (h : Placeless next)
    (o : Outcome) : (o.andThen next).unplaced = o.unplaced.andThen next := by
  cases o with
  | failed e rest => rfl
  | done ns us rest =>
      simp only [andThen, unplaced, h rest]
      cases next rest with
      | failed e rest' => rfl
      | done ns' us' rest' => simp only [List.map_append]

theorem Outcome.unplaced_shaped (o : Outcome) (s : Shape) :
    (o.shaped s).unplaced = o.unplaced.shaped s := by
  cases o with
  | failed e rest => rfl
  | done ns us rest => simp only [shaped, unplaced, s.apply_unplaced]

namespace Rule

theorem placeless_parseToken (t : Terminal) (e : Expectation) : Placeless (parseToken t e) := by
  intro ls
  cases ls with
  | nil => rfl
  | cons l ls =>
      by_cases h : t.accepts l.token = true <;> simp [parseToken, h, Outcome.unplaced]

theorem placeless_parseMany {l : Lookahead} {step : List Lexeme → Outcome}
    (hstep : Placeless step) (fuel : Nat) : Placeless (parseMany l step fuel) := by
  induction fuel with
  | zero => intro ls; rfl
  | succ fuel ih =>
      intro ls
      simp only [parseMany, Lookahead.holds_unplaced]
      split
      · rw [Outcome.unplaced_andThen ih, hstep ls]
      · rfl

theorem placeless_parseWith {named : Nonterminal → List Lexeme → Outcome}
    (hnamed : ∀ n, Placeless (named n)) (bound : Nat) (r : Rule) :
    Placeless (r.parseWith named bound) := by
  induction r with
  | empty => intro ls; rfl
  | token t e => exact placeless_parseToken t e
  | demand l e =>
      intro ls
      simp only [parseWith, Lookahead.holds_unplaced]
      split <;> rfl
  | seq r s ihr ihs =>
      intro ls
      rw [parseWith, parseWith, Outcome.unplaced_andThen ihs, ihr ls]
  | branch l y n ihy ihn =>
      intro ls
      simp only [parseWith, Lookahead.holds_unplaced]
      split
      · exact ihy ls
      · exact ihn ls
  | many l b ih => exact placeless_parseMany ih bound
  | sepBy item t ih =>
      have hstep : Placeless fun ls =>
          (parseToken t (.terminal t) ls).andThen (item.parseWith named bound) := by
        intro ls
        show (parseToken t _ (ls.map Lexeme.unplaced)).andThen _ = _
        rw [Outcome.unplaced_andThen ih, placeless_parseToken t _ ls]
      intro ls
      rw [parseWith, parseWith, Outcome.unplaced_andThen (placeless_parseMany hstep bound), ih ls]
  | wrap s b ih =>
      intro ls
      rw [parseWith, parseWith, Outcome.unplaced_shaped, ih ls]
  | fork r l ys y ns n ihr ihy ihn =>
      intro ls
      rw [parseWith, parseWith, ihr ls]
      cases r.parseWith named bound ls with
      | failed e rest => rfl
      | done nodes us rest =>
          simp only [Outcome.unplaced_done, Lookahead.holds_unplaced]
          split
          · rw [Outcome.unplaced_shaped, Outcome.unplaced_andThen ihy, Outcome.unplaced_done]
          · rw [Outcome.unplaced_shaped, Outcome.unplaced_andThen ihn, Outcome.unplaced_done]
  | call n => exact hnamed n
  | attempt r l s ihr ihs =>
      intro ls
      rw [parseWith, parseWith, ihr ls, ihs ls]
      cases r.parseWith named bound ls with
      | failed e rest => rfl
      | done nodes us rest =>
          simp only [Outcome.unplaced_done, Lookahead.holds_unplaced]
          split <;> rfl

theorem placeless_parseTo (depth : Nat) (n : Nonterminal) :
    Placeless (Nonterminal.parseTo depth n) := by
  induction depth generalizing n with
  | zero => intro ls; rfl
  | succ depth ih => exact placeless_parseWith ih depth (Grammar.production n)

/-- **Parsing commutes with moving all lexemes to the start of the text.** -/
theorem parse_unplaced (r : Rule) (ls : List Lexeme) :
    r.parse (ls.map Lexeme.unplaced) = (r.parse ls).unplaced := by
  rw [parse, parse, List.length_map]
  exact placeless_parseWith (placeless_parseTo _) _ r ls

/-- Lexemes that differ in their places alone are parsed alike. -/
theorem unplaced_parse_congr (r : Rule) {us vs : List Lexeme}
    (h : us.map Lexeme.content = vs.map Lexeme.content) :
    (r.parse us).unplaced = (r.parse vs).unplaced := by
  rw [← parse_unplaced, Lexeme.map_unplaced_congr h, parse_unplaced]

end Rule

end BindCheck

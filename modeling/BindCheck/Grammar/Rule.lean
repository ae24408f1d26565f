import BindCheck.Grammar.Terminal
import BindCheck.Tree.Basic

/-!
# BindCheck.Grammar.Rule

A language of grammar rules, and what it means to parse with one. **The grammar of
queries is data in this language** (`BindCheck.Grammar.Query`), so what holds of every
rule is shown once, by induction on rules, and not once for each rule.

Design points:

* **The input is the list of lexemes still ahead.** There is no index: a rule splits
  the list into what it took and the rest, and only `token` takes one.
* **Choice is by lookahead.** The one rule that goes back is `attempt`, and it goes back
  to a list that it still holds.
* A rule yields the nodes found at its level; `wrap` and `fork` put them under a node of
  their own, whose text and place are those of the lexemes taken.
* A failure says what was expected and keeps the list from the token that did not fit.
-/

namespace BindCheck

/-- The rules that refer to themselves, and are called by name. -/
inductive Nonterminal where
  /-- One query up to a `UNION` or the end. -/
  | singleQuery
  /-- What is left of a query from the start of one of its parts. -/
  | queryTail
  | patternElement
  | expression
  | comparison
  | sum
  | unary
  deriving Repr, DecidableEq

/-- What becomes of the nodes that a rule finds. -/
inductive Shape where
  /-- They stay as they are. -/
  | bare
  /-- They are the children of one node. -/
  | node (k : NodeKind)
  /-- They are the children of one node if there are two or more. -/
  | ifMany (k : NodeKind)
  deriving Repr, DecidableEq

/-- A rule of the grammar. -/
inductive Rule where
  /-- Takes nothing. -/
  | empty
  /-- Takes one token of a set. -/
  | token (t : Terminal) (e : Expectation)
  /-- Takes nothing, and fails unless the lookahead holds. -/
  | demand (l : Lookahead) (e : Expectation)
  /-- One rule and then another. -/
  | seq (r s : Rule)
  /-- One of two rules, as the lookahead says. -/
  | branch (l : Lookahead) (yes no : Rule)
  /-- A rule again and again, as long as the lookahead holds. -/
  | many (l : Lookahead) (body : Rule)
  /-- A rule once, and again after each separator. -/
  | sepBy (item : Rule) (separator : Terminal)
  /-- A rule whose nodes get a shape. -/
  | wrap (s : Shape) (body : Rule)
  /-- A rule, and then one of two as the lookahead says, which also decides on the shape
  of all the nodes. -/
  | fork (first : Rule) (l : Lookahead) (yesShape : Shape) (yes : Rule)
      (noShape : Shape) (no : Rule)
  /-- A rule that is called by name. -/
  | call (n : Nonterminal)
  /-- A rule that counts only if it succeeds where the lookahead holds; if it does not,
  the other rule is used on the same tokens. -/
  | attempt (first : Rule) (l : Lookahead) (other : Rule)
  deriving Repr

/-- The node over some lexemes: their text, and the place of the first of them. -/
def Tree.over (k : NodeKind) (taken : List Lexeme) (children : List Tree) : Tree where
  kind := k
  text := Lexeme.join taken
  position := (taken.head?.map Lexeme.position).getD Position.start
  children := children

/-- Gives nodes their shape over the lexemes that they were found in. -/
def Shape.apply (s : Shape) (taken : List Lexeme) (ts : List Tree) : List Tree :=
  match s with
  | bare => ts
  | node k => [Tree.over k taken ts]
  | ifMany k => if 1 < ts.length then [Tree.over k taken ts] else ts

/-- How a rule ends. -/
inductive Outcome where
  /-- With nodes, after taking some lexemes, before the rest. -/
  | done (nodes : List Tree) (taken rest : List Lexeme)
  /-- At the first lexeme of the rest, where something else was expected. -/
  | failed (e : Expectation) (rest : List Lexeme)
  deriving Repr

namespace Outcome

/-- Goes on behind a success, and puts together what both have found and taken. -/
def andThen (o : Outcome) (next : List Lexeme → Outcome) : Outcome :=
  match o with
  | failed e rest => failed e rest
  | done ns taken rest =>
    match next rest with
    | failed e rest' => failed e rest'
    | done ns' taken' rest' => done (ns ++ ns') (taken ++ taken') rest'

/-- Gives the nodes of a success a shape. -/
def shaped (o : Outcome) (s : Shape) : Outcome :=
  match o with
  | failed e rest => failed e rest
  | done ns taken rest => done (s.apply taken ns) taken rest

end Outcome

namespace Rule

/-- Takes one token of a set. -/
def parseToken (t : Terminal) (e : Expectation) : List Lexeme → Outcome
  | [] => .failed e []
  | l :: ls => if t.accepts l.token then .done [] [l] ls else .failed e (l :: ls)

/-- Repeats a step as long as the lookahead holds. Each step takes a lexeme, so `fuel`
is enough once it is the number of lexemes. -/
def parseMany (l : Lookahead) (step : List Lexeme → Outcome) : Nat → List Lexeme → Outcome
  | 0, ls => .done [] [] ls
  | fuel + 1, ls =>
    if l.holds ls then (step ls).andThen (parseMany l step fuel) else .done [] [] ls

/-- Parses the tokens ahead with a rule, given how named rules are parsed, and a bound on
repetitions that is at least the number of lexemes. -/
def parseWith (named : Nonterminal → List Lexeme → Outcome) (bound : Nat) :
    Rule → List Lexeme → Outcome
  | empty, ls => .done [] [] ls
  | token t e, ls => parseToken t e ls
  | demand l e, ls => if l.holds ls then .done [] [] ls else .failed e ls
  | seq r s, ls => (r.parseWith named bound ls).andThen (s.parseWith named bound)
  | branch l yes no, ls =>
    if l.holds ls then yes.parseWith named bound ls else no.parseWith named bound ls
  | many l body, ls => parseMany l (body.parseWith named bound) bound ls
  | sepBy item separator, ls =>
    (item.parseWith named bound ls).andThen <|
      parseMany (.next [separator])
        (fun ls' => (parseToken separator (.terminal separator) ls').andThen
          (item.parseWith named bound))
        bound
  | wrap s body, ls => (body.parseWith named bound ls).shaped s
  | fork first l yesShape yes noShape no, ls =>
    match first.parseWith named bound ls with
    | .failed e rest => .failed e rest
    | .done ns taken rest =>
      if l.holds rest then
        ((Outcome.done ns taken rest).andThen (yes.parseWith named bound)).shaped yesShape
      else ((Outcome.done ns taken rest).andThen (no.parseWith named bound)).shaped noShape
  | call n, ls => named n ls
  | attempt first l other, ls =>
    match first.parseWith named bound ls with
    | .failed _ _ => other.parseWith named bound ls
    | .done ns taken rest =>
      if l.holds rest then .done ns taken rest else other.parseWith named bound ls

/-! ### Short forms -/

/-- Takes one token of a set, and expects just that. -/
def take (t : Terminal) : Rule := token t (.terminal t)

/-- Takes a reserved word. -/
def word (k : Keyword) : Rule := take (.keyword k)

/-- Takes a symbol. -/
def sign (s : Symbol) : Rule := take (.symbol s)

/-- Takes a token of a set if one is next. -/
def optional (t : Terminal) : Rule := branch (.next [t]) (take t) empty

/-- Uses a rule if a token of a set is next. -/
def whenNext (t : Terminal) (r : Rule) : Rule := branch (.next [t]) r empty

/-- Puts what a rule finds under one node. -/
def node (k : NodeKind) (r : Rule) : Rule := wrap (.node k) r

/-- Several rules in a row. -/
def row : List Rule → Rule
  | [] => empty
  | [r] => r
  | r :: rs => seq r (row rs)

/-- Operands with an operator between each two. A single operand stays as it is. -/
def level (k : NodeKind) (operator : Terminal) (operand : Rule) : Rule :=
  wrap (.ifMany k) (sepBy operand operator)

end Rule

end BindCheck

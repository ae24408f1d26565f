import BindCheck.Proofs.CallAttempts

/-!
# BindCheck.Proofs.FunctionNames

**Where a call of a function is seen, its name is read.** A name is a function if a parenthesis is
opened behind it, after any number of further names behind dots. The question looks past all of
them, and the rule for a call takes them again; the rule goes on at any dot, and the question only
at a dot with a name behind it. Still both stop at the same parenthesis (`CallAgrees`): a dot
without a name is no parenthesis, so the question is answered in the negative there.

So an atom that begins with a name fails, if at all, among the arguments of a call.
-/

namespace BindCheck

namespace Form

/-- Any number of further names, each behind a dot. -/
def furtherNames : Form := (sign .dot * name).star

/-- The name of a function. Only its first part may be no reserved word. -/
def functionName : Form := token .identifier * furtherNames

end Form

/-- What stands behind the parenthesis that opens a call of a function. -/
def Grammar.arguments : Rule :=
  .row [.optional (.keyword .DISTINCT), expressionsUpTo .rightParen, .sign .rightParen]

/-! ### Names behind dots -/

section

variable {x : Lexeme} {ls : List Lexeme}

/-- Induction over names behind dots. -/
theorem Yields.dots_induction {P : List Lexeme → Prop} (nil : P [])
    (cons : ∀ d n us, (Terminal.symbol .dot).accepts d.token = true →
      Terminal.name.accepts n.token = true → P us → P (d :: n :: us))
    {us : List Lexeme} (h : Yields Form.furtherNames (us.map Lexeme.token)) : P us := by
  generalize hks : us.map Lexeme.token = ks at h
  refine star_induction (P := fun ks => ∀ us : List Lexeme, us.map Lexeme.token = ks → P us)
    ?_ ?_ h us hks
  · intro us hus
    rwa [List.map_eq_nil_iff.mp hus]
  · intro _ _ hround _ ih us hus
    obtain ⟨_, _, rfl, hdot, hname⟩ := mul_iff.mp hround
    obtain ⟨_, rfl, hd⟩ := token_iff.mp hdot
    obtain ⟨_, rfl, hn⟩ := token_iff.mp hname
    obtain ⟨d, _, rfl, rfl, hrest⟩ := List.map_eq_cons_iff.mp hus
    obtain ⟨n, us', rfl, rfl, hus'⟩ := List.map_eq_cons_iff.mp hrest
    exact cons d n us' hd hn (ih us' hus')

/-- A dot and a name, in front of others. -/
theorem Yields.dots_cons {d n : Lexeme} {us : List Lexeme}
    (hd : (Terminal.symbol .dot).accepts d.token = true)
    (hn : Terminal.name.accepts n.token = true)
    (h : Yields Form.furtherNames (us.map Lexeme.token)) :
    Yields Form.furtherNames ((d :: n :: us).map Lexeme.token) :=
  star_cons ((token_iff.mpr ⟨_, rfl, hd⟩).mul (token_iff.mpr ⟨_, rfl, hn⟩)) h

theorem Terminal.accepts_symbol {s : Symbol} {k : Token} :
    (symbol s).accepts k = true ↔ k = .symbol s := by
  cases k with
  | symbol s' =>
      show (s == s') = true ↔ _
      rw [beq_iff_eq, Token.symbol.injEq, eq_comm]
  | _ => exact iff_of_false Bool.false_ne_true (by simp)

namespace Lookahead

/-- **Where a parenthesis is seen behind dots and names, it stands there.** -/
theorem callFollows_iff :
    callFollows ls = true ↔ ∃ us p vs, ls = us ++ p :: vs ∧
      Yields Form.furtherNames (us.map Lexeme.token) ∧ p.token = .symbol .leftParen := by
  constructor
  · intro h
    induction ls using callFollows.induct with
    | case1 => exact Bool.noConfusion h
    | case2 l => exact ⟨[], l, [], rfl, .star_nil, Terminal.accepts_symbol.mp h⟩
    | case3 l m ls hgo ih =>
        obtain ⟨hl, hm⟩ := Bool.and_eq_true_iff.mp hgo
        rw [callFollows, if_pos hgo] at h
        obtain ⟨us, p, vs, rfl, hus, hp⟩ := ih h
        exact ⟨l :: m :: us, p, vs, rfl, hus.dots_cons hl hm, hp⟩
    | case4 l m ls hstop =>
        rw [callFollows, if_neg hstop] at h
        exact ⟨[], l, m :: ls, rfl, .star_nil, Terminal.accepts_symbol.mp h⟩
  · rintro ⟨us, p, vs, rfl, hus, hp⟩
    refine hus.dots_induction (P := fun us => callFollows (us ++ p :: vs) = true) ?_ ?_
    · have hparen : (Terminal.symbol .leftParen).accepts p.token = true :=
        Terminal.accepts_symbol.mpr hp
      have hdot : (Terminal.symbol .dot).accepts p.token = false := by
        rw [hp]
        rfl
      cases vs with
      | nil => exact hparen
      | cons v vs =>
          rw [List.nil_append, callFollows, hdot, Bool.false_and, if_neg Bool.false_ne_true]
          exact hparen
    · intro d n us hd hn ih
      rwa [List.cons_append, List.cons_append, callFollows, hd, hn, Bool.and_true, if_pos rfl]

/-! ### The tokens at an index -/

/-- The token so many places ahead. Behind the last one there is no other: it is seen again. -/
def peek (ls : List Lexeme) (i : Nat) : Option Token := ls[min i (ls.length - 1)]?.map Lexeme.token

/-- Whether another name follows behind so many names: a dot, and a name behind it. -/
def goesOn (ls : List Lexeme) (n : Nat) : Bool :=
  (peek ls (2 * n + 1)).any (Terminal.symbol .dot).accepts &&
    (peek ls (2 * n + 2)).any Terminal.name.accepts

theorem peek_add_two (l m x : Lexeme) (ls : List Lexeme) (i : Nat) :
    peek (x :: l :: m :: ls) (i + 2) = peek (m :: ls) i := by
  have hmin : min (i + 2) ((x :: l :: m :: ls).length - 1) =
      min i ((m :: ls).length - 1) + 2 := by
    simp only [List.length_cons]
    omega
  rw [peek, hmin]
  rfl

theorem goesOn_succ (l m x : Lexeme) (ls : List Lexeme) (n : Nat) :
    goesOn (x :: l :: m :: ls) (n + 1) = goesOn (m :: ls) n := by
  have hdot : 2 * (n + 1) + 1 = 2 * n + 1 + 2 := by omega
  have hname : 2 * (n + 1) + 2 = 2 * n + 2 + 2 := by omega
  rw [goesOn, goesOn, hdot, hname, peek_add_two, peek_add_two]

/-- **The question ends** after some number of names, and is whether a parenthesis is next. -/
theorem callFollows_ends (ls : List Lexeme) (hx : Terminal.name.accepts x.token = true) :
    ∃ n ≤ ls.length, (∀ i < n, goesOn (x :: ls) i = true) ∧ goesOn (x :: ls) n = false ∧
      callFollows ls = (peek (x :: ls) (2 * n + 1)).any (Terminal.symbol .leftParen).accepts := by
  induction ls using callFollows.induct generalizing x with
  | case1 =>
      have hdot : (Terminal.symbol .dot).accepts x.token = false :=
        Terminal.accepts_eq_false_of_disjoint (t := .name) (by decide) hx
      have hparen : (Terminal.symbol .leftParen).accepts x.token = false :=
        Terminal.accepts_eq_false_of_disjoint (t := .name) (by decide) hx
      refine ⟨0, Nat.le_refl _, fun i hi => absurd hi (Nat.not_lt_zero i), ?_, ?_⟩
      · simp [goesOn, peek, hdot]
      · simp [callFollows, peek, hparen]
  | case2 l =>
      -- no token is both a dot and a name
      have hboth : ((Terminal.symbol .dot).accepts l.token && Terminal.name.accepts l.token) =
          false := by
        rw [Bool.and_eq_false_imp]
        exact Terminal.accepts_eq_false_of_disjoint (by decide)
      refine ⟨0, Nat.zero_le _, fun i hi => absurd hi (Nat.not_lt_zero i), ?_, ?_⟩
      · simpa [goesOn, peek] using hboth
      · simp [callFollows, peek]
  | case3 l m ls hgo ih =>
      obtain ⟨n, hn, hrounds, hstop, hanswer⟩ := ih (Bool.and_eq_true_iff.mp hgo).2
      refine ⟨n + 1, by simp only [List.length_cons]; omega, fun i hi => ?_, ?_, ?_⟩
      · cases i with
        | zero => simpa [goesOn, peek] using hgo
        | succ i => rw [goesOn_succ, hrounds i (by omega)]
      · rw [goesOn_succ, hstop]
      · have hparen : 2 * (n + 1) + 1 = 2 * n + 1 + 2 := by omega
        rw [callFollows, if_pos hgo, hanswer, hparen, peek_add_two]
  | case4 l m ls hstop =>
      refine ⟨0, Nat.zero_le _, fun i hi => absurd hi (Nat.not_lt_zero i), ?_, ?_⟩
      · simpa [goesOn, peek] using hstop
      · simp [callFollows, hstop, peek]

end Lookahead

end

/-! ### Reading a call -/

/-- That a call of a function stands ahead: its name, the parenthesis behind it, and the rest. -/
structure CallAhead (ls us : List Lexeme) (p : Lexeme) (vs : List Lexeme) : Prop where
  eq : ls = us ++ p :: vs
  name : Yields Form.functionName (us.map Lexeme.token)
  paren : p.token = .symbol .leftParen

theorem CallAhead.exists_cons {ls us vs : List Lexeme} {p : Lexeme} (h : CallAhead ls us p vs) :
    ∃ x us', us = x :: us' ∧ Terminal.identifier.accepts x.token = true ∧
      Yields Form.furtherNames (us'.map Lexeme.token) := by
  obtain ⟨_, _, hus, hfirst, hdots⟩ := Yields.mul_iff.mp h.name
  obtain ⟨_, rfl, hx⟩ := Yields.token_iff.mp hfirst
  obtain ⟨x, us', rfl, rfl, rfl⟩ := List.map_eq_cons_iff.mp hus
  exact ⟨x, us', rfl, hx, hdots⟩

/-- **A call is seen just where one stands.** -/
theorem Lookahead.dottedCall_iff {ls : List Lexeme} :
    dottedCall.holds ls = true ↔ ∃ us p vs, CallAhead ls us p vs := by
  constructor
  · intro h
    cases ls with
    | nil => exact Bool.noConfusion h
    | cons x ls =>
        obtain ⟨hx, hcall⟩ := Bool.and_eq_true_iff.mp h
        obtain ⟨us, p, vs, rfl, hus, hp⟩ := callFollows_iff.mp hcall
        exact ⟨x :: us, p, vs, rfl, (Yields.token_iff.mpr ⟨_, rfl, hx⟩).mul hus, hp⟩
  · rintro ⟨us, p, vs, h⟩
    obtain ⟨x, us', rfl, hx, hdots⟩ := h.exists_cons
    rw [h.eq, List.cons_append, holds, hx, Bool.true_and]
    exact callFollows_iff.mpr ⟨us', p, vs, rfl, hdots, h.paren⟩

namespace Rule

variable {named : Nonterminal → List Lexeme → Outcome} {bound : Nat}

theorem parseToken_of_accepts {t : Terminal} {l : Lexeme} (h : t.accepts l.token = true)
    (e : Expectation) (ls : List Lexeme) : parseToken t e (l :: ls) = .done [] [l] ls := by
  rw [parseToken, if_pos h]

/-- The names behind dots are taken up to a parenthesis. -/
theorem parseMany_dots {us vs : List Lexeme} {p : Lexeme}
    (h : Yields Form.furtherNames (us.map Lexeme.token))
    (hp : p.token = .symbol .leftParen) : ∀ fuel, us.length ≤ fuel →
      parseMany (.next [.symbol .dot])
          ((row [sign .dot, Grammar.someName]).parseWith named bound) fuel (us ++ p :: vs) =
        .done [] us (p :: vs) := by
  have hstop : (Lookahead.next [.symbol .dot]).holds (p :: vs) = false := by
    rw [Lookahead.holds, Lookahead.nextIn, hp]
    rfl
  refine h.dots_induction (P := fun us => ∀ fuel, us.length ≤ fuel → parseMany
    (.next [.symbol .dot]) ((row [sign .dot, Grammar.someName]).parseWith named bound) fuel
      (us ++ p :: vs) = .done [] us (p :: vs)) ?_ ?_
  · intro fuel _
    cases fuel with
    | zero => rfl
    | succ fuel => rw [List.nil_append, parseMany, hstop, if_neg Bool.false_ne_true]
  · intro d n us hd hn ih fuel hfuel
    rw [List.length_cons, List.length_cons] at hfuel
    obtain ⟨fuel, rfl⟩ : ∃ m, fuel = m + 1 := ⟨fuel - 1, by omega⟩
    have hgo : (Lookahead.next [.symbol .dot]).holds (d :: n :: (us ++ p :: vs)) = true := by
      rw [Lookahead.holds, Lookahead.nextIn, hd]
      rfl
    have hround : (row [sign .dot, Grammar.someName]).parseWith named bound
        (d :: n :: (us ++ p :: vs)) = .done [] [d, n] (us ++ p :: vs) :=
      Outcome.andThen_done (parseToken_of_accepts hd _ _) (parseToken_of_accepts hn _ _)
    rw [List.cons_append, List.cons_append, parseMany, if_pos hgo]
    exact Outcome.andThen_done hround (ih fuel (by omega))

section

variable {ls us vs : List Lexeme} {p : Lexeme}

/-- **The name of a function is read up to its parenthesis**, and read without fail. -/
theorem parseWith_functionName (h : CallAhead ls us p vs) (hbound : ls.length ≤ bound) :
    (node .functionName Grammar.dottedName).parseWith named bound ls =
      .done [Tree.over .functionName us []] us (p :: vs) := by
  obtain ⟨x, us', rfl, hx, hdots⟩ := h.exists_cons
  have hname : Terminal.name.accepts x.token = true :=
    Terminal.accepts_of_within (t := .identifier) (by decide) hx
  have hlength : us'.length ≤ bound := by
    rw [h.eq, List.length_append, List.length_cons] at hbound
    omega
  have hmany : parseMany (.next [.symbol .dot])
      ((row [sign .dot, Grammar.someName]).parseWith named bound) bound (us' ++ p :: vs) =
        .done [] us' (p :: vs) := parseMany_dots hdots h.paren bound hlength
  have hdotted : Grammar.dottedName.parseWith named bound ls = .done [] (x :: us') (p :: vs) := by
    rw [h.eq]
    exact Outcome.andThen_done (parseToken_of_accepts hname _ _) hmany
  rw [node, parseWith, hdotted]
  rfl

/-- So a call of a function is read as its arguments are, behind the name and the parenthesis. -/
theorem parseWith_functionInvocation (h : CallAhead ls us p vs) (hbound : ls.length ≤ bound) :
    Grammar.functionInvocation.parseWith named bound ls =
      ((Outcome.done [Tree.over .functionName us []] (us ++ [p]) vs).andThen
        (Grammar.arguments.parseWith named bound)).shaped (.node .functionInvocation) := by
  have hparen : (sign .leftParen).parseWith named bound (p :: vs) = .done [] [p] vs :=
    parseToken_of_accepts (Terminal.accepts_symbol.mpr h.paren) _ _
  show (((node .functionName Grammar.dottedName).parseWith named bound ls).andThen fun rest =>
    ((sign .leftParen).parseWith named bound rest).andThen
      (Grammar.arguments.parseWith named bound)).shaped (.node .functionInvocation) = _
  rw [parseWith_functionName h hbound, Outcome.andThen]
  simp only [hparen, Outcome.andThen]
  cases Grammar.arguments.parseWith named bound vs with
  | failed e rest => rfl
  | done ns taken rest => simp only [List.nil_append, List.append_assoc]

/-- The alternatives for other first tokens are left out. -/
theorem parseWith_choose_other {forms : List (Terminal × Rule)} {other : Rule}
    (h : ∀ f ∈ forms, (Lookahead.next [f.1]).holds ls = false) :
    (choose forms other).parseWith named bound ls = other.parseWith named bound ls := by
  induction forms with
  | nil => rfl
  | cons f forms ih =>
      obtain ⟨hf, hforms⟩ := List.forall_mem_cons.mp h
      show (if (Lookahead.next [f.1]).holds ls = true then f.2.parseWith named bound ls
        else (choose forms other).parseWith named bound ls) = _
      rw [hf, if_neg Bool.false_ne_true, ih hforms]

/-- A count of rows that is seen is read without fail. -/
theorem parseWith_countStar {e : Expectation} {rest : List Lexeme}
    (h : (Lookahead.next [.countWord, .symbol .leftParen, .symbol .star,
      .symbol .rightParen]).holds ls = true) :
    Grammar.countStar.parseWith named bound ls ≠ .failed e rest := by
  rcases ls with _ | ⟨c, _ | ⟨l, _ | ⟨s, _ | ⟨r, ls⟩⟩⟩⟩
  case cons.cons.cons.cons =>
    simp only [Lookahead.holds, Lookahead.nextIn, Bool.and_true, Bool.and_eq_true] at h
    obtain ⟨hc, hl, hs, hr⟩ := h
    have hdone : Grammar.countStar.parseWith named bound (c :: l :: s :: r :: ls) = .done
        [Tree.over .countStar [c, l, s, r] []] [c, l, s, r] ls := by
      simp [Grammar.countStar, node, row, take, sign, parseWith, parseToken, hc, hl, hs, hr,
        Outcome.andThen, Outcome.shaped, Shape.apply]
    rw [hdone]
    exact fun hfailed => Outcome.noConfusion hfailed
  all_goals simp [Lookahead.holds, Lookahead.nextIn] at h

/-- **An atom that begins with a name fails among the arguments of a call**, if at all. -/
theorem parseWith_atom_failed {e : Expectation} {rest : List Lexeme}
    (hname : (Lookahead.next [.identifier]).holds ls = true) (hbound : ls.length ≤ bound)
    (h : Grammar.atom.parseWith named bound ls = .failed e rest) :
    ∃ us p vs, CallAhead ls us p vs ∧
      Grammar.arguments.parseWith named bound vs = .failed e rest := by
  have hdisjoint : ∀ f ∈ Grammar.atomForms, Terminal.identifier.disjoint f.1 = true := by decide
  rw [Grammar.atom_eq_choose, parseWith_choose_other fun f hf =>
    Lookahead.fails_of_disjoint hname (hdisjoint f hf), Grammar.nameForms, parseWith] at h
  split at h
  · next hcount => exact absurd h (parseWith_countStar hcount)
  · rw [parseWith] at h
    split at h
    · next hcall =>
        obtain ⟨us, p, vs, hahead⟩ := Lookahead.dottedCall_iff.mp hcall
        refine ⟨us, p, vs, hahead, ?_⟩
        rw [parseWith_functionInvocation hahead hbound, Outcome.andThen] at h
        cases harguments : Grammar.arguments.parseWith named bound vs with
        | failed e' rest' =>
            rw [harguments] at h
            exact h
        | done ns taken rest' =>
            rw [harguments] at h
            exact Outcome.noConfusion h
    · -- a variable is the name itself
      cases ls with
      | nil => exact Bool.noConfusion hname
      | cons x ls =>
          have hx : Terminal.identifier.accepts x.token = true := (Bool.and_eq_true_iff.mp hname).1
          rw [node, parseWith, parseWith, parseToken_of_accepts hx] at h
          exact Outcome.noConfusion h

end

end Rule

/-! ### The question and the rule -/

/-- **That the question whether a call follows agrees with the rule for calls**, with the given
lexemes ahead. -/
structure CallAgrees (ls : List Lexeme) : Prop where
  /-- The question ends behind some number of names, and is answered by the token that is next. -/
  ends : ∃ n < ls.length, (∀ i < n, Lookahead.goesOn ls i = true) ∧
    Lookahead.goesOn ls n = false ∧
      Lookahead.dottedCall.holds ls =
        (Lookahead.peek ls (2 * n + 1)).any (Terminal.symbol .leftParen).accepts
  /-- The answer is right. -/
  holds_iff : Lookahead.dottedCall.holds ls = true ↔ ∃ us p vs, CallAhead ls us p vs
  /-- The rule takes that name and that parenthesis, and goes on with the arguments. -/
  reads : ∀ us p vs, CallAhead ls us p vs → ∀ named bound, ls.length ≤ bound →
    (Rule.node .functionName Grammar.dottedName).parseWith named bound ls =
        .done [Tree.over .functionName us []] us (p :: vs) ∧
      Grammar.functionInvocation.parseWith named bound ls =
        ((Outcome.done [Tree.over .functionName us []] (us ++ [p]) vs).andThen
          (Grammar.arguments.parseWith named bound)).shaped (.node .functionInvocation)
  /-- An atom that fails here fails among the arguments of a call. -/
  failed : ∀ named bound e rest, ls.length ≤ bound →
    Grammar.atom.parseWith named bound ls = .failed e rest →
      ∃ us p vs, CallAhead ls us p vs ∧
        Grammar.arguments.parseWith named bound vs = .failed e rest

/-- **Where a name is next, the question whether a call follows ends, and agrees with the rule for
calls.** The rule is only used where the question is answered in the affirmative, and so its name
and its parenthesis are there. -/
theorem call_agrees {ls : List Lexeme} (h : (Lookahead.next [.identifier]).holds ls = true) :
    CallAgrees ls where
  ends := by
    cases ls with
    | nil => exact Bool.noConfusion h
    | cons x ls =>
        have hx : Terminal.identifier.accepts x.token = true := (Bool.and_eq_true_iff.mp h).1
        obtain ⟨n, hn, hrounds, hstop, hanswer⟩ := Lookahead.callFollows_ends ls
          (Terminal.accepts_of_within (t := .identifier) (by decide) hx)
        refine ⟨n, Nat.lt_succ_of_le hn, hrounds, hstop, ?_⟩
        rw [Lookahead.holds, hx, Bool.true_and, hanswer]
  holds_iff := Lookahead.dottedCall_iff
  reads _ _ _ hahead _ _ hbound :=
    ⟨Rule.parseWith_functionName hahead hbound, Rule.parseWith_functionInvocation hahead hbound⟩
  failed _ _ _ _ hbound := Rule.parseWith_atom_failed h hbound

/-- A reserved word behind the dot, and a call that breaks off at the end of the text. -/
theorem call_agrees_of_unclosed :
    ∃ ls, tokenize "text.match(" = .ok ls ∧ (Lookahead.next [.identifier]).holds ls = true ∧
      Lookahead.dottedCall.holds ls = true ∧ CallAgrees ls ∧
        ∃ us p vs e rest, CallAhead ls us p vs ∧ Grammar.atom.parse ls = .failed e rest ∧
          Grammar.arguments.parseWith (Nonterminal.parseTo (ls.length + 1)) (ls.length + 1) vs =
            .failed e rest := by
  have hread : tokenize "text.match(" = .ok
      [⟨.identifier "text", "text", ⟨1, 0⟩⟩, ⟨.symbol .dot, ".", ⟨1, 4⟩⟩,
       ⟨.keyword .MATCH, "match", ⟨1, 5⟩⟩, ⟨.symbol .leftParen, "(", ⟨1, 10⟩⟩,
       .ending ⟨1, 11⟩] := by
    decide +kernel
  have hagrees : CallAgrees [⟨.identifier "text", "text", ⟨1, 0⟩⟩,
      ⟨.symbol .dot, ".", ⟨1, 4⟩⟩, ⟨.keyword .MATCH, "match", ⟨1, 5⟩⟩,
      ⟨.symbol .leftParen, "(", ⟨1, 10⟩⟩, .ending ⟨1, 11⟩] := call_agrees rfl
  have hfailed : Grammar.atom.parse [⟨.identifier "text", "text", ⟨1, 0⟩⟩,
      ⟨.symbol .dot, ".", ⟨1, 4⟩⟩, ⟨.keyword .MATCH, "match", ⟨1, 5⟩⟩,
      ⟨.symbol .leftParen, "(", ⟨1, 10⟩⟩, .ending ⟨1, 11⟩] =
        .failed .expression [.ending ⟨1, 11⟩] := by
    rfl
  obtain ⟨us, p, vs, hahead, harguments⟩ := hagrees.failed _ _ _ _ (Nat.le_succ _) hfailed
  exact ⟨_, hread, rfl, rfl, hagrees, us, p, vs, _, _, hahead, hfailed, harguments⟩

end BindCheck

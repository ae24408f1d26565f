import BindCheck.Proofs.Separators

/-!
# BindCheck.Proofs.Insertion

**A clause that is put between two lexemes changes no other lexeme.** ` WITH * ` stands between
blanks, and a blank ends whatever stands in front of it:

* a token that ends somewhere in front of the blank ends at the same place, however the text goes
  on behind the blank (`scan_separated`);
* what stands in front of the new lexemes stays where it was, and what stands behind them is moved
  as far as they are long, up to the end of the line (`Position.shift`).

So the text with the clause has the lexemes of the text without it, and those of the clause in
their place (`Reads.insert`, `tokenize_insert`).
-/

namespace BindCheck

/-! ### Trivia in front of a blank -/

/-- In front of a lexeme a blank more is trivia: only a comment that the end of the text closes
would take the blank up. -/
theorem Trivia.snoc_blank {w rest rest' : List Char} (h : Trivia rest w) (hrest : rest ≠ [])
    (hbare : Bare rest) : Trivia rest' (w ++ [' ']) := by
  induction h with
  | none => exact .blank rfl .none
  | blank blank _ ih => exact .blank blank ih
  | @line body w within ends more ih =>
      rw [List.cons_append, List.cons_append, List.append_assoc]
      refine .line within ?_ ih
      cases w with
      | nil =>
          -- the rest would begin with the end of the line
          obtain ⟨c, r, rfl⟩ := List.exists_cons_of_ne_nil hrest
          obtain rfl := ends c rfl
          exact absurd hbare.1 (by decide)
      | cons c w => exact ends
  | @block body w within _ ih =>
      simp only [List.cons_append, List.append_assoc]
      exact .block within ih

/-! ### Places behind what is put in -/

namespace Position

variable {cut p : Position} {n : Nat}

/-- Where a place is when `n` characters, none of them a line feed, are put in at `cut`. -/
def shift (cut : Position) (n : Nat) (p : Position) : Position :=
  if p.Before cut ∨ p.line ≠ cut.line then p else ⟨p.line, p.column + n⟩

theorem shift_of_before (h : p.Before cut) : cut.shift n p = p := if_pos (.inl h)

theorem shift_self : cut.shift n cut = ⟨cut.line, cut.column + n⟩ :=
  if_neg fun h => h.elim (fun h => by unfold Before at h; omega) fun h => h rfl

theorem line_shift : (cut.shift n p).line = p.line := by
  rw [shift]
  split <;> rfl

theorem shift_step (h : ¬p.Before cut) (c : Char) :
    cut.shift n (p.step c) = (cut.shift n p).step c := by
  unfold Before at h
  by_cases hc : c = '\n'
  · -- a place on a later line stays where it is
    have hline : p.line + 1 ≠ cut.line := by omega
    rw [step, step, if_pos hc, if_pos hc, line_shift, shift, if_pos (.inr hline)]
  · by_cases hline : p.line = cut.line
    · rw [step, step, if_neg hc, if_neg hc, shift, shift, if_neg (by simp [Before]; omega),
        if_neg (by simp [Before]; omega), Nat.add_right_comm]
    · rw [step, step, if_neg hc, if_neg hc, shift, shift, if_pos (.inr hline), if_pos (.inr hline)]

theorem not_before_of_after (h : ¬p.Before cut) (cs : List Char) : ¬(p.after cs).Before cut := by
  cases cs with
  | nil => exact h
  | cons c cs => exact fun hbefore => h ((p.before_after (List.cons_ne_nil c cs)).trans hbefore)

theorem shift_after (h : ¬p.Before cut) (cs : List Char) :
    cut.shift n (p.after cs) = (cut.shift n p).after cs := by
  induction cs generalizing p with
  | nil => rfl
  | cons c cs ih =>
      have hstep : ¬(p.step c).Before cut := not_before_of_after h [c]
      rw [after_cons, after_cons, ih hstep, shift_step h]

end Position

/-- A lexeme when `n` characters are put in at a place. -/
def Lexeme.shift (cut : Position) (n : Nat) (l : Lexeme) : Lexeme :=
  { l with position := cut.shift n l.position }

theorem Lexeme.content_shift (cut : Position) (n : Nat) (l : Lexeme) :
    (l.shift cut n).content = l.content := rfl

/-- A piece when `n` characters are put in at a place. -/
def Piece.shift (cut : Position) (n : Nat) (p : Piece) : Piece :=
  { p with lexeme := p.lexeme.shift cut n }

/-- What is read behind a place is read there when characters are put in. -/
theorem Reads.shift {cut : Position} {n : Nat} {p : Position} {text : List Char} {ps : List Piece}
    (h : Reads p text ps) (hp : ¬p.Before cut) :
    Reads (cut.shift n p) text (ps.map (Piece.shift cut n)) := by
  induction h with
  | @ending p w trivia =>
      have hending : (Piece.mk w (.ending (p.after w))).shift cut n =
          ⟨w, .ending ((cut.shift n p).after w)⟩ := by
        rw [← Position.shift_after hp]
        rfl
      rw [List.map_singleton, hending]
      exact .ending trivia
  | @piece p w text l ps trivia bare scans notEnd place more ih =>
      have hmore := ih (Position.not_before_of_after hp _)
      rw [Position.shift_after hp] at hmore
      refine .piece (l := l.shift cut n) trivia bare scans notEnd ?_ hmore
      rw [← Position.shift_after hp, ← place]
      rfl

/-! ### Lexemes that are put in -/

/-- The lexemes of ` WITH * `, put in at a place. -/
def withStar (cut : Position) : List Lexeme :=
  [⟨.keyword .WITH, "WITH", cut.after [' ']⟩, ⟨.symbol .star, "*", cut.after " WITH ".toList⟩]

theorem bare_with (rest : List Char) : Bare ("WITH".toList ++ rest) := by
  have hbare : Bare ('W' :: ("ITH".toList ++ rest)) := ⟨by decide, fun h => absurd h (by decide)⟩
  exact hbare

theorem bare_star (rest : List Char) : Bare ("*".toList ++ rest) := by
  have hbare : Bare ('*' :: rest) := ⟨by decide, fun h => absurd h (by decide)⟩
  exact hbare

theorem scan_with (rest : List Char) :
    scan ("WITH".toList ++ ' ' :: rest) = .token (.keyword .WITH) "WITH".toList (' ' :: rest) := by
  have hspells : Spells (.ofWord "WITH".toList) "WITH".toList :=
    .word (by decide) (List.all_eq_true.mp (by decide))
  have hword : Token.ofWord "WITH".toList = .keyword .WITH := by decide
  rw [hword] at hspells
  refine scan_spelling hspells fun d hd => ?_
  obtain rfl := Option.some.inj hd
  decide

theorem scan_star (rest : List Char) :
    scan ("*".toList ++ ' ' :: rest) = .token (.symbol .star) "*".toList (' ' :: rest) := by
  refine scan_spelling (.symbol (by decide)) fun d hd => ?_
  obtain rfl := Option.some.inj hd
  decide

/-- One piece more in front, behind a blank. -/
theorem Reads.blank {p : Position} {l : Lexeme} {text : List Char} {ps : List Piece}
    (bare : Bare (l.text.toList ++ text))
    (scans : scan (l.text.toList ++ text) = .token l.token l.text.toList text)
    (notEnd : l.token ≠ .eof) (place : l.position = p.after [' '])
    (more : Reads (l.position.after l.text.toList) text ps) :
    Reads p (' ' :: (l.text.toList ++ text)) (⟨[' '], l⟩ :: ps) :=
  .piece (.blank rfl .none) bare scans notEnd place (by rwa [Position.after_append, ← place])

/-- ` WITH * ` in front of a lexeme. -/
theorem Reads.withStar {p : Position} {w text : List Char} {l : Lexeme} {ps : List Piece}
    (trivia : Trivia (l.text.toList ++ text) w) (bare : Bare (l.text.toList ++ text))
    (scans : scan (l.text.toList ++ text) = .token l.token l.text.toList text)
    (notEnd : l.token ≠ .eof) (place : l.position = p.after w)
    (more : Reads (p.after (w ++ l.text.toList)) text ps) :
    ∃ qs, Reads p (w ++ (" WITH * ".toList ++ (l.text.toList ++ text))) qs ∧
      qs.map Piece.lexeme = BindCheck.withStar l.position ++
        (l :: ps.map Piece.lexeme).map (Lexeme.shift l.position 8) := by
  have hne : l.text.toList ++ text ≠ [] := by
    intro hnil
    rw [hnil] at scans
    exact notEnd (Scan.token.inj scans).1.symm
  have hself : ¬l.position.Before l.position := fun h => by unfold Position.Before at h; omega
  have hplace : l.position.shift 8 l.position = l.position.after " WITH * ".toList := by
    rw [Position.shift_self]
    rfl
  rw [Position.after_append, ← place] at more
  have hmore := more.shift (n := 8) (Position.not_before_of_after hself l.text.toList)
  rw [Position.shift_after hself] at hmore
  have hlexeme : Reads ((l.position.after " WITH ".toList).after "*".toList)
      (' ' :: ((l.shift l.position 8).text.toList ++ text)) _ :=
    .blank bare scans notEnd hplace hmore
  have hstar : Reads ((l.position.after [' ']).after "WITH".toList) (' ' :: ("*".toList ++ _)) _ :=
    .blank (l := ⟨.symbol .star, "*", l.position.after " WITH ".toList⟩)
      (bare_star _) (scan_star _) Token.noConfusion rfl hlexeme
  have hword : Reads p ((w ++ [' ']) ++ ("WITH".toList ++ _)) _ :=
    .piece (l := ⟨.keyword .WITH, "WITH", l.position.after [' ']⟩) (trivia.snoc_blank hne bare)
      (bare_with _) (scan_with _) Token.noConfusion
      (by rw [place, Position.after_append])
      (by rw [Position.after_append, Position.after_append, ← place]; exact hstar)
  rw [List.append_assoc] at hword
  exact ⟨_, hword, by simp [BindCheck.withStar, Piece.shift]⟩

/-- ` WITH * ` in front of any lexeme. -/
theorem Reads.insert {p : Position} {text : List Char} {front back : List Piece} {q : Piece}
    (h : Reads p text (front ++ q :: back)) (hq : q.lexeme.token ≠ .eof) :
    ∃ u v qs, text = u ++ (q.lexeme.text.toList ++ v) ∧ q.lexeme.position = p.after u ∧
      Reads p (u ++ (" WITH * ".toList ++ (q.lexeme.text.toList ++ v))) qs ∧
      qs.map Piece.lexeme = front.map Piece.lexeme ++ (BindCheck.withStar q.lexeme.position ++
        ((q :: back).map Piece.lexeme).map (Lexeme.shift q.lexeme.position 8)) := by
  induction front generalizing p text with
  | nil =>
      cases h with
      | ending trivia => exact absurd rfl hq
      | @piece p w text l ps trivia bare scans notEnd place more =>
          obtain ⟨qs, hreads, hlexemes⟩ := withStar trivia bare scans notEnd place more
          exact ⟨w, text, qs, rfl, place, hreads, hlexemes⟩
  | cons r front ih =>
      rw [List.cons_append] at h
      generalize hps : front ++ q :: back = ps at h
      cases h with
      | ending trivia => exact absurd hps (by simp)
      | @piece p w text l _ trivia bare scans notEnd place more =>
          subst hps
          obtain ⟨u, v, qs, rfl, hplace, hreads, hlexemes⟩ := ih more
          have hne := ne_nil_of_scan scans notEnd
          have htrivia : ∀ {rest : List Char}, Trivia (l.text.toList ++ rest) w := by
            refine trivia.congr_head? ?_
            rw [List.head?_append_of_ne_nil _ hne, List.head?_append_of_ne_nil _ hne]
          have hpiece := Reads.piece htrivia (bare.separated separates_space hne)
            (scan_separated separates_space hne scans) notEnd place hreads
          rw [← Position.after_append, List.append_assoc] at hplace
          refine ⟨w ++ (l.text.toList ++ u), v, ⟨w, l⟩ :: qs, by simp, hplace, ?_, ?_⟩
          · rw [List.append_assoc, List.append_assoc]
            exact hpiece
          · rw [List.map_cons, hlexemes]
            rfl

/-- **With ` WITH * ` in front of a lexeme a text has the lexemes that it has, and two more.** The
lexemes before stay where they are, and those behind are moved as far as the clause is long. -/
theorem tokenize_insert {source : String} {us vs : List Lexeme} {l : Lexeme}
    (h : tokenize source = .ok (us ++ l :: vs)) (hl : l.token ≠ .eof) :
    ∃ front back : String, source = front ++ (l.text ++ back) ∧
      l.position = Position.start.after front.toList ∧
      tokenize (front ++ " WITH * " ++ (l.text ++ back)) =
        .ok (us ++ (withStar l.position ++ (l :: vs).map (Lexeme.shift l.position 8))) := by
  obtain ⟨ps, hps, hreads⟩ := reads_of_tokenize h
  obtain ⟨ps₁, ps₂, rfl, rfl, hps₂⟩ := List.map_eq_append_iff.mp hps
  obtain ⟨q, ps₂, rfl, rfl, rfl⟩ := List.map_eq_cons_iff.mp hps₂
  obtain ⟨u, v, qs, htext, hplace, hreads', hlexemes⟩ := hreads.insert hl
  refine ⟨String.ofList u, String.ofList v, ?_, ?_, ?_⟩
  · rw [← String.toList_inj, htext]
    simp
  · rw [String.toList_ofList, hplace]
  · have htexts : (String.ofList u ++ " WITH * " ++ (q.lexeme.text ++ String.ofList v)).toList =
        u ++ (" WITH * ".toList ++ (q.lexeme.text.toList ++ v)) := by
      simp
    have htokens := hreads'.tokensFrom (Nat.lt_succ_self _)
    rw [hlexemes] at htokens
    rw [tokenize, Cursor.ofString, htexts]
    exact htokens

/-- What stands before a lexeme stays where it is. -/
theorem shift_of_tokenize {source : String} {us vs : List Lexeme} {l : Lexeme} (n : Nat)
    (h : tokenize source = .ok (us ++ l :: vs)) : us.map (Lexeme.shift l.position n) = us := by
  have hbefore := pairwise_before_of_tokenize h
  rw [List.map_append, List.map_cons, List.pairwise_append] at hbefore
  refine (List.map_congr_left fun u hu => ?_).trans us.map_id
  have hu := hbefore.2.2 u.position (List.mem_map_of_mem hu) l.position List.mem_cons_self
  rw [Lexeme.shift, Position.shift_of_before hu]
  rfl

end BindCheck

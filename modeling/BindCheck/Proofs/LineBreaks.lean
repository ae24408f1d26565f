import BindCheck.Proofs.Separators

/-!
# BindCheck.Proofs.LineBreaks

**A text is read apart in front of a line break and behind it.** If what stands in front of a line
feed has tokens, then the whole text has these, and behind them those of the rest, further down;
and what is wrong with the rest is wrong with the whole.

* A line feed ends whatever stands in front of it, tokens (`scan_separated`) as well as comments
  that the end of the text would close (`Trivia.append_newline`).
* Behind it a line begins, so the lexer stands as at the start of a text, some lines further down.
  It counts lines and looks at none, so it answers there as at the start (`Cursor.next_down`).
-/

namespace BindCheck

/-! ### Places further down -/

/-- The place so many lines further down. -/
def Position.down (k : Nat) (p : Position) : Position := ⟨p.line + k, p.column⟩

/-- A lexeme so many lines further down. -/
def Lexeme.down (k : Nat) (l : Lexeme) : Lexeme := { l with position := l.position.down k }

/-- An error so many lines further down. -/
def LexError.down (k : Nat) (e : LexError) : LexError := { e with position := e.position.down k }

/-- A cursor so many lines further down, in front of the same characters. -/
def Cursor.down (k : Nat) (c : Cursor) : Cursor := { c with position := c.position.down k }

/-- A mode that began so many lines further down. -/
def TriviaMode.down (k : Nat) : TriviaMode → TriviaMode
  | outside => outside
  | line => line
  | block opened => block (opened.down k)

/-- An end of skipping so many lines further down. -/
def Skipped.down (k : Nat) : Skipped → Skipped
  | .to c => .to (c.down k)
  | .unclosed opened stop => .unclosed (opened.down k) (stop.down k)

variable {k : Nat}

theorem Position.down_step (p : Position) (c : Char) : (p.step c).down k = (p.down k).step c := by
  unfold step down
  split
  · rw [Nat.add_right_comm]
  · rfl

theorem Position.down_after (p : Position) (cs : List Char) :
    (p.after cs).down k = (p.down k).after cs := by
  induction cs generalizing p with
  | nil => rfl
  | cons c cs ih => rw [after_cons, after_cons, ih, down_step]

theorem skipTrivia_down (m : TriviaMode) (p : Position) (cs : List Char) :
    skipTrivia (m.down k) (p.down k) cs = (skipTrivia m p cs).down k := by
  fun_induction skipTrivia m p cs with
  | case1 p r ih | case2 p r ih =>
      rw [← ih, Position.down_after]
      rfl
  | case3 p c r hline hblock hblank ih =>
      rw [← ih, Position.down_step]
      exact skipTrivia_blank _ hblank
  | case4 p c r hline hblock hblank =>
      exact skipTrivia_bare (bare_cons hblank hline hblock) _
  | case5 p r ih =>
      rw [← ih, Position.down_step]
      rfl
  | case6 p c r hc ih =>
      rw [← ih, Position.down_step]
      exact if_neg hc
  | case7 o p r ih =>
      rw [← ih, Position.down_after]
      rfl
  | case8 o p c r hclose ih =>
      rw [← ih, Position.down_step, TriviaMode.down, skipTrivia]
      exact hclose
  | case9 | case10 | case11 => simp [TriviaMode.down, skipTrivia, Skipped.down, Cursor.down]

/-- **The lexer looks at no place**, so further down it answers the same. -/
theorem Cursor.next_down (c : Cursor) :
    (c.down k).next =
      ((match c.next.1 with
        | .ok l => .ok (l.down k)
        | .error e => .error (e.down k)), c.next.2.down k) := by
  have hskip : (c.down k).skipTrivia = c.skipTrivia.down k :=
    skipTrivia_down .outside c.position c.rest
  unfold next
  rw [hskip]
  rcases c.skipTrivia with c₁ | ⟨opened, stop⟩
  · simp only [Skipped.down, Cursor.down]
    cases scan c₁.rest with
    | token t taken rest => simp [Lexeme.down, skip, Position.down_after]
    | fault f before taken rest => simp [LexError.down, skip, Position.down_after]
  · rfl

/-- Further down the lexemes are the same, and so is what is wrong. -/
theorem tokensFrom_down (fuel : Nat) (c : Cursor) :
    tokensFrom fuel (c.down k) =
      match tokensFrom fuel c with
      | .ok ls => .ok (ls.map (Lexeme.down k))
      | .error e => .error (e.down k) := by
  induction fuel generalizing c with
  | zero => rfl
  | succ fuel ih =>
      rw [tokensFrom, tokensFrom, Cursor.next_down]
      obtain ⟨a, c'⟩ := c.next
      cases a with
      | error e => rfl
      | ok l =>
          by_cases heof : l.token = .eof
          · simp [heof, Lexeme.down]
          · have hdown : (l.down k).token ≠ .eof := heof
            simp only [if_neg heof, if_neg hdown, ih]
            cases tokensFrom fuel c' <;> rfl

/-! ### Fuel -/

/-- The lexemes do not depend on the fuel, if it is enough. -/
theorem tokensFrom_fuel {n m : Nat} {c : Cursor} (hn : c.rest.length < n)
    (hm : c.rest.length < m) : tokensFrom n c = tokensFrom m c := by
  induction n generalizing m c with
  | zero => omega
  | succ n ih =>
      obtain ⟨m, rfl⟩ := Nat.exists_eq_succ_of_ne_zero (Nat.ne_zero_of_lt hm)
      rw [tokensFrom, tokensFrom]
      rcases hnext : c.next with ⟨e | l, c'⟩
      · rfl
      · rcases Cursor.next_ok hnext with ⟨heof, -⟩ | ⟨hl, hlength⟩
        · simp [heof]
        · have hmore : tokensFrom n c' = tokensFrom m c' := ih (by omega) (by omega)
          simp only [if_neg hl.token_ne_eof, hmore]

/-! ### In front of a line feed and behind it -/

/-- A line feed closes the comment that the end of the text would close. -/
theorem Trivia.append_newline {w : List Char} (h : Trivia [] w) (b : List Char) :
    Trivia ('\n' :: b) w := by
  induction h with
  | none => exact .none
  | blank blank _ ih => exact .blank blank ih
  | @line body w within ends _ ih =>
      refine .line within (fun c hc => ?_) ih
      cases w with
      | nil => exact (Option.some.inj hc).symm
      | cons d w => exact ends c hc
  | block within _ ih => exact .block within ih

/-- Behind the last trivia of a text and a line feed the next line is read. -/
theorem Trivia.next_newline {w : List Char} (h : Trivia [] w) (p : Position) (b : List Char) :
    (Cursor.mk (w ++ '\n' :: b) p).next = (Cursor.mk b ((p.after w).step '\n')).next := by
  have hskip : (Cursor.mk (w ++ '\n' :: b) p).skipTrivia =
      (Cursor.mk b ((p.after w).step '\n')).skipTrivia :=
    ((h.append_newline b).skipTrivia_append p).trans (skipTrivia_blank _ isBlank_newline)
  rw [Cursor.next, Cursor.next, hskip]

theorem Reads.ne_nil {p : Position} {text : List Char} {ps : List Piece} (h : Reads p text ps) :
    ps ≠ [] := by
  cases h <;> exact List.cons_ne_nil _ _

/-- **What is read in front of a line feed is read alike**, and behind it the rest is read. -/
theorem Reads.tokensFrom_newline {p : Position} {text : List Char} {ps : List Piece}
    (h : Reads p text ps) (b : List Char) {n m : Nat} (hn : text.length + 1 + b.length < n)
    (hm : b.length < m) :
    BindCheck.tokensFrom n ⟨text ++ '\n' :: b, p⟩ =
      match BindCheck.tokensFrom m ⟨b, (p.after text).step '\n'⟩ with
      | .ok ls => .ok ((ps.map Piece.lexeme).dropLast ++ ls)
      | .error e => .error e := by
  induction h generalizing n with
  | @ending p w trivia =>
      obtain ⟨n, rfl⟩ := Nat.exists_eq_succ_of_ne_zero (Nat.ne_zero_of_lt hn)
      have hsame : BindCheck.tokensFrom (n + 1) ⟨w ++ '\n' :: b, p⟩ =
          BindCheck.tokensFrom m ⟨b, (p.after w).step '\n'⟩ := by
        rw [tokensFrom_fuel (n := m) (m := n + 1) hm (Nat.lt_of_le_of_lt (Nat.le_add_left _ _) hn),
          BindCheck.tokensFrom, BindCheck.tokensFrom, trivia.next_newline p b]
      rw [hsame]
      cases BindCheck.tokensFrom m ⟨b, (p.after w).step '\n'⟩ <;> rfl
  | @piece p w text l ps trivia bare scans notEnd place more ih =>
      obtain ⟨n, rfl⟩ := Nat.exists_eq_succ_of_ne_zero (Nat.ne_zero_of_lt hn)
      have hne := ne_nil_of_scan scans notEnd
      have htrivia : Trivia (l.text.toList ++ (text ++ '\n' :: b)) w := by
        refine trivia.congr_head? ?_
        rw [List.head?_append_of_ne_nil _ hne, List.head?_append_of_ne_nil _ hne]
      rw [← List.append_nil text] at bare scans
      have hnext := Cursor.next_piece htrivia (bare.separated separates_newline hne)
        (scan_separated separates_newline hne scans) place
      have hlength : text.length + 1 + b.length < n := by
        have hpos := List.length_pos_iff.mpr hne
        rw [List.length_append, List.length_append] at hn
        omega
      have hps : ps.map Piece.lexeme ≠ [] := by simpa using more.ne_nil
      rw [List.append_assoc, List.append_assoc, BindCheck.tokensFrom, hnext]
      simp only [if_neg notEnd, ih hlength, List.map_cons, List.dropLast_cons_of_ne_nil hps,
        ← Position.after_append, List.append_assoc]
      cases BindCheck.tokensFrom m _ <;> rfl

/-- **Lexing is compositional at line breaks.** If a text has tokens, then with a line feed and more
behind it there stand these tokens, and behind them those of the rest, as many lines further down as
the text has; and if something is wrong with the rest, the same is wrong with the whole, as many
lines further down. -/
theorem tokenize_append_newline {front : String} {ls : List Lexeme} {e : Position}
    (h : tokenize front = .ok (ls ++ [.ending e])) (back : String) :
    tokenize (front ++ "\n" ++ back) =
      match tokenize back with
      | .ok ls' => .ok (ls ++ ls'.map (Lexeme.down (1 + front.toList.count '\n')))
      | .error e' => .error (e'.down (1 + front.toList.count '\n')) := by
  obtain ⟨ps, hps, hreads⟩ := reads_of_tokenize h
  have htext : (front ++ "\n" ++ back).toList = front.toList ++ '\n' :: back.toList := by simp
  have hplace : (Position.start.after front.toList).step '\n' =
      Position.start.down (1 + front.toList.count '\n') := by
    rw [Position.after_start, Position.step, if_pos rfl, Position.down, Position.start,
      Nat.add_comm]
  have hback : (Cursor.mk back.toList (Position.start.down (1 + front.toList.count '\n'))) =
      (Cursor.ofString back).down (1 + front.toList.count '\n') := rfl
  have hsplit := hreads.tokensFrom_newline back.toList
    (n := (front.toList ++ '\n' :: back.toList).length + 1) (by simp; omega) (Nat.lt_succ_self _)
  rw [hps, List.dropLast_concat, hplace, hback, tokensFrom_down] at hsplit
  rw [tokenize, Cursor.ofString, htext, hsplit, tokenize]
  cases tokensFrom (back.toList.length + 1) (.ofString back) <;> rfl

/-- A letter that is no exponent, and a comment that the end of the text would close. -/
theorem tokenize_append_newline_of_comment :
    tokenize "1e /*\n*/ // b" =
        .ok ([⟨.integer 1, "1", ⟨1, 0⟩⟩, ⟨.identifier "e", "e", ⟨1, 1⟩⟩] ++ [.ending ⟨2, 7⟩]) ∧
      tokenize ("1e /*\n*/ // b" ++ "\n" ++ " -2") =
        .ok [⟨.integer 1, "1", ⟨1, 0⟩⟩, ⟨.identifier "e", "e", ⟨1, 1⟩⟩,
          ⟨.symbol .minus, "-", ⟨3, 1⟩⟩, ⟨.integer 2, "2", ⟨3, 2⟩⟩, .ending ⟨3, 3⟩] ∧
      tokenize ("1e /*\n*/ // b" ++ "\n" ++ " 'c") = .error ⟨.unterminatedString, ⟨3, 1⟩⟩ := by
  have hfront : tokenize "1e /*\n*/ // b" =
      .ok ([⟨.integer 1, "1", ⟨1, 0⟩⟩, ⟨.identifier "e", "e", ⟨1, 1⟩⟩] ++ [.ending ⟨2, 7⟩]) := by
    decide +kernel
  exact ⟨hfront, (tokenize_append_newline hfront " -2").trans (by decide +kernel),
    (tokenize_append_newline hfront " 'c").trans (by decide +kernel)⟩

end BindCheck

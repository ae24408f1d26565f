import BindCheck.Proofs.Relexing
import Mathlib.Algebra.BigOperators.Group.List.Basic
import Mathlib.Data.List.DropRight

/-!
# BindCheck.Proofs.Lossless

**A text is its lexemes and the trivia between them, and each lexeme knows its place.** A text
that has tokens is cut into pieces, each of them trivia with a lexeme behind it
(`Layout`), and nothing is lost or added; the place of a lexeme counts the lines and the
characters of all that stands before it.

`Trivia` says what trivia is without the machine that skips it: a comment is described by what
it may not contain. `Reads` says how a text is read piece by piece, and the lexer answers with
just these pieces (`reads_of_tokensFrom`, `Reads.tokensFrom`). Places come in through one law,
`Position.after_start`: the fold over the characters read so far counts line feeds and what stands
behind the last of them.
-/

namespace BindCheck

/-! ### Places in closed form -/

namespace Position

/-- Whether a place comes before another one in the text. -/
def Before (p q : Position) : Prop :=
  p.line < q.line ∨ p.line = q.line ∧ p.column < q.column

instance (p q : Position) : Decidable (p.Before q) := inferInstanceAs (Decidable (_ ∨ _ ∧ _))

theorem Before.trans {p q r : Position} (h : p.Before q) (h' : q.Before r) : p.Before r := by
  unfold Before at *
  omega

theorem before_step (p : Position) (c : Char) : p.Before (p.step c) := by
  unfold Before step
  split
  · exact .inl (Nat.lt_succ_self _)
  · exact .inr ⟨rfl, Nat.lt_succ_self _⟩

/-- Each character moves the place on. -/
theorem before_after (p : Position) {cs : List Char} (h : cs ≠ []) : p.Before (p.after cs) := by
  induction cs generalizing p with
  | nil => exact absurd rfl h
  | cons c cs ih =>
      cases cs with
      | nil => exact p.before_step c
      | cons d cs => exact (p.before_step c).trans (ih (p.step c) (List.cons_ne_nil d cs))

/-- **The place behind a beginning of a text** is told by its line feeds, and by the characters
behind the last of them. -/
theorem after_start (cs : List Char) :
    start.after cs = ⟨1 + cs.count '\n', (cs.rtakeWhile (· != '\n')).length⟩ := by
  induction cs using List.reverseRecOn with
  | nil => rfl
  | append_singleton cs c ih =>
      rw [after_append, ih, after_cons, after_nil, step]
      by_cases hc : c = '\n'
      · simp [hc, Nat.add_assoc]
      · simp [hc]

end Position

/-! ### Trivia -/

/-- What may stand between two lexemes, in front of `rest`: blanks; comments that the end of the
line closes, or that of the text; and comments that their first closing mark closes. -/
inductive Trivia (rest : List Char) : List Char → Prop where
  | none : Trivia rest []
  | blank {c : Char} {w : List Char} (blank : isBlank c = true) (more : Trivia rest w) :
      Trivia rest (c :: w)
  | line {body w : List Char} (within : ∀ c ∈ body, c ≠ '\n')
      (ends : ∀ c ∈ (w ++ rest).head?, c = '\n') (more : Trivia rest w) :
      Trivia rest ('/' :: '/' :: (body ++ w))
  | block {body w : List Char} (within : ¬['*', '/'] <:+: body) (more : Trivia rest w) :
      Trivia rest ('/' :: '*' :: (body ++ '*' :: '/' :: w))

/-- What the machine that skips trivia still skips in a mode. -/
def TriviaMode.Skips (m : TriviaMode) (rest w : List Char) : Prop :=
  match m with
  | outside => Trivia rest w
  | line =>
    ∃ body w', w = body ++ w' ∧ (∀ c ∈ body, c ≠ '\n') ∧ (∀ c ∈ (w' ++ rest).head?, c = '\n') ∧
      Trivia rest w'
  | block _ => ∃ body w', w = body ++ '*' :: '/' :: w' ∧ ¬['*', '/'] <:+: body ∧ Trivia rest w'

/-- **What is skipped is trivia**, and the cursor has moved over just that. -/
theorem skipTrivia_eq_to {m : TriviaMode} {p : Position} {cs : List Char} {c : Cursor}
    (h : skipTrivia m p cs = .to c) :
    ∃ w, cs = w ++ c.rest ∧ c.position = p.after w ∧ m.Skips c.rest w := by
  fun_induction skipTrivia m p cs with
  | case1 p r ih =>
      obtain ⟨_, rfl, hp, body, w, rfl, within, ends, more⟩ := ih h
      exact ⟨'/' :: '/' :: (body ++ w), rfl, hp, .line within ends more⟩
  | case2 p r ih =>
      obtain ⟨_, rfl, hp, body, w, rfl, within, more⟩ := ih h
      exact ⟨'/' :: '*' :: (body ++ '*' :: '/' :: w), rfl, hp, .block within more⟩
  | case3 p c' r hline hblock hblank ih =>
      obtain ⟨w, rfl, hp, more⟩ := ih h
      exact ⟨c' :: w, rfl, hp, .blank hblank more⟩
  | case4 p c' r hline hblock hblank =>
      rw [Skipped.to.injEq] at h
      subst h
      exact ⟨[], rfl, rfl, .none⟩
  | case5 p r ih =>
      obtain ⟨w, rfl, hp, more⟩ := ih h
      refine ⟨'\n' :: w, rfl, hp, [], '\n' :: w, rfl, by simp, ?_, .blank isBlank_newline more⟩
      intro c hc
      exact (Option.some.inj hc).symm
  | case6 p c' r hc ih =>
      obtain ⟨_, rfl, hp, body, w, rfl, within, ends, more⟩ := ih h
      exact ⟨c' :: (body ++ w), rfl, hp, c' :: body, w, rfl,
        List.forall_mem_cons.mpr ⟨hc, within⟩, ends, more⟩
  | case7 o p r ih =>
      obtain ⟨w, rfl, hp, more⟩ := ih h
      exact ⟨'*' :: '/' :: w, rfl, hp, [], w, rfl, by simp, more⟩
  | case8 o p c' r hclose ih =>
      obtain ⟨_, rfl, hp, body, w, rfl, within, more⟩ := ih h
      refine ⟨c' :: (body ++ '*' :: '/' :: w), rfl, hp, c' :: body, w, rfl, ?_, more⟩
      -- the character does not close the comment together with the next one
      rw [List.infix_cons_iff]
      rintro (hpre | hinfix)
      · obtain ⟨rfl, hslash⟩ := List.cons_prefix_cons.mp hpre
        obtain ⟨body', rfl⟩ := hslash
        exact hclose (body' ++ '*' :: '/' :: w ++ c.rest) rfl (by simp)
      · exact within hinfix
  | case9 => simp at h
  | case10 p =>
      rw [Skipped.to.injEq] at h
      subst h
      exact ⟨[], rfl, rfl, .none⟩
  | case11 p =>
      rw [Skipped.to.injEq] at h
      subst h
      exact ⟨[], rfl, rfl, [], [], rfl, by simp, by simp, .none⟩

theorem skipTrivia_blank {c : Char} {r : List Char} (p : Position) (h : isBlank c = true) :
    skipTrivia .outside p (c :: r) = skipTrivia .outside (p.step c) r := by
  have hslash : c ≠ '/' := by
    rintro rfl
    exact absurd h (by decide)
  rw [skipTrivia.eq_def]
  split <;> simp_all

/-- A comment goes on to the end of the line. -/
theorem skipTrivia_line {body r : List Char} (p : Position) (within : ∀ c ∈ body, c ≠ '\n')
    (ends : ∀ c ∈ r.head?, c = '\n') :
    skipTrivia .line p (body ++ r) = skipTrivia .outside (p.after body) r := by
  induction body generalizing p with
  | nil =>
      cases r with
      | nil => rfl
      | cons c r =>
          obtain rfl := ends c rfl
          exact (skipTrivia_blank p isBlank_newline).symm
  | cons c body ih =>
      obtain ⟨hc, within⟩ := List.forall_mem_cons.mp within
      rw [List.cons_append, skipTrivia, if_neg hc, ih _ within, Position.after_cons]

/-- A comment goes on to its first closing mark. -/
theorem skipTrivia_block {o : Position} {body : List Char} (r : List Char) (p : Position)
    (within : ¬['*', '/'] <:+: body) :
    skipTrivia (.block o) p (body ++ '*' :: '/' :: r) =
      skipTrivia .outside (p.after (body ++ ['*', '/'])) r := by
  induction body generalizing p with
  | nil => rfl
  | cons c body ih =>
      rw [List.infix_cons_iff, not_or] at within
      obtain ⟨hclose, within⟩ := within
      rw [List.cons_append, List.cons_append, Position.after_cons, ← ih _ within]
      rw [skipTrivia]
      rintro r' rfl hr
      -- the comment does not close with the character and the next one
      refine hclose (List.cons_prefix_cons.mpr ⟨rfl, ?_⟩)
      cases body with
      | nil => exact absurd (List.cons.inj hr).1 (by decide)
      | cons d body => exact (List.cons.inj hr).1 ▸ ⟨body, rfl⟩

/-- Trivia is skipped, and then what follows it. -/
theorem Trivia.skipTrivia_append {rest w : List Char} (h : Trivia rest w) (p : Position) :
    skipTrivia .outside p (w ++ rest) = skipTrivia .outside (p.after w) rest := by
  induction h generalizing p with
  | none => rfl
  | blank blank more ih =>
      rw [List.cons_append, skipTrivia_blank p blank, ih, Position.after_cons]
  | @line body w within ends more ih =>
      simp only [List.cons_append, List.append_assoc]
      rw [skipTrivia, skipTrivia_line _ within ends, ih, ← Position.after_append,
        ← Position.after_append]
      rfl
  | @block body w within more ih =>
      simp only [List.cons_append, List.append_assoc]
      rw [skipTrivia, skipTrivia_block _ _ within, ih, ← Position.after_append,
        ← Position.after_append]
      simp

/-- Trivia is skipped, up to where no more of it stands. -/
theorem Trivia.skip {rest w : List Char} (h : Trivia rest w) (hrest : Bare rest) (p : Position) :
    skipTrivia .outside p (w ++ rest) = .to ⟨rest, p.after w⟩ := by
  rw [h.skipTrivia_append, skipTrivia_bare hrest]

/-! ### Pieces of a text -/

/-- A lexeme with the trivia in front of it. -/
structure Piece where
  trivia : List Char
  lexeme : Lexeme

/-- The characters of a piece. -/
def Piece.chars (p : Piece) : List Char := p.trivia ++ p.lexeme.text.toList

/-- That pieces, the last of which is the end of the text, make up a text that begins at a
place. -/
structure Layout (begins : Position) (text : List Char) (ps : List Piece) (last : Piece) :
    Prop where
  whole : text = (ps ++ [last]).flatMap Piece.chars
  isLexeme : ∀ p ∈ ps, p.lexeme.token ≠ .eof ∧ p.lexeme.text ≠ ""
  isEnding : last.lexeme.token = .eof ∧ last.lexeme.text = ""
  trivia : ∀ front p back, ps ++ [last] = front ++ p :: back →
    Trivia (p.lexeme.text.toList ++ back.flatMap Piece.chars) p.trivia
  position : ∀ front p back, ps ++ [last] = front ++ p :: back →
    p.lexeme.position = begins.after (front.flatMap Piece.chars ++ p.trivia)

namespace Layout

variable {begins : Position} {text : List Char} {ps : List Piece} {last : Piece}

/-- Nothing but trivia is left. -/
theorem ending {w : List Char} {l : Lexeme} (htrivia : Trivia [] w) (htoken : l.token = .eof)
    (htext : l.text = "") (hposition : l.position = begins.after w) :
    Layout begins w [] ⟨w, l⟩ := by
  refine ⟨by simp [Piece.chars, htext], by simp, ⟨htoken, htext⟩, ?_, ?_⟩
  all_goals
    intro front p back hsplit
    obtain ⟨rfl, rfl, rfl⟩ : front = [] ∧ p = ⟨w, l⟩ ∧ back = [] := by
      rcases front with _ | ⟨q, front⟩ <;> simp_all
  · simpa [htext] using htrivia
  · simpa using hposition

/-- One piece more in front. -/
theorem cons {w : List Char} {l : Lexeme} (htrivia : Trivia (l.text.toList ++ text) w)
    (htoken : l.token ≠ .eof) (htext : l.text ≠ "") (hposition : l.position = begins.after w)
    (h : Layout (begins.after (w ++ l.text.toList)) text ps last) :
    Layout begins (w ++ (l.text.toList ++ text)) (⟨w, l⟩ :: ps) last := by
  refine ⟨by simp [Piece.chars, h.whole], List.forall_mem_cons.mpr ⟨⟨htoken, htext⟩, h.isLexeme⟩,
    h.isEnding, ?_, ?_⟩
  · intro front p back hsplit
    rcases front with _ | ⟨q, front⟩ <;> rw [List.cons_append] at hsplit
    · obtain ⟨rfl, rfl⟩ := List.cons.inj hsplit
      exact h.whole ▸ htrivia
    · exact h.trivia front p back (List.cons.inj hsplit).2
  · intro front p back hsplit
    rcases front with _ | ⟨q, front⟩ <;> rw [List.cons_append] at hsplit
    · obtain ⟨rfl, rfl⟩ := List.cons.inj hsplit
      exact hposition
    · obtain ⟨rfl, htail⟩ := List.cons.inj hsplit
      rw [h.position front p back htail, ← Position.after_append]
      simp only [List.flatMap_cons, Piece.chars, List.append_assoc]

/-- Each lexeme comes before those that follow it. -/
theorem pairwise_before (h : Layout begins text ps last) :
    ((ps ++ [last]).map fun p => p.lexeme.position).Pairwise Position.Before := by
  have : Trans Position.Before Position.Before Position.Before := ⟨Position.Before.trans⟩
  rw [← List.isChain_iff_pairwise, List.isChain_map,
    List.isChain_iff_forall_rel_of_append_cons_cons]
  intro p q front back hsplit
  have hp : p ∈ ps := by
    have hdrop := congrArg List.dropLast hsplit
    rw [List.dropLast_concat, List.dropLast_append_cons, List.dropLast_cons_cons] at hdrop
    simp [hdrop]
  have hq := h.position (front ++ [p]) q back (by simp [hsplit])
  have hbetween : p.lexeme.text.toList ++ q.trivia ≠ [] := by
    simp [(h.isLexeme p hp).2]
  have hafter : q.lexeme.position =
      p.lexeme.position.after (p.lexeme.text.toList ++ q.trivia) := by
    rw [hq, h.position front p (q :: back) hsplit, ← Position.after_append]
    simp [Piece.chars]
  rw [hafter]
  exact p.lexeme.position.before_after hbetween

/-- Each lexeme but the last takes a character. -/
theorem length_le (h : Layout begins text ps last) : ps.length ≤ text.length := by
  have hpieces : ps.length ≤ (ps.map fun p => p.chars.length).sum := by
    rw [← List.length_map (f := fun p => p.chars.length)]
    refine List.length_le_sum_of_one_le _ fun n hn => ?_
    obtain ⟨p, hp, rfl⟩ := List.mem_map.mp hn
    exact List.length_pos_iff.mpr (by simp [Piece.chars, (h.isLexeme p hp).2])
  rw [h.whole, List.flatMap_append, List.length_append, List.length_flatMap]
  omega

end Layout

/-! ### Tokens -/

/-- What is read of a text from a place on, piece by piece: trivia up to where no more of it
stands, and the token that is then read off. -/
inductive Reads : Position → List Char → List Piece → Prop where
  | ending {p : Position} {w : List Char} (trivia : Trivia [] w) :
      Reads p w [⟨w, Lexeme.ending (p.after w)⟩]
  | piece {p : Position} {w text : List Char} {l : Lexeme} {ps : List Piece}
      (trivia : Trivia (l.text.toList ++ text) w) (bare : Bare (l.text.toList ++ text))
      (scans : scan (l.text.toList ++ text) = .token l.token l.text.toList text)
      (notEnd : l.token ≠ .eof) (place : l.position = p.after w)
      (more : Reads (p.after (w ++ l.text.toList)) text ps) :
      Reads p (w ++ (l.text.toList ++ text)) (⟨w, l⟩ :: ps)

/-- Behind trivia the next lexeme is cut off in front of the rest. -/
theorem Cursor.next_eq_ok {c c' : Cursor} {l : Lexeme} (h : c.next = (.ok l, c')) :
    ∃ w, c.rest = w ++ (l.text.toList ++ c'.rest) ∧ Trivia (l.text.toList ++ c'.rest) w ∧
      Bare (l.text.toList ++ c'.rest) ∧
      scan (l.text.toList ++ c'.rest) = .token l.token l.text.toList c'.rest ∧
      l.position = c.position.after w ∧ c'.position = c.position.after (w ++ l.text.toList) := by
  rw [next] at h
  split at h
  case h_1 => simp at h
  case h_2 c₁ hskip =>
    obtain ⟨w, hw, hposition, htrivia⟩ := skipTrivia_eq_to hskip
    obtain ⟨-, hbare⟩ := skipTrivia_to hskip
    split at h
    case h_2 => simp at h
    case h_1 t taken rest hscan =>
      simp only [Prod.mk.injEq, Except.ok.injEq] at h
      obtain ⟨rfl, rfl⟩ := h
      obtain ⟨hrest, -⟩ := scan_sound hscan
      have hbehind : c₁.rest = (String.ofList taken).toList ++ rest := by simpa using hrest
      refine ⟨w, by simpa [skip, hrest] using hw, hbehind ▸ htrivia, hbehind ▸ hbare, ?_,
        hposition, ?_⟩
      · simpa [skip, ← hrest] using hscan
      · simp [skip, hposition, Position.after_append]

/-- A lexeme is read behind its trivia, whatever follows it. -/
theorem Cursor.next_piece {p : Position} {w text : List Char} {l : Lexeme}
    (trivia : Trivia (l.text.toList ++ text) w) (bare : Bare (l.text.toList ++ text))
    (scans : scan (l.text.toList ++ text) = .token l.token l.text.toList text)
    (place : l.position = p.after w) :
    (Cursor.mk (w ++ (l.text.toList ++ text)) p).next =
      (.ok l, ⟨text, p.after (w ++ l.text.toList)⟩) := by
  have hskip := trivia.skip bare p
  simp [next, skipTrivia, hskip, scans, skip, ← place, Position.after_append]

/-- The lexemes from a cursor on are those of the pieces that are read. -/
theorem reads_of_tokensFrom {fuel : Nat} {c : Cursor} {ls : List Lexeme}
    (hfuel : c.rest.length < fuel) (h : tokensFrom fuel c = .ok ls) :
    ∃ ps, ps.map Piece.lexeme = ls ∧ Reads c.position c.rest ps := by
  induction fuel generalizing c ls with
  | zero => omega
  | succ fuel ih =>
      rw [tokensFrom] at h
      split at h
      case h_1 => simp at h
      case h_2 l c' hnext =>
        obtain ⟨w, hrest, htrivia, hbare, hscan, hposition, hplace⟩ := Cursor.next_eq_ok hnext
        have hsound := (scan_sound hscan).2
        split at h
        case isTrue heof =>
          rw [Except.ok.injEq] at h
          subst h
          rcases hsound with ⟨-, hnil⟩ | hspells
          · rw [hnil] at hrest htrivia
            rw [List.append_nil] at hrest
            have htext := (List.append_eq_nil_iff.mp hnil).1
            obtain ⟨t, x, p⟩ := l
            obtain rfl : t = .eof := heof
            obtain rfl : x = "" := by simpa using htext
            obtain rfl : p = c.position.after w := hposition
            exact ⟨[⟨w, _⟩], rfl, by rw [hrest]; exact .ending htrivia⟩
          · obtain ⟨_, _, -, hstarts⟩ := hspells.starts
            rw [heof] at hstarts
            exact hstarts.elim
        case isFalse heof =>
          rcases Cursor.next_ok hnext with ⟨he, -⟩ | ⟨hw, hlen⟩
          · exact absurd he heof
          split at h
          case h_2 => simp at h
          case h_1 ls' htokens =>
            rw [Except.ok.injEq] at h
            subst h
            obtain ⟨ps, rfl, hreads⟩ := ih (by omega) htokens
            rw [hplace] at hreads
            rw [hrest]
            exact ⟨⟨w, l⟩ :: ps, rfl, .piece htrivia hbare hscan heof hposition hreads⟩

/-- What is read piece by piece is what the lexer answers with. -/
theorem Reads.tokensFrom {p : Position} {text : List Char} {ps : List Piece} (h : Reads p text ps)
    {fuel : Nat} (hfuel : text.length < fuel) :
    tokensFrom fuel ⟨text, p⟩ = .ok (ps.map Piece.lexeme) := by
  induction h generalizing fuel with
  | @ending p w trivia =>
      obtain ⟨fuel, rfl⟩ := Nat.exists_eq_succ_of_ne_zero (Nat.ne_zero_of_lt hfuel)
      have hskip := trivia.skip trivial p
      rw [List.append_nil] at hskip
      simp [BindCheck.tokensFrom, Cursor.next, Cursor.skipTrivia, hskip, scan, Lexeme.ending]
  | @piece p w text l ps trivia bare scans notEnd place more ih =>
      obtain ⟨fuel, rfl⟩ := Nat.exists_eq_succ_of_ne_zero (Nat.ne_zero_of_lt hfuel)
      have hlength : text.length < fuel := by
        have htext := List.length_pos_iff.mpr (ne_nil_of_scan scans notEnd)
        rw [List.length_append, List.length_append] at hfuel
        omega
      rw [BindCheck.tokensFrom, Cursor.next_piece trivia bare scans place]
      simp only [if_neg notEnd, ih hlength, List.map_cons]

/-- What is read of a text is laid out in it. -/
theorem Reads.layout {p : Position} {text : List Char} {ps : List Piece} (h : Reads p text ps) :
    ∃ qs last, ps = qs ++ [last] ∧ Layout p text qs last := by
  induction h with
  | ending trivia => exact ⟨[], _, rfl, .ending trivia rfl rfl rfl⟩
  | @piece p w text l ps trivia bare scans notEnd place more ih =>
      obtain ⟨qs, last, rfl, hlayout⟩ := ih
      have htext : l.text ≠ "" := fun htext =>
        ne_nil_of_scan scans notEnd (by rw [htext]; rfl)
      exact ⟨⟨w, l⟩ :: qs, last, rfl, hlayout.cons trivia notEnd htext place⟩

/-- A text that has tokens is read piece by piece. -/
theorem reads_of_tokenize {source : String} {ls : List Lexeme} (h : tokenize source = .ok ls) :
    ∃ ps, ps.map Piece.lexeme = ls ∧ Reads .start source.toList ps :=
  reads_of_tokensFrom (Nat.lt_succ_self _) h

/-- A text that has tokens is laid out as its lexemes. -/
theorem layout_of_tokenize {source : String} {ls : List Lexeme} (h : tokenize source = .ok ls) :
    ∃ ps last, (ps ++ [last]).map Piece.lexeme = ls ∧ Layout .start source.toList ps last := by
  obtain ⟨ps, rfl, hreads⟩ := reads_of_tokenize h
  obtain ⟨qs, last, rfl, hlayout⟩ := hreads.layout
  exact ⟨qs, last, rfl, hlayout⟩

/-- The lexemes of a text stand in it one behind the other. -/
theorem pairwise_before_of_tokenize {source : String} {ls : List Lexeme}
    (h : tokenize source = .ok ls) : (ls.map Lexeme.position).Pairwise Position.Before := by
  obtain ⟨ps, last, rfl, hlayout⟩ := layout_of_tokenize h
  rw [List.map_map]
  exact hlayout.pairwise_before

/-- No lexeme of a text occurs twice. -/
theorem nodup_of_tokenize {source : String} {ls : List Lexeme} (h : tokenize source = .ok ls) :
    ls.Nodup := by
  refine (pairwise_before_of_tokenize h).of_map Lexeme.position fun a b hab heq => ?_
  rw [heq, Position.Before] at hab
  omega

/-- **Reading a text loses nothing, and its places are exact.** A text that has tokens is laid
out as its lexemes with trivia in front of each, of which the last is its end. The place of each
lexeme is told by the line feeds in all that stands before it, and by the characters behind the
last of them; so places increase, and there are at most as many lexemes as characters, and the
end. -/
theorem tokenize_lossless {source : String} {ls : List Lexeme} (h : tokenize source = .ok ls) :
    (∃ ps last, (ps ++ [last]).map Piece.lexeme = ls ∧
      Layout .start source.toList ps last ∧
      ∀ front p back, ps ++ [last] = front ++ p :: back →
        p.lexeme.position =
          ⟨1 + (front.flatMap Piece.chars ++ p.trivia).count '\n',
            ((front.flatMap Piece.chars ++ p.trivia).rtakeWhile (· != '\n')).length⟩) ∧
      ls.length ≤ source.length + 1 ∧ (ls.map Lexeme.position).Pairwise Position.Before := by
  obtain ⟨ps, last, rfl, hlayout⟩ := layout_of_tokenize h
  have hlength := hlayout.length_le
  have hbefore := hlayout.pairwise_before
  refine ⟨⟨ps, last, rfl, hlayout, fun front p back hsplit => ?_⟩, ?_, ?_⟩
  · rw [← Position.after_start]
    exact hlayout.position front p back hsplit
  · rw [String.length_toList] at hlength
    simpa using hlength
  · rwa [List.map_map]

/-- A comment and a string that spans lines. -/
theorem tokenize_lossless_of_lines :
    ∃ ls, tokenize "/*/ **/'a\nb' // c\n  x" = .ok ls ∧
      ls.map Lexeme.position = [⟨1, 7⟩, ⟨3, 2⟩, ⟨3, 3⟩] ∧
      (ls.map Lexeme.position).Pairwise Position.Before := by
  have hpositions : (tokenize "/*/ **/'a\nb' // c\n  x").toOption.map (·.map Lexeme.position) =
      some [⟨1, 7⟩, ⟨3, 2⟩, ⟨3, 3⟩] := by
    decide +kernel
  cases htokens : tokenize "/*/ **/'a\nb' // c\n  x" with
  | error e => rw [htokens] at hpositions; exact absurd hpositions (by simp [Except.toOption])
  | ok ls =>
      rw [htokens] at hpositions
      exact ⟨ls, rfl, Option.some.inj hpositions, (tokenize_lossless htokens).2.2⟩

end BindCheck

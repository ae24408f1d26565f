import BindCheck.Proofs.Spelling
import Mathlib.Data.List.Chain

/-!
# BindCheck.Proofs.Relexing

**The normalized text of lexemes is read back as these lexemes.** `Lexeme.join` drops all
trivia and sets a space only between two words, so two lexemes without a space between
them must not run together. `Token.fuses` lists the pairs that would:

* two characters that make up one longer symbol, as `<` and `>` do;
* a dot before a number;
* a slash before a slash or a star, which open comments.

`tokensFrom_join` reads back any list of lexemes without such a pair. Which lists of
lexemes these are is a matter of the grammar, and not of this module.
-/

namespace BindCheck

/-! ### Lexemes as they are written -/

/-- What a lexeme is, apart from its place. -/
def Lexeme.content (l : Lexeme) : Token × String := (l.token, l.text)

/-- Whether the text of a lexeme can stand in a source for its token. -/
structure Lexeme.Written (l : Lexeme) : Prop where
  spells : Spells l.token l.text.toList
  notBlank : ∀ c ∈ l.text.toList.head?, isBlank c = false

/-- With which characters a token begins. -/
def Token.Starts (t : Token) (c : Char) : Prop :=
  match t with
  | .integer _ | .float _ => c.isDigit = true ∨ c = '.'
  | .string _ => isQuote c = true
  | .keyword _ | .identifier _ => c = backquote ∨ startsWord c = true
  | .symbol s => ∃ r, (s, c :: r) ∈ Symbol.spellings
  | .eof => False

theorem Spells.starts {t : Token} {w : List Char} (h : Spells t w) :
    ∃ c r, w = c :: r ∧ t.Starts c := by
  cases h with
  | number starts scans value =>
      match w with
      | [] => simp [Number.startsHere, Number.digitFirst] at starts
      | c :: r =>
          have hc : c.isDigit = true ∨ c = '.' := by
            by_cases hdot : c = '.'
            · exact .inr hdot
            · refine .inl (Bool.of_not_eq_false fun hd => ?_)
              rw [startsHere_false r hd hdot] at starts
              exact Bool.false_ne_true starts
          refine ⟨c, r, rfl, ?_⟩
          rcases classify_eq_ok value with ⟨n, rfl⟩ | ⟨b, rfl⟩ <;> exact hc
  | string opens closes => exact ⟨_, _, rfl, opens⟩
  | quotedName closes => exact ⟨_, _, rfl, .inl rfl⟩
  | @word c r starts continues =>
      refine ⟨c, r, rfl, ?_⟩
      rcases ofWord_cases (c :: r) with ⟨k, hk⟩ | hk <;> rw [hk] <;> exact .inr starts
  | symbol row =>
      obtain ⟨c, r, rfl⟩ := exists_cons_of_mem_spellings row
      exact ⟨c, r, rfl, r, row⟩

/-- A token takes a character, unless it is the end of the text. -/
theorem ne_nil_of_scan {t : Token} {cs taken rest : List Char}
    (h : scan cs = .token t taken rest) (ht : t ≠ .eof) : taken ≠ [] := by
  rcases (scan_sound h).2 with ⟨heof, -⟩ | hspells
  · exact absurd heof ht
  · obtain ⟨c, r, hcons, -⟩ := hspells.starts
    exact hcons ▸ List.cons_ne_nil c r

/-- A character of punctuation begins a symbol, or it is the dot of a number. -/
theorem Token.Starts.symbol_of_punctuation {t : Token} {c : Char} (h : t.Starts c)
    (hd : c.isDigit = false) (hq : isQuote c = false) (hb : c ≠ backquote)
    (hw : startsWord c = false) :
    (∃ s r, t = .symbol s ∧ (s, c :: r) ∈ Symbol.spellings) ∨
      c = '.' ∧ ((∃ n, t = .integer n) ∨ ∃ b, t = .float b) := by
  cases t with
  | integer n => exact .inr ⟨by simpa [Starts, hd] using h, .inl ⟨n, rfl⟩⟩
  | float b => exact .inr ⟨by simpa [Starts, hd] using h, .inr ⟨b, rfl⟩⟩
  | string v => simp [Starts, hq] at h
  | keyword k => simp [Starts, hb, hw] at h
  | identifier n => simp [Starts, hb, hw] at h
  | symbol s =>
      obtain ⟨r, hr⟩ := h
      exact .inl ⟨s, r, rfl, hr⟩
  | eof => exact h.elim

theorem Spells.mem_spellings {s : Symbol} {w : List Char} (h : Spells (.symbol s) w) :
    (s, w) ∈ Symbol.spellings := by
  generalize ht : Token.symbol s = t at h
  cases h with
  | number starts scans value =>
      rcases classify_eq_ok value with ⟨n, hn⟩ | ⟨b, hb⟩ <;> simp_all
  | string | quotedName => simp at ht
  | @word c r starts continues =>
      rcases ofWord_cases (c :: r) with ⟨k, hk⟩ | hk <;> rw [hk] at ht <;> simp at ht
  | symbol row =>
      rw [Token.symbol.injEq] at ht
      exact ht ▸ row

theorem Spells.symbol_of_not_isWord {t : Token} {w : List Char} (h : Spells t w)
    (ht : ¬t.isWord = true) : ∃ s, t = .symbol s := by
  obtain ⟨c, r, -, hc⟩ := h.starts
  cases t with
  | symbol s => exact ⟨s, rfl⟩
  | eof => exact hc.elim
  | _ => exact absurd rfl ht

/-! ### Lexemes that run together -/

/-- Whether two tokens run together if nothing stands between them, other than as two
words do. -/
def Token.fuses : Token → Token → Bool
  | .symbol .dot, .symbol s => s == .dot || s == .twoDots
  | .symbol .dot, .integer _ | .symbol .dot, .float _ => true
  | .symbol .plus, .symbol s | .symbol .greater, .symbol s => s == .equal
  | .symbol .less, .symbol s => s == .equal || s == .greater || s == .atLeast
  | .symbol .slash, .symbol s => s == .slash || s == .star
  | _, _ => false

/-- Whether two lexemes may stand next to each other in a normalized text. -/
def Lexeme.Apart (a b : Lexeme) : Prop := a.token.fuses b.token = false

theorem fuses_of_dot {t : Token} (h : t.Starts '.') : (Token.symbol .dot).fuses t = true := by
  rcases h.symbol_of_punctuation rfl rfl (by decide) (by decide) with
    ⟨s, r, rfl, hr⟩ | ⟨-, ⟨n, rfl⟩ | ⟨b, rfl⟩⟩
  · simp [Symbol.spellings] at hr
    rcases hr with ⟨rfl, -⟩ | ⟨rfl, -⟩ <;> rfl
  · rfl
  · rfl

theorem fuses_of_equal {s : Symbol} {t : Token} (h : t.Starts '=')
    (hs : s = .plus ∨ s = .less ∨ s = .greater) : (Token.symbol s).fuses t = true := by
  rcases h.symbol_of_punctuation rfl rfl (by decide) (by decide) with ⟨s', r, rfl, hr⟩ | ⟨hdot, -⟩
  · simp [Symbol.spellings] at hr
    obtain ⟨rfl, -⟩ := hr
    rcases hs with rfl | rfl | rfl <;> rfl
  · exact absurd hdot (by decide)

theorem fuses_of_greater {t : Token} (h : t.Starts '>') : (Token.symbol .less).fuses t = true := by
  rcases h.symbol_of_punctuation rfl rfl (by decide) (by decide) with ⟨s', r, rfl, hr⟩ | ⟨hdot, -⟩
  · simp [Symbol.spellings] at hr
    rcases hr with ⟨rfl, -⟩ | ⟨rfl, -⟩ <;> rfl
  · exact absurd hdot (by decide)

theorem fuses_of_slash {t : Token} (h : t.Starts '/' ∨ t.Starts '*') :
    (Token.symbol .slash).fuses t = true := by
  rcases h with h | h <;>
    rcases h.symbol_of_punctuation rfl rfl (by decide) (by decide) with
      ⟨s', r, rfl, hr⟩ | ⟨hdot, -⟩
  · simp [Symbol.spellings] at hr
    obtain ⟨rfl, -⟩ := hr
    rfl
  · exact absurd hdot (by decide)
  · simp [Symbol.spellings] at hr
    obtain ⟨rfl, -⟩ := hr
    rfl
  · exact absurd hdot (by decide)

/-- A token that makes a symbol longer fuses with it. -/
theorem fuses_of_row {s : Symbol} {w : List Char} {t : Token} {d : Char} {row : Symbol × List Char}
    (hs : (s, w) ∈ Symbol.spellings) (hrow : row ∈ Symbol.spellings) (hw : row.2 = w ++ [d])
    (ht : t.Starts d) : (Token.symbol s).fuses t = true := by
  obtain ⟨s', w'⟩ := row
  simp only at hw
  subst hw
  obtain ⟨c, r, rfl⟩ := exists_cons_of_mem_spellings hs
  have hr : r = [] := by
    have hlen := (length_of_mem_spellings hrow).2
    simpa using hlen
  subst hr
  simp only [Symbol.spellings, List.mem_cons, Prod.mk.injEq, List.cons_append, List.nil_append,
    List.cons.injEq, List.not_mem_nil, or_false, and_true, reduceCtorEq, and_false] at hrow
  rcases hrow with h | h | h | h | h | h <;> obtain ⟨-, rfl, rfl⟩ := h <;>
    simp [Symbol.spellings] at hs
  · exact hs ▸ fuses_of_dot ht
  · exact hs ▸ fuses_of_equal ht (by simp)
  · exact hs ▸ fuses_of_equal ht (by simp)
  · exact hs ▸ fuses_of_greater ht
  · exact hs ▸ fuses_of_equal ht (by simp)

/-! ### What follows a lexeme in a normalized text -/

/-- A text begins as its first lexeme does, or with the space in front of it. -/
theorem head_joinAfter {word : Bool} {ls : List Lexeme} {d : Char}
    (hw : ∀ l ∈ ls, l.Written) (hd : d ∈ (Lexeme.joinAfter word ls).head?) :
    ∃ l ls', ls = l :: ls' ∧
      (word = true ∧ l.token.isWord = true ∧ d = ' ' ∨
        (word && l.token.isWord) = false ∧ l.token.Starts d) := by
  cases ls with
  | nil => simp [Lexeme.joinAfter] at hd
  | cons l ls =>
      refine ⟨l, ls, rfl, ?_⟩
      obtain ⟨c, r, hc, hstarts⟩ := (hw l List.mem_cons_self).spells.starts
      by_cases hgap : (word && l.token.isWord) = true
      · simp only [Lexeme.joinAfter, hgap, if_true, List.singleton_append, List.head?_cons,
          Option.mem_some_iff] at hd
        exact .inl ⟨(Bool.and_eq_true _ _ ▸ hgap).1, (Bool.and_eq_true _ _ ▸ hgap).2, hd.symm⟩
      · simp only [Lexeme.joinAfter, hgap, Bool.false_eq_true, if_false, List.nil_append, hc,
          List.cons_append, List.head?_cons, Option.mem_some_iff] at hd
        exact .inr ⟨Bool.eq_false_iff.mpr hgap, hd ▸ hstarts⟩

theorem not_isExponentLetter_of_not_startsWord {c : Char} (h : startsWord c = false) :
    Number.isExponentLetter c = false := by
  refine Bool.eq_false_iff.mpr fun he => ?_
  simp only [Number.isExponentLetter, Bool.or_eq_true, decide_eq_true_eq] at he
  rcases he with rfl | rfl <;> exact absurd h (by decide)

theorem not_continuesWord_of_mem_spellings {s : Symbol} {c : Char} {r : List Char}
    (row : (s, c :: r) ∈ Symbol.spellings) : continuesWord c = false := by
  have hall : ∀ row ∈ Symbol.spellings, row.2.head?.all (fun c => !continuesWord c) = true := by
    decide
  simpa using hall (s, c :: r) row

theorem Token.Starts.number_of_isDigit {t : Token} {d : Char} (h : t.Starts d)
    (hd : d.isDigit = true) : (∃ n, t = .integer n) ∨ ∃ b, t = .float b := by
  cases t with
  | integer n => exact .inl ⟨n, rfl⟩
  | float b => exact .inr ⟨b, rfl⟩
  | string v =>
      simp only [Starts, isQuote, Bool.or_eq_true, decide_eq_true_eq] at h
      rcases h with rfl | rfl <;> exact absurd hd (by decide)
  | keyword k | identifier n =>
      rcases h with rfl | h
      · exact absurd hd (by decide)
      · rw [not_isDigit_of_startsWord h] at hd
        exact absurd hd Bool.false_ne_true
  | symbol s =>
      obtain ⟨r, hr⟩ := h
      rw [(head_of_mem_spellings hr).2.2.2.1] at hd
      exact absurd hd Bool.false_ne_true
  | eof => exact h.elim

/-- No digit stands behind a dot. -/
theorem not_isDigit_behind_dot {ls : List Lexeme} {l : Lexeme} (hl : l.token = .symbol .dot)
    (hw : ∀ l ∈ ls, l.Written) (hc : (l :: ls).IsChain Lexeme.Apart) {d : Char}
    (hd : d ∈ (Lexeme.joinAfter false ls).head?) : d.isDigit = false := by
  obtain ⟨b, ls', rfl, ⟨h, -⟩ | ⟨-, hb⟩⟩ := head_joinAfter hw hd
  · exact absurd h Bool.false_ne_true
  · refine Bool.eq_false_iff.mpr fun hdigit => ?_
    have hapart : l.token.fuses b.token = false := (List.isChain_cons_cons.mp hc).1
    rcases hb.number_of_isDigit hdigit with ⟨n, hn⟩ | ⟨n, hn⟩ <;>
      rw [hl, hn] at hapart <;> exact Bool.noConfusion hapart

theorem Number.scan_eq_nil {c : Char} {r : List Char} (hd : c.isDigit = false)
    (he : isExponentLetter c = false) (hdot : c = '.' → digitFirst r = false) :
    scan true (c :: r) = [] := by
  cases r with
  | nil => simp [scan, hd]
  | cons d r =>
      have hdot' : (decide (c = '.') && true && d.isDigit) = false := by
        by_cases hc : c = '.'
        · simpa [hc, digitFirst] using hdot hc
        · simp [hc]
      rw [scan, hd, hdot', he]
      simp

/-- A number ends before the lexeme behind it. -/
theorem scan_joinAfter {ls : List Lexeme} (hw : ∀ l ∈ ls, l.Written)
    (hc : ls.IsChain Lexeme.Apart) : Number.scan true (Lexeme.joinAfter true ls) = [] := by
  cases ls with
  | nil => rfl
  | cons b ls =>
      by_cases hword : b.token.isWord = true
      · simp only [Lexeme.joinAfter, hword, Bool.and_self, if_true, List.singleton_append]
        exact Number.scan_eq_nil (by decide) (by decide) (by simp)
      · -- a symbol, whose dot has no digit behind it
        have hb := (hw b List.mem_cons_self).spells
        obtain ⟨s, hs⟩ := hb.symbol_of_not_isWord hword
        rw [hs] at hb hword
        have row := hb.mem_spellings
        obtain ⟨c, r, hcr⟩ := exists_cons_of_mem_spellings row
        rw [hcr] at row
        obtain ⟨-, -, hstart, hdigit, hlone⟩ := head_of_mem_spellings row
        have hjoin : Lexeme.joinAfter true (b :: ls) = c :: (r ++ Lexeme.joinAfter false ls) := by
          simp [Lexeme.joinAfter, hs, Token.isWord, hcr]
        rw [hjoin]
        refine Number.scan_eq_nil hdigit (not_isExponentLetter_of_not_startsWord hstart) fun hdot => ?_
        subst hdot
        rcases hlone rfl with rfl | rfl
        · have hdot : b.token = .symbol .dot := by
            simp [Symbol.spellings] at row
            rw [hs, row]
          cases hj : Lexeme.joinAfter false ls with
          | nil => rfl
          | cons d x =>
              exact not_isDigit_behind_dot hdot (fun l hl => hw l (List.mem_cons_of_mem b hl)) hc
                (by rw [hj]; rfl)
        · rfl

/-- The normalized text of the lexemes behind a lexeme leaves it as it is. -/
theorem boundary_joinAfter {l : Lexeme} {ls : List Lexeme} (hl : l.Written)
    (hw : ∀ l ∈ ls, l.Written) (hc : (l :: ls).IsChain Lexeme.Apart) :
    Boundary l.token l.text.toList (Lexeme.joinAfter l.token.isWord ls) := by
  have hword : ∀ d ∈ (Lexeme.joinAfter true ls).head?, continuesWord d = false := by
    intro d hd
    obtain ⟨b, ls', rfl, ⟨-, -, rfl⟩ | ⟨hb, hstarts⟩⟩ := head_joinAfter hw hd
    · decide
    · rw [Bool.true_and] at hb
      obtain ⟨s, hs⟩ := (hw b List.mem_cons_self).spells.symbol_of_not_isWord (by simp [hb])
      rw [hs] at hstarts
      obtain ⟨r, hr⟩ := hstarts
      exact not_continuesWord_of_mem_spellings hr
  cases ht : l.token with
  | integer n | float b => exact scan_joinAfter hw hc.tail
  | string v => trivial
  | keyword k | identifier n => exact hword
  | symbol s =>
      intro d hd
      have hspells := hl.spells
      rw [ht] at hspells
      have row := hspells.mem_spellings
      refine ⟨fun hdot => ?_, fun row' hrow' heq => ?_⟩
      · rw [hdot] at row
        simp [Symbol.spellings] at row
        exact not_isDigit_behind_dot (by rw [ht, row]) hw hc hd
      · obtain ⟨b, ls', rfl, ⟨h, -⟩ | ⟨-, hb⟩⟩ := head_joinAfter hw hd
        · exact absurd h Bool.false_ne_true
        · have hapart : l.token.fuses b.token = false := (List.isChain_cons_cons.mp hc).1
          rw [ht, fuses_of_row row hrow' heq hb] at hapart
          exact Bool.noConfusion hapart
  | eof => trivial

/-! ### Trivia in front of a token -/

/-- Whether no trivia stands first. -/
def Bare : List Char → Prop
  | [] => True
  | c :: r => isBlank c = false ∧ (c = '/' → ∀ d ∈ r.head?, d ≠ '/' ∧ d ≠ '*')

theorem bare_cons {c : Char} {r : List Char} (hblank : ¬isBlank c = true)
    (hline : ∀ r', c = '/' → r = '/' :: r' → False)
    (hblock : ∀ r', c = '/' → r = '*' :: r' → False) : Bare (c :: r) := by
  refine ⟨Bool.eq_false_iff.mpr hblank, fun hslash d hd => ?_⟩
  obtain ⟨r', rfl⟩ := List.head?_eq_some_iff.mp hd
  exact ⟨fun he => hline r' hslash (he ▸ rfl), fun he => hblock r' hslash (he ▸ rfl)⟩

theorem skipTrivia_bare {cs : List Char} (h : Bare cs) (p : Position) :
    skipTrivia .outside p cs = .to ⟨cs, p⟩ := by
  cases cs with
  | nil => rfl
  | cons c r =>
      obtain ⟨hc, hr⟩ := h
      rw [skipTrivia.eq_def]
      split <;> simp_all

/-- Skipping stops at a bare end of the text. -/
theorem skipTrivia_to {m : TriviaMode} {p : Position} {cs : List Char} {c : Cursor}
    (h : skipTrivia m p cs = .to c) : c.rest <:+ cs ∧ Bare c.rest := by
  have hcons : ∀ {x : Char} {r : List Char}, c.rest <:+ r ∧ Bare c.rest →
      c.rest <:+ x :: r ∧ Bare c.rest := fun h => ⟨h.1.trans (List.suffix_cons _ _), h.2⟩
  fun_induction skipTrivia m p cs with
  | case1 p r ih | case2 p r ih => exact hcons (hcons (ih h))
  | case3 p c' r hline hblock hblank ih => exact hcons (ih h)
  | case4 p c' r hline hblock hblank =>
      rw [Skipped.to.injEq] at h
      subst h
      exact ⟨List.suffix_rfl, bare_cons hblank hline hblock⟩
  | case5 p r ih => exact hcons (ih h)
  | case6 p c' r hc ih => exact hcons (ih h)
  | case7 o p r ih => exact hcons (hcons (ih h))
  | case8 o p c' r hclose ih => exact hcons (ih h)
  | case9 => simp at h
  | case10 p | case11 p =>
      rw [Skipped.to.injEq] at h
      subst h
      exact ⟨List.suffix_rfl, trivial⟩

/-! ### The lexemes of a text -/

theorem Lexeme.Written.token_ne_eof {l : Lexeme} (h : l.Written) : l.token ≠ .eof := by
  obtain ⟨c, r, -, hc⟩ := h.spells.starts
  intro he
  rw [he] at hc
  exact hc

/-- A lexeme of a text is as it is written, and takes a character, unless it is the end. -/
theorem Cursor.next_ok {c c' : Cursor} {l : Lexeme} (h : c.next = (.ok l, c')) :
    (l.token = .eof ∧ l.text = "") ∨ l.Written ∧ c'.rest.length < c.rest.length := by
  rw [next] at h
  split at h
  case h_1 => simp at h
  case h_2 c₁ hskip =>
    obtain ⟨hsuffix, hbare⟩ := skipTrivia_to hskip
    split at h
    case h_2 => simp at h
    case h_1 t taken rest hscan =>
      simp only [Prod.mk.injEq, Except.ok.injEq] at h
      obtain ⟨rfl, rfl⟩ := h
      obtain ⟨hrest, ⟨rfl, hnil⟩ | hspells⟩ := scan_sound hscan
      · rw [hnil] at hrest
        simp [List.nil_eq_append_iff.mp hrest]
      · obtain ⟨x, r, rfl, -⟩ := hspells.starts
        refine .inr ⟨⟨by simpa using hspells, ?_⟩, ?_⟩
        · rw [hrest] at hbare
          simpa using hbare.1
        · have hlen := hsuffix.length_le
          rw [hrest] at hlen
          simp only [skip, List.length_append, List.length_cons] at hlen ⊢
          omega

/-- The lexemes of a text are as they are written, up to its end. -/
theorem tokensFrom_ok {fuel : Nat} {c : Cursor} {ls : List Lexeme} (hf : c.rest.length < fuel)
    (h : tokensFrom fuel c = .ok ls) :
    ∃ us p, ls = us ++ [Lexeme.ending p] ∧ ∀ u ∈ us, u.Written := by
  induction fuel generalizing c ls with
  | zero => omega
  | succ fuel ih =>
      rw [tokensFrom] at h
      split at h
      case h_1 => simp at h
      case h_2 l c' hnext =>
        have hl := Cursor.next_ok hnext
        split at h
        case isTrue heof =>
          rw [Except.ok.injEq] at h
          subst h
          obtain ⟨t, x, p⟩ := l
          rcases hl with ⟨rfl, rfl⟩ | ⟨hw, -⟩
          · exact ⟨[], p, rfl, by simp⟩
          · exact absurd heof hw.token_ne_eof
        case isFalse heof =>
          rcases hl with ⟨he, -⟩ | ⟨hw, hlen⟩
          · exact absurd he heof
          · split at h
            case h_2 => simp at h
            case h_1 ls' hrest =>
              rw [Except.ok.injEq] at h
              subst h
              obtain ⟨us, p, rfl, hus⟩ := ih (by omega) hrest
              exact ⟨l :: us, p, rfl, List.forall_mem_cons.mpr ⟨hw, hus⟩⟩

theorem tokenize_ok {source : String} {ls : List Lexeme} (h : tokenize source = .ok ls) :
    ∃ us p, ls = us ++ [Lexeme.ending p] ∧ ∀ u ∈ us, u.Written :=
  tokensFrom_ok (Nat.lt_succ_self _) h

/-! ### Reading a normalized text -/

/-- No trivia stands before a lexeme in a normalized text. -/
theorem bare_joinAfter {l : Lexeme} {ls : List Lexeme} (hl : l.Written) (hw : ∀ l ∈ ls, l.Written)
    (hc : (l :: ls).IsChain Lexeme.Apart) :
    Bare (l.text.toList ++ Lexeme.joinAfter l.token.isWord ls) := by
  obtain ⟨c, r, hcr, hstarts⟩ := hl.spells.starts
  have hblank := hl.notBlank
  rw [hcr] at hblank ⊢
  refine ⟨hblank c rfl, fun hslash d hd => ?_⟩
  subst hslash
  -- the lexeme is a slash, which fuses with what would open a comment
  obtain ⟨s, r', hs, row⟩ | ⟨h, -⟩ :=
    hstarts.symbol_of_punctuation rfl rfl (by decide) (by decide)
  · have hspells := hl.spells
    rw [hs, hcr] at hspells
    have hrow := hspells.mem_spellings
    simp [Symbol.spellings] at hrow
    obtain ⟨rfl, rfl⟩ := hrow
    rw [hs] at hd
    obtain ⟨b, ls', rfl, ⟨h, -⟩ | ⟨-, hb⟩⟩ := head_joinAfter hw hd
    · exact absurd h (by simp [Token.isWord])
    · have hapart : l.token.fuses b.token = false := (List.isChain_cons_cons.mp hc).1
      rw [hs] at hapart
      constructor <;> rintro rfl
      · rw [fuses_of_slash (.inl hb)] at hapart
        exact Bool.noConfusion hapart
      · rw [fuses_of_slash (.inr hb)] at hapart
        exact Bool.noConfusion hapart
  · exact absurd h (by decide)

/-- The next lexeme of a normalized text. -/
theorem next_joinAfter (word : Bool) (p : Position) {l : Lexeme} {ls : List Lexeme}
    (hl : l.Written) (hw : ∀ l ∈ ls, l.Written) (hc : (l :: ls).IsChain Lexeme.Apart) :
    ∃ p₁ p₂, (Cursor.mk (Lexeme.joinAfter word (l :: ls)) p).next =
      (.ok ⟨l.token, l.text, p₁⟩, ⟨Lexeme.joinAfter l.token.isWord ls, p₂⟩) := by
  have hbare := bare_joinAfter hl hw hc
  have hskip : ∃ p₁, (Cursor.mk (Lexeme.joinAfter word (l :: ls)) p).skipTrivia =
      .to ⟨l.text.toList ++ Lexeme.joinAfter l.token.isWord ls, p₁⟩ := by
    by_cases hgap : (word && l.token.isWord) = true
    · refine ⟨p.step ' ', ?_⟩
      simp only [Lexeme.joinAfter, hgap, if_true, List.singleton_append, Cursor.skipTrivia]
      rw [skipTrivia.eq_def]
      exact skipTrivia_bare hbare _
    · refine ⟨p, ?_⟩
      simp only [Lexeme.joinAfter, hgap, Bool.false_eq_true, if_false, List.nil_append,
        Cursor.skipTrivia]
      exact skipTrivia_bare hbare _
  obtain ⟨p₁, hskip⟩ := hskip
  have hscan := scan_spelling hl.spells (boundary_joinAfter hl hw hc)
  refine ⟨p₁, p₁.after l.text.toList, ?_⟩
  rw [Cursor.next, hskip]
  simp [hscan, Cursor.skip]

theorem tokensFrom_join {us : List Lexeme} (hw : ∀ u ∈ us, u.Written)
    (hc : us.IsChain Lexeme.Apart) (word : Bool) (p : Position) {fuel : Nat}
    (hf : us.length < fuel) :
    ∃ vs q, tokensFrom fuel ⟨Lexeme.joinAfter word us, p⟩ = .ok (vs ++ [Lexeme.ending q]) ∧
      vs.map Lexeme.content = us.map Lexeme.content := by
  induction us generalizing word p fuel with
  | nil =>
      obtain ⟨fuel, rfl⟩ : ∃ n, fuel = n + 1 := ⟨fuel - 1, by simp at hf; omega⟩
      exact ⟨[], p, rfl, rfl⟩
  | cons l ls ih =>
      obtain ⟨fuel, rfl⟩ : ∃ n, fuel = n + 1 := ⟨fuel - 1, by omega⟩
      obtain ⟨hl, hls⟩ := List.forall_mem_cons.mp hw
      obtain ⟨p₁, p₂, hnext⟩ := next_joinAfter word p hl hls hc
      have hf' : ls.length < fuel := by simp at hf; omega
      obtain ⟨vs, q, hvs, hmap⟩ := ih hls hc.tail l.token.isWord p₂ hf'
      refine ⟨⟨l.token, l.text, p₁⟩ :: vs, q, ?_, by simp [hmap, Lexeme.content]⟩
      rw [tokensFrom, hnext]
      simp [hl.token_ne_eof, hvs]

theorem length_le_joinAfter {us : List Lexeme} (hw : ∀ u ∈ us, u.Written) (word : Bool) :
    us.length ≤ (Lexeme.joinAfter word us).length := by
  induction us generalizing word with
  | nil => exact Nat.zero_le _
  | cons l ls ih =>
      obtain ⟨c, r, hcr, -⟩ := (hw l List.mem_cons_self).spells.starts
      have := ih (fun u hu => hw u (List.mem_cons_of_mem l hu)) l.token.isWord
      simp only [Lexeme.joinAfter, hcr, List.length_cons, List.length_append]
      omega

/-- **A normalized text is read back as the lexemes that it was made of.** -/
theorem tokenize_join {us : List Lexeme} (hw : ∀ u ∈ us, u.Written)
    (hc : us.IsChain Lexeme.Apart) :
    ∃ vs q, tokenize (Lexeme.join us) = .ok (vs ++ [Lexeme.ending q]) ∧
      vs.map Lexeme.content = us.map Lexeme.content := by
  have hlen := length_le_joinAfter hw false
  rw [tokenize, Cursor.ofString, Lexeme.toList_join]
  exact tokensFrom_join hw hc false Position.start (Nat.lt_succ_of_le hlen)

/-! ### Names -/

/-- A name is the text that it is written as. -/
theorem Lexeme.Written.eq_text {l : Lexeme} (h : l.Written) {n : String}
    (hl : l.token = .identifier n) : n = l.text := by
  have hspells := h.spells
  rw [hl, ← String.toList_inj] at *
  generalize ht : Token.identifier n = t at hspells
  generalize l.text.toList = w at hspells
  cases hspells with
  | number starts scans value =>
      rcases classify_eq_ok value with ⟨n', rfl⟩ | ⟨b, rfl⟩ <;> exact Token.noConfusion ht
  | string | symbol => exact Token.noConfusion ht
  | quotedName closes =>
      rw [Token.identifier.inj ht, String.toList_ofList]
  | @word c cs starts continues =>
      rcases ofWord_cases (c :: cs) with ⟨k, hk⟩ | hk <;> rw [hk] at ht
      · exact Token.noConfusion ht
      · rw [Token.identifier.inj ht, String.toList_ofList]

theorem Lexeme.join_singleton (l : Lexeme) : join [l] = l.text := by
  simp [join, joinStep]

/-- The text of some lexemes begins as the first of them does. -/
theorem Lexeme.head?_join {l : Lexeme} {ls : List Lexeme} (h : l.Written) :
    (join (l :: ls)).toList.head? = l.text.toList.head? := by
  obtain ⟨c, cs, hc, -⟩ := h.spells.starts
  rw [toList_join, joinAfter, hc]
  rfl

/-- A word does not begin with a star. -/
theorem Lexeme.Written.head?_ne_star {l : Lexeme} (h : l.Written) (hl : l.token.isWord = true) :
    l.text.toList.head? ≠ some '*' := by
  obtain ⟨c, cs, hc, hstarts⟩ := h.spells.starts
  rw [hc, List.head?_cons, Ne, Option.some.injEq]
  rintro rfl
  generalize l.token = t at hl hstarts
  cases t with
  | integer n | float b =>
      exact absurd (show '*'.isDigit = true ∨ '*' = '.' from hstarts) (by decide)
  | string v => exact absurd (show isQuote '*' = true from hstarts) (by decide)
  | keyword k | identifier n =>
      exact absurd (show '*' = backquote ∨ startsWord '*' = true from hstarts) (by decide)
  | symbol s | eof => exact Bool.noConfusion hl

end BindCheck

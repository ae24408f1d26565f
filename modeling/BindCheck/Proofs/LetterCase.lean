import BindCheck.Proofs.Lossless

/-!
# BindCheck.Proofs.LetterCase

**The lexer sees the case of a letter in texts alone.** Let letters of a text be written in the
other case, all of them within reserved words (`Recased`). Then the text is read piece by piece as
it was, with the same trivia, tokens and places; only the texts of these words are new
(`Reads.recased`).

* The two cases of a letter pass the same tests: they are no blanks, no digits and no punctuation,
  go on a word and begin one, and announce an exponent both or neither. There are fifty-two pairs of
  them (`casePairs`), so each test is tried on all.
* So a token ends at the same place in front of rests that differ in the case of letters
  (`scan_recased`), and trivia is trivia in front of the one as of the other (`Trivia.recased`).
* A reserved word in another case is the same word (`Token.ofWord_cased`).
* Which letters may change is said by places. As lexemes follow each other in the text, a letter
  that stands within a reserved word stands within no other lexeme, and in no trivia
  (`Recased.split`).
-/

namespace BindCheck

/-! ### Letters -/

/-- A letter in the one case and in the other, for all letters and both orders. -/
def casePairs : List (Char × Char) :=
  (List.range 26).flatMap fun i =>
    [(Char.ofNat (65 + i), Char.ofNat (97 + i)), (Char.ofNat (97 + i), Char.ofNat (65 + i))]

theorem mem_casePairs {i : Nat} (hi : i < 26) :
    (Char.ofNat (65 + i), Char.ofNat (97 + i)) ∈ casePairs ∧
      (Char.ofNat (97 + i), Char.ofNat (65 + i)) ∈ casePairs := by
  constructor
  all_goals exact List.mem_flatMap.mpr ⟨i, List.mem_range.mpr hi, by simp⟩

/-- A character is its own capital, or it is one of the small letters. -/
theorem toUpper_cases (c : Char) :
    c.toUpper = c ∨ ∃ i < 26, c = Char.ofNat (97 + i) ∧ c.toUpper = Char.ofNat (65 + i) := by
  by_cases hc : 'a'.val ≤ c.val ∧ c.val ≤ 'z'.val
  · have hlow : 97 ≤ c.toNat := UInt32.le_iff_toNat_le.mp hc.1
    have hhigh : c.toNat ≤ 122 := UInt32.le_iff_toNat_le.mp hc.2
    obtain ⟨i, hi⟩ := Nat.exists_eq_add_of_le hlow
    have hi' : i < 26 := by omega
    have hc' : c = Char.ofNat (97 + i) := by rw [← hi, Char.ofNat_toNat]
    have hall : ∀ i < 26, (Char.ofNat (97 + i)).toUpper = Char.ofNat (65 + i) := by decide
    exact .inr ⟨i, hi', hc', by rw [hc', hall i hi']⟩
  · exact .inl (dif_neg hc)

/-- Characters with one capital are the same, or the two cases of a letter. -/
theorem eq_or_mem_casePairs {c c' : Char} (h : c.toUpper = c'.toUpper) :
    c = c' ∨ (c, c') ∈ casePairs := by
  rcases toUpper_cases c with hc | ⟨i, hi, hc, hupper⟩
  · rcases toUpper_cases c' with hc' | ⟨j, hj, hc', hupper'⟩
    · exact .inl (hc.symm.trans (h.trans hc'))
    · rw [hc, hupper'] at h
      exact .inr (h ▸ hc' ▸ (mem_casePairs hj).1)
  · rcases toUpper_cases c' with hc' | ⟨j, hj, hc', hupper'⟩
    · rw [hc', hupper] at h
      exact .inr (h ▸ hc ▸ (mem_casePairs hi).2)
    · have hinj : ∀ i < 26, ∀ j < 26, Char.ofNat (65 + i) = Char.ofNat (65 + j) → i = j := by
        decide
      obtain rfl := hinj i hi j hj (by rw [← hupper, ← hupper', h])
      exact .inl (hc.trans hc'.symm)

/-- A test that the two cases of each letter pass together. -/
def BlindToCase (f : Char → Bool) : Prop := ∀ q ∈ casePairs, f q.1 = f q.2

instance (f : Char → Bool) : Decidable (BlindToCase f) :=
  inferInstanceAs (Decidable (∀ q ∈ casePairs, _))

theorem BlindToCase.eq {f : Char → Bool} (hf : BlindToCase f) {c c' : Char}
    (h : c.toUpper = c'.toUpper) : f c = f c' := by
  rcases eq_or_mem_casePairs h with rfl | hpair
  · rfl
  · exact hf _ hpair

/-- What is no letter has one case. -/
theorem eq_of_toUpper {c c' : Char} (hc : BlindToCase fun d => d == c)
    (h : c.toUpper = c'.toUpper) : c' = c := by
  have heq := hc.eq h
  rw [beq_self_eq_true] at heq
  exact eq_of_beq heq.symm

/-! ### Texts -/

/-- Texts that differ in the case of letters alone. -/
abbrev Cased : List Char → List Char → Prop := List.Forall₂ fun c c' => c.toUpper = c'.toUpper

namespace Cased

variable {cs cs' : List Char}

theorem iff_capitals : Cased cs cs' ↔ Keyword.capitals cs = Keyword.capitals cs' := by
  rw [Keyword.capitals, Keyword.capitals, ← List.forall₂_eq_eq_eq, List.forall₂_map_left_iff,
    List.forall₂_map_right_iff]

theorem refl (cs : List Char) : Cased cs cs := List.forall₂_same.mpr fun _ _ => rfl

theorem head? (h : Cased cs cs') {f : Char → Bool} (hf : BlindToCase f)
    (hcs : ∀ c ∈ cs.head?, f c = true) : ∀ c ∈ cs'.head?, f c = true := by
  cases h with
  | nil => exact hcs
  | cons hc _ =>
      intro c' hc'
      obtain rfl := Option.mem_some_iff.mp hc'
      rw [← hf.eq hc]
      exact hcs _ rfl

/-- What is no letter begins both texts or neither. -/
theorem head?_eq_some_iff (h : Cased cs cs') {d : Char} (hd : BlindToCase fun c => c == d) :
    cs.head? = some d ↔ cs'.head? = some d := by
  cases h with
  | nil => exact Iff.rfl
  | cons hc _ =>
      have heq := hd.eq hc
      rw [Bool.eq_iff_iff, beq_iff_eq, beq_iff_eq] at heq
      rw [List.head?_cons, List.head?_cons, Option.some.injEq, Option.some.injEq]
      exact heq

/-- As long as a test goes on, it goes on in both texts. -/
theorem length_takeWhile (h : Cased cs cs') {f : Char → Bool} (hf : BlindToCase f) :
    (cs.takeWhile f).length = (cs'.takeWhile f).length := by
  induction h with
  | nil => rfl
  | cons hc _ ih =>
      rw [List.takeWhile_cons, List.takeWhile_cons, hf.eq hc]
      split
      · rw [List.length_cons, List.length_cons, ih]
      · rfl

/-- A test that goes on over a beginning alone does so in both texts. -/
theorem takeWhile {x x' r r' : List Char} (hx : Cased x x') (hr : Cased r r') {f : Char → Bool}
    (hf : BlindToCase f) (h : (x ++ r).takeWhile f = x) :
    (x' ++ r').takeWhile f = x' ∧ (x' ++ r').dropWhile f = r' := by
  have htake : (x' ++ r').takeWhile f = x' := by
    have hlength := length_takeWhile (List.rel_append hx hr) hf
    have hprefix := List.takeWhile_prefix (l := x' ++ r') f
    rw [List.prefix_iff_eq_take.mp hprefix, ← hlength, h, hx.length_eq, List.take_left]
  have happend := List.takeWhile_append_dropWhile (p := f) (l := x' ++ r')
  rw [htake] at happend
  exact ⟨htake, List.append_cancel_left happend⟩

/-- Places do not depend on the case of letters. -/
theorem after (h : Cased cs cs') (p : Position) : p.after cs = p.after cs' := by
  induction h generalizing p with
  | nil => rfl
  | @cons c c' _ _ hc _ ih =>
      have hnewline := BlindToCase.eq (f := fun d => d == '\n') (by decide) hc
      have hstep : p.step c = p.step c' := by
        by_cases hc : c = '\n'
        · rw [hc] at hnewline ⊢
          rw [eq_of_beq hnewline.symm]
        · rw [beq_eq_false_iff_ne.mpr hc] at hnewline
          rw [Position.step, Position.step, if_neg hc, if_neg (ne_of_beq_false hnewline.symm)]
      rw [Position.after_cons, Position.after_cons, hstep, ih]

end Cased

/-! ### Tests of the lexer -/

theorem blindToCase_isDigit : BlindToCase Char.isDigit := by decide

theorem blindToCase_isExponentLetter : BlindToCase Number.isExponentLetter := by decide

theorem blindToCase_isSign : BlindToCase Number.isSign := by decide

theorem blindToCase_dot : BlindToCase fun c => c = '.' := by decide

theorem blindToCase_continuesWord : BlindToCase continuesWord := by decide

theorem blindToCase_startsWord : BlindToCase startsWord := by decide

theorem blindToCase_isBlank : BlindToCase isBlank := by decide

/-! ### Numbers -/

namespace Number

variable {cs cs' : List Char}

theorem digitFirst_cased (h : Cased cs cs') : digitFirst cs = digitFirst cs' := by
  cases h with
  | nil => rfl
  | cons hc _ => exact blindToCase_isDigit.eq hc

theorem startsHere_cased (h : Cased cs cs') : startsHere cs = startsHere cs' := by
  cases h with
  | nil => rfl
  | @cons c c' r r' hc hr =>
      by_cases hdot : c = '.'
      · subst hdot
        obtain rfl := eq_of_toUpper (by decide) hc
        exact digitFirst_cased hr
      · have hdot' : c' ≠ '.' := by
          rintro rfl
          exact hdot (eq_of_toUpper (by decide) hc.symm)
        have hdigit := blindToCase_isDigit.eq hc
        unfold startsHere
        split
        · next h => exact absurd (List.cons.inj h).1 hdot
        · split
          · next h => exact absurd (List.cons.inj h).1 hdot'
          · exact hdigit

/-- A number goes as far in both texts. -/
theorem length_scan_cased : ∀ {cs cs' : List Char}, Cased cs cs' → ∀ whole,
    (scan whole cs).length = (scan whole cs').length
  | _, _, .nil, _ => rfl
  | _, _, .cons hc .nil, whole => by
      simp only [scan, blindToCase_isDigit.eq hc]
      split <;> rfl
  | _, _, .cons hc (.cons hd hr), whole => by
      have hbehind := length_scan_cased (.cons hd hr)
      have hbehind' := length_scan_cased hr
      simp only [scan, blindToCase_isDigit.eq hc, blindToCase_dot.eq hc,
        blindToCase_isExponentLetter.eq hc, blindToCase_isDigit.eq hd, blindToCase_isSign.eq hd,
        digitFirst_cased hr]
      split_ifs <;> simp only [List.length_cons, List.length_nil, hbehind, hbehind']

end Number

/-! ### Symbols and words -/

theorem isPrefixOf_cased {cs cs' : List Char} (h : Cased cs cs') {w : List Char}
    (hw : ∀ d ∈ w, BlindToCase fun c => d == c) : w.isPrefixOf cs = w.isPrefixOf cs' := by
  induction w generalizing cs cs' with
  | nil => simp
  | cons d w ih =>
      cases h with
      | nil => rfl
      | cons hc hcs =>
          obtain ⟨hd, hw⟩ := List.forall_mem_cons.mp hw
          rw [List.isPrefixOf_cons_cons, List.isPrefixOf_cons_cons, hd.eq hc, ih hcs hw]

/-- No letter stands in a symbol. -/
theorem Symbol.scan?_cased {cs cs' : List Char} (h : Cased cs cs') :
    Symbol.scan? cs = Symbol.scan? cs' := by
  have hcheck : (Symbol.spellings.all fun row => row.2.all fun d => casePairs.all fun q =>
      (d == q.1) == (d == q.2)) = true := by decide +kernel
  have hall : ∀ row ∈ Symbol.spellings, ∀ d ∈ row.2, BlindToCase fun c => d == c := by
    simpa only [List.all_eq_true, beq_iff_eq, BlindToCase] using hcheck
  exact List.find?_congr fun row hrow => isPrefixOf_cased h (hall row hrow)

/-- A reserved word in another case is the same word. -/
theorem Token.ofWord_cased {w w' : List Char} (h : Cased w w') {k : Keyword}
    (hk : ofWord w = .keyword k) : ofWord w' = .keyword k := by
  unfold ofWord at hk ⊢
  rw [Keyword.ofWord?_congr (Cased.iff_capitals.mp h)] at hk
  cases hword : Keyword.ofWord? w' with
  | none => rw [hword] at hk; exact Token.noConfusion hk
  | some k' => rwa [hword] at hk

/-! ### Tokens -/

section Rests

variable {t : Token} {rest rest' : List Char}

theorem scanNumber_recased {x : List Char} (h : scanNumber (x ++ rest) = .token t x rest)
    (hrest : Cased rest rest') :
    scanNumber (x ++ rest') = .token t x rest' ∧ ∀ k, t ≠ .keyword k := by
  have hlength := Number.length_scan_cased (List.rel_append (Cased.refl x) hrest) true
  simp only [scanNumber] at h ⊢
  split at h
  case h_2 => simp at h
  case h_1 t' hvalue =>
    obtain ⟨rfl, htaken, -⟩ := Scan.token.inj h
    have htaken' : Number.scan true (x ++ rest') = x := by
      rw [htaken] at hlength
      have hprefix := Number.scan_prefix true (x ++ rest')
      rw [List.prefix_iff_eq_take.mp hprefix, ← hlength, List.take_left]
    rw [htaken] at hvalue
    rw [htaken', hvalue, List.drop_left]
    refine ⟨rfl, fun k hk => ?_⟩
    rcases classify_eq_ok hvalue with ⟨n, rfl⟩ | ⟨b, rfl⟩ <;> exact Token.noConfusion hk

theorem scanString_recased {quote : Char} {x : List Char}
    (h : scanString quote (x ++ rest) = .token t (quote :: x) rest) (rest' : List Char) :
    scanString quote (x ++ rest') = .token t (quote :: x) rest' ∧ ∀ k, t ≠ .keyword k := by
  simp only [scanString] at h ⊢
  split at h
  case h_1 value raw rest₁ hbody =>
    obtain ⟨rfl, hx, -⟩ := Scan.token.inj h
    obtain rfl := List.tail_eq_of_cons_eq hx
    rw [(stringBody_closed hbody).2 rest']
    exact ⟨rfl, fun k => Token.noConfusion⟩
  all_goals simp at h

theorem scanQuotedName_recased {x : List Char}
    (h : scanQuotedName (x ++ rest) = .token t (backquote :: x) rest) (rest' : List Char) :
    scanQuotedName (x ++ rest') = .token t (backquote :: x) rest' ∧ ∀ k, t ≠ .keyword k := by
  simp only [scanQuotedName] at h ⊢
  split at h
  case h_1 body rest₁ hbody =>
    obtain ⟨rfl, hx, -⟩ := Scan.token.inj h
    obtain rfl := List.tail_eq_of_cons_eq hx
    rw [(nameBody?_some hbody).2 rest']
    exact ⟨rfl, fun k => Token.noConfusion⟩
  case h_2 => simp at h

end Rests

/-- **A token ends at the same place** in front of a rest in another case, and a reserved word in
another case is read as it was. -/
theorem scan_recased {t : Token} {x x' rest rest' : List Char}
    (h : scan (x ++ rest) = .token t x rest) (hrest : Cased rest rest')
    (hx : x' = x ∨ (∃ k, t = .keyword k) ∧ Cased x x') :
    scan (x' ++ rest') = .token t x' rest' := by
  have hxx : Cased x x' := by
    rcases hx with rfl | ⟨-, hx⟩
    · exact .refl x'
    · exact hx
  have hsame : (∀ k, t ≠ .keyword k) → x' = x := fun hno =>
    hx.resolve_right fun hk => hk.1.elim hno
  have hall : Cased (x ++ rest) (x' ++ rest') := List.rel_append hxx hrest
  cases hxx with
  | nil =>
      -- nothing is read at the end of the text alone
      rcases (scan_sound h).2 with ⟨-, hnil⟩ | hspells
      · obtain rfl := List.append_eq_nil_iff.mp hnil |>.2
        cases hrest
        exact h
      · obtain ⟨_, _, hcons, -⟩ := hspells.starts
        exact absurd hcons (List.cons_ne_nil _ _).symm
  | @cons c c' xs xs' hc hxs =>
      rw [List.cons_append, scan_cons] at h
      rw [List.cons_append, List.cons_append] at hall
      have hquote := BlindToCase.eq (f := isQuote) (by decide) hc
      rw [List.cons_append, scan_cons, ← Number.startsHere_cased hall, ← hquote,
        ← blindToCase_startsWord.eq hc, ← Symbol.scan?_cased hall]
      split at h
      case isTrue hstarts =>
        obtain ⟨hnumber, hno⟩ := scanNumber_recased (x := c :: xs) h hrest
        obtain ⟨rfl, rfl⟩ := List.cons.inj (hsame hno)
        rw [if_pos hstarts]
        exact hnumber
      case isFalse hstarts =>
      rw [if_neg hstarts]
      split at h
      case isTrue hopens =>
        obtain ⟨hstring, hno⟩ := scanString_recased h rest'
        obtain ⟨rfl, rfl⟩ := List.cons.inj (hsame hno)
        rw [if_pos hopens]
        exact hstring
      case isFalse hopens =>
      rw [if_neg hopens]
      split at h
      case isTrue hback =>
        subst hback
        obtain ⟨hname, hno⟩ := scanQuotedName_recased h rest'
        obtain ⟨rfl, rfl⟩ := List.cons.inj (hsame hno)
        rw [if_pos rfl]
        exact hname
      case isFalse hback =>
      have hback' : c' ≠ backquote := by
        rintro rfl
        exact hback (eq_of_toUpper (by decide) hc.symm)
      rw [if_neg hback']
      split at h
      case isTrue hword =>
        obtain ⟨ht, htake, -⟩ := Scan.token.inj h
        rw [htake] at ht
        obtain ⟨htake', hdrop'⟩ :=
          Cased.takeWhile hxs hrest blindToCase_continuesWord (List.tail_eq_of_cons_eq htake)
        rw [if_pos hword, htake', hdrop']
        rcases hx with hxeq | ⟨⟨k, rfl⟩, hcased⟩
        · rw [hxeq, ht]
        · rw [Token.ofWord_cased hcased ht]
      case isFalse hword =>
        rw [if_neg hword]
        split at h
        case h_1 s w hs =>
          obtain ⟨rfl, rfl, hdrop⟩ := Scan.token.inj h
          obtain ⟨rfl, rfl⟩ := List.cons.inj (hsame fun k => Token.noConfusion)
          simp
        case h_2 => simp at h

/-! ### Trivia -/

/-- Trivia is trivia in front of a rest in another case. -/
theorem Trivia.recased {w rest rest' : List Char} (h : Trivia rest w) (hrest : Cased rest rest') :
    Trivia rest' w := by
  induction h with
  | none => exact .none
  | blank blank _ ih => exact .blank blank ih
  | @line body w within ends _ ih =>
      refine .line within (fun c hc => ?_) ih
      have hall : Cased (w ++ rest) (w ++ rest') := List.rel_append (Cased.refl w) hrest
      have hhead := hall.head? (f := fun c => c == '\n') (by decide)
        fun c hc => beq_iff_eq.mpr (ends c hc)
      exact eq_of_beq (hhead c hc)
  | block within _ ih => exact .block within ih

theorem Bare.recased {cs cs' : List Char} (h : Bare cs) (hcs : Cased cs cs') : Bare cs' := by
  cases hcs with
  | nil => exact h
  | @cons c c' r r' hc hr =>
      obtain ⟨hblank, hslash⟩ := h
      refine ⟨by rw [← blindToCase_isBlank.eq hc, hblank], ?_⟩
      rintro rfl
      have hno := hslash (eq_of_toUpper (by decide) hc.symm)
      have hhead := Cased.head? hr (f := fun d => d != '/' && d != '*')
        (by decide) fun d hd => by simpa using hno d hd
      exact fun d hd => by simpa using hhead d hd

/-! ### Reserved words in another case -/

/-- Whether a token is a reserved word. -/
def Token.isKeyword : Token → Bool
  | .keyword _ => true
  | _ => false

theorem Token.isKeyword_iff {t : Token} : t.isKeyword = true ↔ ∃ k, t = .keyword k := by
  cases t <;> simp [isKeyword]

/-- Whether a place lies within a lexeme. -/
def Lexeme.Covers (l : Lexeme) (q : Position) : Prop :=
  ¬q.Before l.position ∧ q.Before (l.position.after l.text.toList)

instance (l : Lexeme) (q : Position) : Decidable (l.Covers q) :=
  inferInstanceAs (Decidable (¬_ ∧ _))

/-- That a lexeme is another one, or the reserved word that the other one is in another case. -/
structure Lexeme.Recased (l l' : Lexeme) : Prop where
  token : l'.token = l.token
  position : l'.position = l.position
  text : l'.text = l.text ∨ l.token.isKeyword = true ∧ Cased l.text.toList l'.text.toList

/-- That a text is another one, which begins at a place and has certain lexemes, but for the case
of letters that stand within reserved words. -/
structure Recased (p : Position) (ls : List Lexeme) (text text' : List Char) : Prop where
  letters : Keyword.capitals text' = Keyword.capitals text
  within : ∀ i < text.length, text'[i]? ≠ text[i]? →
    ∃ l ∈ ls, l.token.isKeyword = true ∧ l.Covers (p.after (text.take i))

instance (p : Position) (ls : List Lexeme) (text text' : List Char) :
    Decidable (Recased p ls text text') :=
  decidable_of_iff (_ ∧ _) ⟨fun h => ⟨h.1, h.2⟩, fun h => ⟨h.letters, h.within⟩⟩

namespace Position

theorem not_before_after (p : Position) (cs : List Char) : ¬(p.after cs).Before p := by
  cases cs with
  | nil => unfold Before; rw [after_nil]; omega
  | cons c cs =>
      have hbefore := p.before_after (List.cons_ne_nil c cs)
      unfold Before at *
      omega

theorem before_after_take (p : Position) {cs : List Char} {i : Nat} (hi : i < cs.length) :
    (p.after (cs.take i)).Before (p.after cs) := by
  have hrest : (p.after (cs.take i)).Before ((p.after (cs.take i)).after (cs.drop i)) :=
    before_after _ (by simpa using hi)
  rwa [← after_append, List.take_append_drop] at hrest

end Position

/-- What is read of a text stands behind the place where the text begins. -/
theorem Reads.not_before {p : Position} {text : List Char} {ps : List Piece} (h : Reads p text ps) :
    ∀ l ∈ ps.map Piece.lexeme, ¬l.position.Before p := by
  induction h with
  | @ending p w trivia =>
      intro l hl
      obtain rfl := List.mem_singleton.mp hl
      exact p.not_before_after w
  | @piece p w text l ps trivia bare scans notEnd place more ih =>
      intro l' hl'
      rcases List.mem_cons.mp hl' with rfl | hl'
      · rw [place]
        exact p.not_before_after w
      · have hbehind := ih l' hl'
        have hmore := p.not_before_after (w ++ l.text.toList)
        unfold Position.Before at *
        omega

namespace Recased

variable {p : Position} {l : Lexeme} {ls : List Lexeme} {w text text' : List Char}

/-- A text without reserved words has no other case. -/
theorem eq_text (h : Recased p ls text text') (hls : ∀ l ∈ ls, l.token.isKeyword = false) :
    text' = text := by
  have hlength := (Cased.iff_capitals.mpr h.letters).length_eq
  refine List.ext_getElem?' fun i hi => ?_
  rw [hlength, max_self] at hi
  by_contra hne
  obtain ⟨l, hl, hkeyword, -⟩ := h.within i hi hne
  rw [hls l hl] at hkeyword
  exact Bool.false_ne_true hkeyword

/-- Two texts in a row are in another case if each of them is. -/
theorem of_append {u : List Char} (h : Recased p ls (u ++ text) text') :
    ∃ u' rest', text' = u' ++ rest' ∧ Recased p ls u u' ∧ Recased (p.after u) ls text rest' := by
  have hletters := h.letters
  rw [Keyword.capitals, Keyword.capitals, List.map_append] at hletters
  obtain ⟨u', rest', rfl, hu, hrest⟩ := List.map_eq_append_iff.mp hletters
  have hlength := (Cased.iff_capitals.mpr hu).length_eq
  refine ⟨u', rest', rfl, ⟨hu, fun i hi hne => ?_⟩, ⟨hrest, fun i hi hne => ?_⟩⟩
  · have hwithin := h.within i (by rw [List.length_append]; omega)
    rw [List.getElem?_append_left (by omega), List.getElem?_append_left hi,
      List.take_append_of_le_length hi.le] at hwithin
    exact hwithin hne
  · have hwithin := h.within (u.length + i) (by rw [List.length_append]; omega)
    rw [List.getElem?_append_right (by omega), List.getElem?_append_right (by omega), hlength,
      Nat.add_sub_cancel_left, List.take_length_add_append,
      Position.after_append] at hwithin
    exact hwithin hne

/-- Lexemes that lie elsewhere do not matter. -/
theorem restrict (h : Recased p ls text text') {ls' : List Lexeme}
    (hls : ∀ l ∈ ls, ∀ q : Position, ¬q.Before p → q.Before (p.after text) → l.Covers q → l ∈ ls') :
    Recased p ls' text text' := by
  refine ⟨h.letters, fun i hi hne => ?_⟩
  obtain ⟨l, hl, hkeyword, hcovers⟩ := h.within i hi hne
  exact ⟨l, hls l hl _ (p.not_before_after _) (p.before_after_take hi) hcovers, hkeyword, hcovers⟩

/-- In another case the trivia in front of a lexeme is the same, and so is the lexeme, unless it is
a reserved word; and the rest is the rest in another case. -/
theorem split (h : Recased p (l :: ls) (w ++ (l.text.toList ++ text)) text')
    (place : l.position = p.after w)
    (hls : ∀ l' ∈ ls, ¬l'.position.Before (p.after (w ++ l.text.toList))) :
    ∃ x' rest', text' = w ++ (x' ++ rest') ∧
      (x' = l.text.toList ∨ l.token.isKeyword = true ∧ Cased l.text.toList x') ∧
      Recased (p.after (w ++ l.text.toList)) ls text rest' := by
  obtain ⟨w', rest, rfl, hw, hrest⟩ := h.of_append
  obtain ⟨x', rest', rfl, hx, hrest'⟩ := hrest.of_append
  have hbehind := (p.after w).not_before_after l.text.toList
  rw [Position.after_append] at hls ⊢
  -- the lexemes lie behind the trivia, and the others behind the first
  have hw' : Recased p [] w w' := by
    refine hw.restrict fun l' hl' q _ hq hcovers => ?_
    rcases List.mem_cons.mp hl' with rfl | hl'
    · exact absurd (place ▸ hq) hcovers.1
    · have hmore := hls l' hl'
      have hbefore := hcovers.1
      unfold Position.Before at *
      omega
  have hx' : Recased (p.after w) [l] l.text.toList x' := by
    refine hx.restrict fun l' hl' q _ hq hcovers => ?_
    rcases List.mem_cons.mp hl' with rfl | hl'
    · exact List.mem_singleton_self l'
    · have hmore := hls l' hl'
      have hbefore := hcovers.1
      unfold Position.Before at *
      omega
  refine ⟨x', rest', by rw [hw'.eq_text (by simp)], ?_,
    hrest'.restrict fun l' hl' q hq _ hcovers => ?_⟩
  · cases hkeyword : l.token.isKeyword with
    | true => exact .inr ⟨rfl, Cased.iff_capitals.mpr hx'.letters.symm⟩
    | false => exact .inl (hx'.eq_text fun l' hl' => by rw [List.mem_singleton.mp hl', hkeyword])
  · rcases List.mem_cons.mp hl' with rfl | hl'
    · exact absurd (place ▸ hcovers.2) hq
    · exact hl'

end Recased

/-- **A text in another case is read piece by piece as the text is.** -/
theorem Reads.recased {p : Position} {text : List Char} {ps : List Piece} (h : Reads p text ps)
    {text' : List Char} (htext : Recased p (ps.map Piece.lexeme) text text') :
    ∃ ps', Reads p text' ps' ∧
      List.Forall₂ Lexeme.Recased (ps.map Piece.lexeme) (ps'.map Piece.lexeme) := by
  induction h generalizing text' with
  | @ending p w trivia =>
      obtain rfl := htext.eq_text fun l hl => by
        rw [List.mem_singleton.mp hl]
        rfl
      exact ⟨_, .ending trivia, .cons ⟨rfl, rfl, .inl rfl⟩ .nil⟩
  | @piece p w text l ps trivia bare scans notEnd place more ih =>
      obtain ⟨x', rest', rfl, hx, hmore⟩ := htext.split place more.not_before
      obtain ⟨ps', hreads, hlexemes⟩ := ih hmore
      have hrest := Cased.iff_capitals.mpr hmore.letters.symm
      have hxx : Cased l.text.toList x' := by
        rcases hx with rfl | ⟨-, hx⟩
        · exact .refl _
        · exact hx
      have hall : Cased (l.text.toList ++ text) (x' ++ rest') := List.rel_append hxx hrest
      have hplace := Cased.after (List.rel_append (Cased.refl w) hxx) p
      have hscan := scan_recased scans hrest
        (hx.imp_right fun hx => ⟨Token.isKeyword_iff.mp hx.1, hx.2⟩)
      let l' : Lexeme := { l with text := String.ofList x' }
      have hl' : l'.text.toList = x' := String.toList_ofList
      refine ⟨⟨w, l'⟩ :: ps', ?_, .cons ⟨rfl, rfl, ?_⟩ hlexemes⟩
      · rw [← hl'] at hall hscan hplace ⊢
        rw [hplace] at hreads
        exact .piece (trivia.recased hall) (bare.recased hall) hscan notEnd place hreads
      · show l'.text = _ ∨ _ ∧ Cased _ l'.text.toList
        rw [hl']
        exact hx.imp_left fun hx => by rw [← String.toList_inj, hl', hx]

/-- The lexemes of a text in another case are those of the text, at the same places. -/
theorem tokenize_recased {source source' : String} {ls : List Lexeme}
    (h : tokenize source = .ok ls) (hs : Recased .start ls source.toList source'.toList) :
    ∃ ls', tokenize source' = .ok ls' ∧ List.Forall₂ Lexeme.Recased ls ls' := by
  obtain ⟨ps, rfl, hreads⟩ := reads_of_tokenize h
  obtain ⟨ps', hreads', hlexemes⟩ := hreads.recased hs
  exact ⟨_, hreads'.tokensFrom (Nat.lt_succ_self _), hlexemes⟩

end BindCheck

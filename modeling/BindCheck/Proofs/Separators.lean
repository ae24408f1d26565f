import BindCheck.Proofs.Lossless

/-!
# BindCheck.Proofs.Separators

**A separator ends whatever stands in front of it.** A space and a line feed go on no number, no
word and no symbol, and they open no comment (`Separates`). The scanner looks up to two characters
ahead, and what it looks for is never a separator; so a token that ends somewhere in front of one
ends at the same place, however the text goes on behind it (`scan_separated`), and where no trivia
stands there is none either (`Bare.separated`).
-/

namespace BindCheck

/-- Whether a character is a blank that goes on no token. -/
structure Separates (g : Char) : Prop where
  blank : isBlank g = true
  notDigit : g.isDigit = false
  notWord : continuesWord g = false
  notSymbol : ∀ row ∈ Symbol.spellings, g ∉ row.2

theorem separates_space : Separates ' ' := ⟨by decide, by decide, by decide, by decide⟩

theorem separates_newline : Separates '\n' := ⟨by decide, by decide, by decide, by decide⟩

namespace Separates

variable {g : Char}

theorem ne (hg : Separates g) {c : Char} (hc : ∃ row ∈ Symbol.spellings, c ∈ row.2) : g ≠ c := by
  rintro rfl
  obtain ⟨row, hrow, hmem⟩ := hc
  exact hg.notSymbol row hrow hmem

theorem not_isSign (hg : Separates g) : Number.isSign g = false := by
  simp [Number.isSign, hg.ne (c := '+') (by decide), hg.ne (c := '-') (by decide)]

theorem not_isExponentLetter (hg : Separates g) : Number.isExponentLetter g = false := by
  have hword := hg.notWord
  simp only [continuesWord, Bool.or_eq_false_iff] at hword
  exact not_isExponentLetter_of_not_startsWord
    (by simp only [startsWord, hword.1.1, hword.2, Bool.or_self])

end Separates

section

variable {g : Char} {b rest : List Char}

/-! ### Numbers in front of a separator -/

namespace Number

theorem scan_cons_separator (hg : Separates g) (whole : Bool) (b : List Char) :
    scan whole (g :: b) = [] :=
  scan_nil_of_whole (scan_eq_nil hg.notDigit hg.not_isExponentLetter
    fun h => absurd h (hg.ne (by decide))) whole

theorem length_scan_pos (whole : Bool) {cs : List Char} (h : digitFirst cs = true) :
    0 < (scan whole cs).length := by
  cases cs with
  | nil => exact absurd h Bool.false_ne_true
  | cons c cs =>
      rw [scan_digit h]
      exact Nat.succ_pos _

/-- A number of one character is a digit. -/
theorem scan_eq_nil_of_length {whole : Bool} {c : Char} {cs : List Char}
    (hc : ¬c.isDigit = true) (h : (scan whole (c :: cs)).length ≤ 1) :
    scan whole (c :: cs) = [] := by
  match cs with
  | [] => simp [scan, hc]
  | d :: r =>
      rw [scan, if_neg hc] at h ⊢
      have hmore : digitFirst (d :: r) = true → ¬(c :: scan false (d :: r)).length ≤ 1 :=
        fun hd hle => absurd (length_scan_pos false hd)
          (Nat.not_lt_of_le (Nat.le_of_succ_le_succ hle))
      split_ifs at h ⊢ with hdot he hs
      · exact absurd h (hmore (Bool.and_eq_true_iff.mp hdot).2)
      · exact absurd h (hmore (Bool.and_eq_true_iff.mp he).2)
      · simp at h
      · rfl

/-- A number that ends in front of a separator ends there whatever comes behind. -/
theorem scan_separated (hg : Separates g) : ∀ (a : List Char) (whole : Bool),
    (scan whole (a ++ rest)).length ≤ a.length →
      scan whole (a ++ g :: b) = scan whole (a ++ rest)
  | [], whole, h => by
      rw [List.nil_append, List.nil_append, scan_cons_separator hg]
      exact (List.length_eq_zero_iff.mp (Nat.le_zero.mp h)).symm
  | [c], whole, h => by
      rw [List.singleton_append] at h
      rw [List.singleton_append, List.singleton_append]
      by_cases hc : c.isDigit = true
      · rw [scan_digit hc] at h ⊢
        rw [scan_digit hc, scan_cons_separator hg]
        rw [List.length_eq_zero_iff.mp (Nat.le_zero.mp (Nat.le_of_succ_le_succ h))]
      · rw [scan_eq_nil_of_length hc h]
        simp [scan, hc, hg.notDigit, hg.not_isSign]
  | c :: d :: a, whole, h => by
      have hbehind := fun whole => scan_separated hg (d :: a) whole
      simp only [List.cons_append, List.length_cons, scan] at h hbehind ⊢
      split_ifs at h ⊢ with hc hdot he hs hs' hs'
      · rw [hbehind _ (Nat.le_of_succ_le_succ h)]
      · rw [hbehind _ (Nat.le_of_succ_le_succ h)]
      · rw [hbehind _ (Nat.le_of_succ_le_succ h)]
      · rw [scan_separated hg a _ (Nat.le_of_succ_le_succ (Nat.le_of_succ_le_succ h))]
      · cases a with
        | nil =>
            have hdigit := (Bool.and_eq_true_iff.mp hs).2
            exact absurd hdigit (by simp [digitFirst, hg.notDigit])
        | cons x a => exact absurd hs hs'
      · -- the digit behind the sign stands behind the separator, so the number goes on behind it
        cases a with
        | nil =>
            have hpos := length_scan_pos false (Bool.and_eq_true_iff.mp hs').2
            simp only [List.length_cons, List.length_nil] at h
            omega
        | cons x a => exact absurd hs' hs
      · rfl

end Number

/-! ### Tokens in front of a separator -/

/-- A symbol of two characters is as long as symbols are. -/
theorem boundary_of_length (rest : List Char) {s : Symbol} {w : List Char} (hw : w.length = 2) :
    Boundary (.symbol s) w rest := by
  intro d _
  refine ⟨fun hdot => ?_, fun row hrow heq => ?_⟩
  · rw [hdot] at hw
    cases hw
  · have hlength := length_of_mem_spellings (s := row.1) (w := row.2) hrow
    rw [heq, List.length_append, List.length_singleton, hw] at hlength
    omega

/-- Behind a symbol stands nothing that makes it another token. -/
theorem boundary_of_scan_symbol {s : Symbol} {w : List Char} (row : (s, w) ∈ Symbol.spellings)
    (h : scan (w ++ rest) = .token (.symbol s) w rest) : Boundary (.symbol s) w rest := by
  intro d hd
  obtain ⟨r, rfl⟩ : ∃ r, rest = d :: r := List.head?_eq_some_iff.mp hd
  constructor
  · -- a number would begin with the dot
    rintro rfl
    refine Bool.eq_false_iff.mpr fun hdigit => ?_
    have hstarts : Number.startsHere (['.'] ++ d :: r) = true := hdigit
    rw [scan_of_startsHere hstarts, scanNumber] at h
    split at h
    case h_1 t value =>
      obtain ⟨rfl, -⟩ := Scan.token.inj h
      rcases classify_eq_ok value with ⟨n, hn⟩ | ⟨x, hx⟩ <;> contradiction
    case h_2 => cases h
  · -- the longer symbol would be read
    intro row' hrow' heq
    have hlength := length_of_mem_spellings row
    have hlength' := length_of_mem_spellings (s := row'.1) (w := row'.2) hrow'
    rw [heq, List.length_append, List.length_singleton] at hlength'
    have htwo : row'.2.length = 2 := by
      rw [heq, List.length_append, List.length_singleton]
      omega
    have hscan := scan_spelling (.symbol (s := row'.1) hrow') (boundary_of_length r htwo)
    rw [heq, List.append_assoc, List.singleton_append, h] at hscan
    have hsame := congrArg List.length (Scan.token.inj hscan).2.1
    rw [List.length_append, List.length_singleton] at hsame
    omega

/-- **A token that ends in front of a separator ends there** however the text goes on behind it. -/
theorem scan_separated (hg : Separates g) {t : Token} {x a : List Char} (hx : x ≠ [])
    (h : scan (x ++ (a ++ rest)) = .token t x (a ++ rest)) :
    scan (x ++ (a ++ g :: b)) = .token t x (a ++ g :: b) := by
  have hspells : Spells t x := by
    rcases (scan_sound h).2 with ⟨-, hnil⟩ | hspells
    · exact absurd (List.append_eq_nil_iff.mp hnil).1 hx
    · exact hspells
  have hhead : ∀ d ∈ (a ++ g :: b).head?, d ∈ (a ++ rest).head? ∨ d = g := by
    cases a with
    | nil => exact fun d hd => .inr (Option.some.inj hd).symm
    | cons c a => exact fun d hd => .inl hd
  cases hspells with
  | number starts scans value =>
      have hold : Number.scan true (x ++ (a ++ rest)) = x := by
        rw [scan_of_startsHere (startsHere_append _ starts), scanNumber] at h
        split at h
        case h_1 => exact (Scan.token.inj h).2.1
        case h_2 => cases h
      have hnew : Number.scan true (x ++ (a ++ g :: b)) = x := by
        rw [← List.append_assoc] at hold ⊢
        rw [Number.scan_separated hg, hold]
        rw [hold, List.length_append]
        exact Nat.le_add_right _ _
      rw [scan_of_startsHere (startsHere_append _ starts), scanNumber, hnew]
      simp [value]
  | @string quote body value opens closes => exact scan_spelling (.string opens closes) trivial
  | @quotedName body closes =>
      obtain ⟨-, hbody⟩ := nameBody?_some closes
      rw [List.cons_append, scan_backquote, scanQuotedName, hbody]
  | @word c r starts continues =>
      rw [List.cons_append, scan_of_startsWord starts] at h
      obtain ⟨-, -, hdrop⟩ := Scan.token.inj h
      have hold : ∀ d ∈ (a ++ rest).head?, continuesWord d = false := by
        intro d hd
        have hfirst := List.head?_dropWhile_not continuesWord (r ++ (a ++ rest))
        rwa [hdrop, Option.mem_def.mp hd] at hfirst
      have hnew : ∀ d ∈ (a ++ g :: b).head?, continuesWord d = false := by
        intro d hd
        rcases hhead d hd with hd | rfl
        · exact hold d hd
        · exact hg.notWord
      refine scan_spelling (.word starts continues) ?_
      rcases ofWord_cases (c :: r) with ⟨k, hk⟩ | hk <;> rw [hk] <;> exact hnew
  | @symbol s w row =>
      have hold := boundary_of_scan_symbol row h
      refine scan_spelling (.symbol row) fun d hd => ?_
      rcases hhead d hd with hd | rfl
      · exact hold d hd
      · exact ⟨fun _ => hg.notDigit, fun row' hrow' heq => hg.notSymbol row' hrow' (by simp [heq])⟩

/-! ### Trivia in front of a separator -/

/-- What is trivia in front of a rest is told by the first character of the rest. -/
theorem Trivia.congr_head? {w rest' : List Char} (h : Trivia rest w)
    (hhead : rest.head? = rest'.head?) : Trivia rest' w := by
  induction h with
  | none => exact .none
  | blank blank _ ih => exact .blank blank ih
  | @line body w within ends _ ih =>
      rw [List.head?_append, hhead, ← List.head?_append] at ends
      exact .line within ends ih
  | block within _ ih => exact .block within ih

/-- Where no trivia stands, none begins with what follows a separator. -/
theorem Bare.separated (hg : Separates g) {x a : List Char} (hx : x ≠ [])
    (h : Bare (x ++ (a ++ rest))) : Bare (x ++ (a ++ g :: b)) := by
  obtain ⟨c, r, rfl⟩ := List.exists_cons_of_ne_nil hx
  rw [List.cons_append, ← List.append_assoc] at h ⊢
  refine ⟨h.1, fun hc d hd => ?_⟩
  have hold := h.2 hc d
  generalize r ++ a = s at hd hold
  cases s with
  | nil =>
      obtain rfl := Option.some.inj hd
      exact ⟨hg.ne (by decide), hg.ne (by decide)⟩
  | cons e s => exact hold hd

end

end BindCheck

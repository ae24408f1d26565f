import BindCheck.Proofs.Relexing
import Mathlib.Data.Nat.Digits.Defs

/-!
# BindCheck.Proofs.NumberLiterals

**A number literal is the longest run that has the form of a number.** `Number.Form` gives the form
as a grammar, with the dot and the exponents of a literal told apart, and without a scanner's flags
and its looks ahead:

    (D+ ('.' D+)? | '.' D+) X*      with  X = [eE] [+-]? D+

* What the scanner takes has the form (`Number.exists_form_scan`): each step of it goes on with a
  digit, or begins what a digit is known to follow.
* It takes every run of the form that the input begins with (`Number.Form.scan_append`), so it takes
  the longest.
* The dot and the number of exponents can be read off a literal (`Number.Form.contains_dot`,
  `Number.Form.countP_letter`), and they alone decide what becomes of it, with the value of an
  integer.
-/

namespace BindCheck

namespace Number

/-! ### The form of a number -/

/-- Digits, and at least one. -/
structure Digits (w : List Char) : Prop where
  nonempty : w ≠ []
  isDigit : ∀ c ∈ w, c.isDigit = true

/-- An exponent: its letter, digits, and perhaps a sign between them. -/
inductive Exponent : List Char → Prop where
  | unsigned {e : Char} {ds : List Char} (letter : e = 'e' ∨ e = 'E') (digits : Digits ds) :
      Exponent (e :: ds)
  | signed {e s : Char} {ds : List Char} (letter : e = 'e' ∨ e = 'E') (sign : s = '+' ∨ s = '-')
      (digits : Digits ds) : Exponent (e :: s :: ds)

/-- So many exponents in a row. -/
inductive Exponents : Nat → List Char → Prop where
  | none : Exponents 0 []
  | more {n : Nat} {x w : List Char} (first : Exponent x) (others : Exponents n w) :
      Exponents (n + 1) (x ++ w)

/-- The form of a number, with a dot or without one, and with so many exponents. -/
inductive Form : Bool → Nat → List Char → Prop where
  | whole {n : Nat} {ds x : List Char} (digits : Digits ds) (exponents : Exponents n x) :
      Form false n (ds ++ x)
  | places {n : Nat} {ds fs x : List Char} (digits : Digits ds) (fraction : Digits fs)
      (exponents : Exponents n x) : Form true n (ds ++ '.' :: (fs ++ x))
  | fraction {n : Nat} {fs x : List Char} (fraction : Digits fs) (exponents : Exponents n x) :
      Form true n ('.' :: (fs ++ x))

/-- The number that digits denote. -/
def decimal (ds : List Char) : Nat :=
  Nat.ofDigits 10 (ds.reverse.map fun c => c.toNat - '0'.toNat)

/-- Whether a digit stands first, or a dot and a digit. -/
def Begins (cs : List Char) : Prop :=
  ∃ d r, d.isDigit = true ∧ (cs = d :: r ∨ cs = '.' :: d :: r)

theorem Begins.startsHere {cs : List Char} (h : Begins cs) : startsHere cs = true := by
  obtain ⟨d, r, hd, rfl | rfl⟩ := h
  · have hdot : d ≠ '.' := by
      rintro rfl
      exact absurd hd (by decide)
    rw [Number.startsHere.eq_def]
    split
    case h_1 heq => exact absurd (List.cons.inj heq).1 hdot
    case h_2 => exact hd
  · exact hd

/-! ### Digits and letters -/

theorem isExponentLetter_of_letter {e : Char} (h : e = 'e' ∨ e = 'E') :
    isExponentLetter e = true := by
  rcases h with rfl | rfl <;> rfl

theorem letter_of_isExponentLetter {e : Char} (h : isExponentLetter e = true) :
    e = 'e' ∨ e = 'E' := by
  simpa [isExponentLetter] using h

theorem not_isDigit_of_letter {e : Char} (h : e = 'e' ∨ e = 'E') : ¬e.isDigit = true := by
  rcases h with rfl | rfl <;> decide

theorem not_isDigit_of_sign {s : Char} (h : s = '+' ∨ s = '-') : ¬s.isDigit = true := by
  rcases h with rfl | rfl <;> decide

theorem not_isExponentLetter_of_sign {s : Char} (h : s = '+' ∨ s = '-') :
    ¬isExponentLetter s = true := by
  rcases h with rfl | rfl <;> decide

namespace Digits

variable {ds : List Char}

theorem exists_cons (h : Digits ds) : ∃ d r, ds = d :: r ∧ d.isDigit = true := by
  obtain ⟨d, r, rfl⟩ := List.exists_cons_of_ne_nil h.nonempty
  exact ⟨d, r, rfl, h.isDigit d List.mem_cons_self⟩

theorem cons {d : Char} (hd : d.isDigit = true) (h : ∀ c ∈ ds, c.isDigit = true) :
    Digits (d :: ds) :=
  ⟨List.cons_ne_nil d ds, List.forall_mem_cons.mpr ⟨hd, h⟩⟩

theorem dot_notMem (h : Digits ds) : '.' ∉ ds := fun hdot => absurd (h.isDigit '.' hdot) (by decide)

theorem countP_letter (h : Digits ds) : ds.countP isExponentLetter = 0 :=
  List.countP_eq_zero.mpr fun c hc hletter =>
    not_isDigit_of_letter (letter_of_isExponentLetter hletter) (h.isDigit c hc)

end Digits

theorem Exponent.dot_notMem {x : List Char} (h : Exponent x) : '.' ∉ x := by
  cases h with
  | unsigned letter digits => rcases letter with rfl | rfl <;> simp [digits.dot_notMem]
  | signed letter sign digits =>
      rcases letter with rfl | rfl <;> rcases sign with rfl | rfl <;> simp [digits.dot_notMem]

theorem Exponent.countP_letter {x : List Char} (h : Exponent x) :
    x.countP isExponentLetter = 1 := by
  cases h with
  | unsigned letter digits =>
      rw [List.countP_cons_of_pos (isExponentLetter_of_letter letter), digits.countP_letter]
  | signed letter sign digits =>
      rw [List.countP_cons_of_pos (isExponentLetter_of_letter letter),
        List.countP_cons_of_neg (not_isExponentLetter_of_sign sign), digits.countP_letter]

namespace Exponents

variable {n : Nat} {w : List Char}

theorem dot_notMem (h : Exponents n w) : '.' ∉ w := by
  induction h with
  | none => exact List.not_mem_nil
  | more first _ ih => simp [first.dot_notMem, ih]

theorem countP_letter (h : Exponents n w) : w.countP isExponentLetter = n := by
  induction h with
  | none => rfl
  | more first _ ih => rw [List.countP_append, first.countP_letter, ih, Nat.add_comm]

/-- Exponents do not begin with a digit or a dot. -/
theorem not_cons {c : Char} (hc : c.isDigit = true ∨ c = '.') : ¬Exponents n (c :: w) := by
  intro h
  generalize hcs : c :: w = cs at h
  cases h with
  | none => exact absurd hcs (List.cons_ne_nil c w)
  | more first _ =>
      have hletter : c = 'e' ∨ c = 'E' := by
        cases first <;> obtain ⟨rfl, -⟩ := List.cons.inj hcs <;> assumption
      rcases hc with hc | rfl
      · exact not_isDigit_of_letter hletter hc
      · exact absurd hletter (by decide)

end Exponents

namespace Form

variable {dotted : Bool} {n : Nat} {w : List Char}

/-- The dot of a literal can be read off it. -/
theorem contains_dot (h : Form dotted n w) : w.contains '.' = dotted := by
  cases h with
  | whole digits exponents =>
      simpa using ⟨digits.dot_notMem, exponents.dot_notMem⟩
  | places digits fraction exponents => simp
  | fraction fraction exponents => simp

/-- Its exponents can be counted by their letters. -/
theorem countP_letter (h : Form dotted n w) : w.countP isExponentLetter = n := by
  have hdot : ¬isExponentLetter '.' = true := by decide
  cases h with
  | whole digits exponents =>
      rw [List.countP_append, digits.countP_letter, exponents.countP_letter, Nat.zero_add]
  | places digits fraction exponents =>
      rw [List.countP_append, List.countP_cons_of_neg hdot, List.countP_append,
        digits.countP_letter, fraction.countP_letter, exponents.countP_letter, Nat.zero_add,
        Nat.zero_add]
  | fraction fraction exponents =>
      rw [List.countP_cons_of_neg hdot, List.countP_append, fraction.countP_letter,
        exponents.countP_letter, Nat.zero_add]

end Form

/-! ### The scanner takes all that has the form -/

theorem Digits.scan_append {ds : List Char} (h : Digits ds) (whole : Bool) (r : List Char) :
    scan whole (ds ++ r) = ds ++ scan whole r := by
  obtain ⟨-, hds⟩ := h
  induction ds with
  | nil => rfl
  | cons d ds ih =>
      obtain ⟨hd, hds⟩ := List.forall_mem_cons.mp hds
      rw [List.cons_append, scan_digit hd, ih hds, List.cons_append]

theorem scan_dot {d : Char} (hd : d.isDigit = true) (r : List Char) :
    scan true ('.' :: d :: r) = '.' :: scan false (d :: r) := by
  rw [scan, if_neg (by decide), if_pos (by simp [hd])]

/-- Digits behind a dot are taken with the dot. -/
theorem Digits.scan_dot_append {fs : List Char} (h : Digits fs) (r : List Char) :
    scan true ('.' :: (fs ++ r)) = '.' :: (fs ++ scan false r) := by
  rw [← h.scan_append]
  obtain ⟨d, fs, rfl, hd⟩ := h.exists_cons
  exact scan_dot hd (fs ++ r)

theorem Exponent.scan_append {x : List Char} (h : Exponent x) (whole : Bool) (r : List Char) :
    scan whole (x ++ r) = x ++ scan false r := by
  cases h with
  | @unsigned e ds letter digits =>
      have hdigits := digits.scan_append false r
      obtain ⟨d, ds, rfl, hd⟩ := digits.exists_cons
      have hdot : ¬(decide (e = '.') && whole && d.isDigit) = true := by
        rcases letter with rfl | rfl <;> simp
      rw [List.cons_append] at hdigits
      rw [List.cons_append, List.cons_append, scan, if_neg (not_isDigit_of_letter letter),
        if_neg hdot, if_pos (by simp [isExponentLetter_of_letter letter, hd]), hdigits]
      rfl
  | @signed e s ds letter sign digits =>
      have hdigits := digits.scan_append false r
      obtain ⟨d, ds, rfl, hd⟩ := digits.exists_cons
      have hs : s.isDigit = false := Bool.eq_false_iff.mpr (not_isDigit_of_sign sign)
      have hsign : isSign s = true := by rcases sign with rfl | rfl <;> rfl
      have hfirst : digitFirst (d :: ds ++ r) = true := hd
      rw [List.cons_append, List.cons_append, scan, if_neg (not_isDigit_of_letter letter),
        if_neg (by simp [hs]), if_neg (by simp [hs]),
        if_pos (by simp only [isExponentLetter_of_letter letter, hsign, hfirst, Bool.and_self]),
        hdigits]
      rfl

/-- Behind exponents there is no dot any more. -/
theorem Exponents.scan_append {n : Nat} {w : List Char} (h : Exponents n w) (whole : Bool)
    (r : List Char) : scan whole (w ++ r) = w ++ scan (whole && n == 0) r := by
  induction h generalizing whole with
  | none => simp
  | more first others ih =>
      rw [List.append_assoc, first.scan_append, ih, List.append_assoc]
      simp

/-- **What has the form of a number is taken**, and what may then follow is told by its dot and its
exponents. -/
theorem Form.scan_append {dotted : Bool} {n : Nat} {w : List Char} (h : Form dotted n w)
    (r : List Char) : scan true (w ++ r) = w ++ scan (!dotted && n == 0) r := by
  cases h with
  | whole digits exponents =>
      rw [List.append_assoc, digits.scan_append, exponents.scan_append, List.append_assoc]
      rfl
  | places digits fraction exponents =>
      rw [List.append_assoc, digits.scan_append, List.cons_append, List.append_assoc,
        fraction.scan_dot_append, exponents.scan_append]
      simp
  | fraction fraction exponents =>
      rw [List.cons_append, List.append_assoc, fraction.scan_dot_append, exponents.scan_append]
      simp

theorem Form.prefix_scan {dotted : Bool} {n : Nat} {w cs : List Char} (h : Form dotted n w)
    (hw : w <+: cs) : w <+: scan true cs := by
  obtain ⟨r, rfl⟩ := hw
  exact ⟨_, (h.scan_append r).symm⟩

/-! ### What the scanner takes has the form -/

theorem digitFirst_scan {cs : List Char} (h : digitFirst cs = true) (whole : Bool) :
    digitFirst (scan whole cs) = true := by
  cases cs with
  | nil => exact absurd h Bool.false_ne_true
  | cons c cs =>
      rw [scan_digit h]
      exact h

/-- What the scanner may take: digits, perhaps none of them, and exponents; between them a dot and
digits, as long as a dot may come. -/
inductive Scanned : Bool → List Char → Prop where
  | exponents {whole : Bool} {n : Nat} {d x : List Char} (digits : ∀ c ∈ d, c.isDigit = true)
      (exponents : Exponents n x) : Scanned whole (d ++ x)
  | places {n : Nat} {d f x : List Char} (digits : ∀ c ∈ d, c.isDigit = true)
      (fraction : Digits f) (exponents : Exponents n x) : Scanned true (d ++ '.' :: (f ++ x))

namespace Scanned

variable {whole : Bool} {d : Char} {w : List Char}

theorem nil : Scanned whole [] := .exponents (d := []) (by simp) .none

theorem digit (hd : d.isDigit = true) (h : Scanned whole w) : Scanned whole (d :: w) := by
  cases h with
  | exponents digits exponents =>
      exact .exponents (d := d :: _) (List.forall_mem_cons.mpr ⟨hd, digits⟩) exponents
  | places digits fraction exponents =>
      exact .places (d := d :: _) (List.forall_mem_cons.mpr ⟨hd, digits⟩) fraction exponents

/-- Behind a dot and behind an exponent come digits and exponents alone. -/
theorem exists_digits {cs : List Char} (h : Scanned false (scan false cs))
    (hd : digitFirst cs = true) :
    ∃ n ds x, Digits ds ∧ Exponents n x ∧ scan false cs = ds ++ x := by
  have hfirst := digitFirst_scan hd false
  generalize scan false cs = w at h hfirst
  cases h with
  | @exponents _ n ds x digits exponents =>
      cases ds with
      | nil =>
          cases x with
          | nil => exact absurd hfirst Bool.false_ne_true
          | cons c x => exact absurd exponents (Exponents.not_cons (.inl hfirst))
      | cons d ds => exact ⟨n, d :: ds, x, ⟨List.cons_ne_nil d ds, digits⟩, exponents, rfl⟩

end Scanned

theorem scanned (whole : Bool) (cs : List Char) : Scanned whole (scan whole cs) := by
  fun_induction scan whole cs with
  | case1 => exact .nil
  | case2 whole c hc => exact Scanned.nil.digit hc
  | case3 => exact .nil
  | case4 whole c d r hc ih => exact ih.digit hc
  | case5 whole c d r hc h ih =>
      -- a dot in front of a digit
      simp only [Bool.and_eq_true, decide_eq_true_eq] at h
      obtain ⟨⟨rfl, rfl⟩, hd⟩ := h
      obtain ⟨n, ds, x, digits, exponents, hds⟩ := ih.exists_digits hd
      rw [hds]
      exact .places (d := []) (by simp) digits exponents
  | case6 whole c d r hc hdot h ih =>
      -- an exponent without a sign
      simp only [Bool.and_eq_true] at h
      obtain ⟨n, ds, x, digits, exponents, hds⟩ := ih.exists_digits h.2
      rw [hds]
      exact .exponents (d := []) (by simp)
        (.more (.unsigned (letter_of_isExponentLetter h.1) digits) exponents)
  | case7 whole c d r hc hdot he h ih =>
      -- an exponent with a sign
      simp only [Bool.and_eq_true] at h
      obtain ⟨⟨hletter, hsign⟩, hr⟩ := h
      obtain ⟨n, ds, x, digits, exponents, hds⟩ := ih.exists_digits hr
      rw [hds]
      exact .exponents (d := []) (by simp)
        (.more (.signed (letter_of_isExponentLetter hletter) (by simpa [isSign] using hsign) digits)
          exponents)
  | case8 => exact .nil

/-- **What is taken has the form of a number.** -/
theorem exists_form_scan {cs : List Char} (h : Begins cs) :
    ∃ dotted n, Form dotted n (scan true cs) := by
  obtain ⟨d, r, hd, rfl | rfl⟩ := h
  · have hscanned := scanned true r
    rw [scan_digit hd]
    generalize scan true r = w at hscanned
    cases hscanned with
    | exponents digits exponents => exact ⟨false, _, .whole (.cons hd digits) exponents⟩
    | places digits fraction exponents =>
        exact ⟨true, _, .places (.cons hd digits) fraction exponents⟩
  · obtain ⟨n, fs, x, digits, exponents, hfs⟩ := (scanned false (d :: r)).exists_digits hd
    rw [scan_dot hd, hfs]
    exact ⟨true, n, .fraction digits exponents⟩

/-! ### What becomes of a literal -/

theorem natOfDigits_eq_decimal (ds : List Char) : Binary64.natOfDigits ds = decimal ds := by
  induction ds using List.reverseRecOn with
  | nil => rfl
  | append_singleton ds d ih =>
      rw [Binary64.natOfDigits, List.foldl_append, ← Binary64.natOfDigits, ih, decimal, decimal,
        List.reverse_append, List.map_append, List.reverse_singleton, List.map_singleton,
        List.singleton_append, Nat.ofDigits_cons, List.foldl_cons, List.foldl_nil]
      simp [Nat.add_comm]

namespace Form

variable {dotted : Bool} {n : Nat} {w : List Char}

/-- The dot and the exponents of a literal decide what becomes of it. -/
theorem classify_eq (h : Form dotted n w) :
    classify w =
      if dotted = false ∧ n = 0 then
        if decimal w ≤ 2 ^ 63 - 1 then .ok (.integer (decimal w))
        else .error (.invalidNumber (String.ofList w))
      else if n ≤ 1 then .ok (.float (bitsOf w))
      else .error (.invalidNumber (String.ofList w)) := by
  simp only [classify, h.contains_dot, h.countP_letter, natOfDigits_eq_decimal]
  have hmax : maxInteger = 2 ^ 63 - 1 := rfl
  cases dotted <;> simp [hmax]

theorem classify_integer_iff (h : Form dotted n w) (v : Nat) :
    classify w = .ok (.integer v) ↔
      dotted = false ∧ n = 0 ∧ v = decimal w ∧ v ≤ 2 ^ 63 - 1 := by
  rw [h.classify_eq]
  split_ifs with hinteger hvalue hexponents
  · obtain ⟨rfl, rfl⟩ := hinteger
    rw [Except.ok.injEq, Token.integer.injEq]
    exact ⟨fun hv => ⟨rfl, rfl, hv.symm, hv ▸ hvalue⟩, fun hv => hv.2.2.1.symm⟩
  · refine iff_of_false id ?_
    rintro ⟨-, -, rfl, hv⟩
    exact hvalue hv
  · exact iff_of_false (by simp) fun hv => hinteger ⟨hv.1, hv.2.1⟩
  · exact iff_of_false id fun hv => hinteger ⟨hv.1, hv.2.1⟩

theorem classify_float_iff (h : Form dotted n w) :
    (∃ bits, classify w = .ok (.float bits)) ↔ (dotted = true ∨ 0 < n) ∧ n ≤ 1 := by
  rw [h.classify_eq]
  split_ifs with hinteger hvalue hexponents
  · obtain ⟨rfl, rfl⟩ := hinteger
    simp
  · obtain ⟨rfl, rfl⟩ := hinteger
    simp
  · refine iff_of_true ⟨_, rfl⟩ ⟨?_, hexponents⟩
    cases dotted with
    | true => exact .inl rfl
    | false => exact .inr (Nat.pos_of_ne_zero fun hn => hinteger ⟨rfl, hn⟩)
  · simp [hexponents]

theorem classify_invalid_iff (h : Form dotted n w) :
    classify w = .error (.invalidNumber (String.ofList w)) ↔
      dotted = false ∧ n = 0 ∧ 2 ^ 63 - 1 < decimal w ∨ 2 ≤ n := by
  rw [h.classify_eq]
  split_ifs with hinteger hvalue hexponents
  · obtain ⟨rfl, rfl⟩ := hinteger
    exact iff_of_false id (by omega)
  · exact iff_of_true rfl (.inl ⟨hinteger.1, hinteger.2, Nat.lt_of_not_le hvalue⟩)
  · refine iff_of_false id ?_
    rintro (⟨hdotted, hn, -⟩ | hn)
    · exact hinteger ⟨hdotted, hn⟩
    · omega
  · exact iff_of_true rfl (.inr (Nat.lt_of_not_le hexponents))

end Form

end Number

/-! ### Reading a number -/

theorem not_isBlank_of_isDigit {d : Char} (h : d.isDigit = true) : isBlank d = false := by
  rw [Char.isDigit_iff_toNat] at h
  have hlow : 48 ≤ d.toNat := h.1
  have hhigh : d.toNat ≤ 57 := h.2
  have hascii : isAscii d = true := by
    simp only [isAscii, decide_eq_true_eq]
    omega
  have hspace : d ≠ ' ' := by
    rintro rfl
    exact absurd hlow (by decide)
  rw [isBlank, if_pos hascii]
  simp only [hspace, decide_false, Bool.false_or, Bool.and_eq_false_iff, decide_eq_false_iff_not]
  omega

theorem Number.Begins.bare {cs : List Char} (h : Begins cs) : Bare cs := by
  obtain ⟨d, r, hd, rfl | rfl⟩ := h
  · refine ⟨not_isBlank_of_isDigit hd, ?_⟩
    rintro rfl
    exact absurd hd (by decide)
  · exact ⟨by decide, fun hslash => absurd hslash (by decide)⟩

/-- A number is read where it stands. -/
theorem Cursor.next_of_begins {c : Cursor} (h : Number.Begins c.rest) :
    c.next.2 =
        c.skip (Number.scan true c.rest) (c.rest.drop (Number.scan true c.rest).length) ∧
      (∀ t, c.next.1 = .ok ⟨t, String.ofList (Number.scan true c.rest), c.position⟩ ↔
        Number.classify (Number.scan true c.rest) = .ok t) ∧
      ∀ f, c.next.1 = .error ⟨f, c.position⟩ ↔
        Number.classify (Number.scan true c.rest) = .error f := by
  have hskip : c.skipTrivia = .to c := skipTrivia_bare h.bare c.position
  rw [next, hskip]
  simp only [scan_of_startsHere h.startsHere, scanNumber]
  cases Number.classify (Number.scan true c.rest) <;> simp

/-- **A number literal is scanned by longest match and classified by its form.** Where a digit
stands, or a dot and a digit, the longest run that has the form of a number is taken. It is an
integer if it has neither a dot nor an exponent and takes at most sixty-three bits, and a float if
it has one of them and at most one exponent; in all other cases it is no number. -/
theorem next_number_longest {c : Cursor} (h : Number.Begins c.rest) :
    ∃ text dotted n, Number.Form dotted n text ∧ text <+: c.rest ∧
      (∀ other dotted' n', Number.Form dotted' n' other → other <+: c.rest → other <+: text) ∧
      c.next.2 = c.skip text (c.rest.drop text.length) ∧
      (∀ v, c.next.1 = .ok ⟨.integer v, String.ofList text, c.position⟩ ↔
        dotted = false ∧ n = 0 ∧ v = Number.decimal text ∧ v ≤ 2 ^ 63 - 1) ∧
      ((∃ bits, c.next.1 = .ok ⟨.float bits, String.ofList text, c.position⟩) ↔
        (dotted = true ∨ 0 < n) ∧ n ≤ 1) ∧
      (c.next.1 = .error ⟨.invalidNumber (String.ofList text), c.position⟩ ↔
        dotted = false ∧ n = 0 ∧ 2 ^ 63 - 1 < Number.decimal text ∨ 2 ≤ n) := by
  obtain ⟨dotted, n, hform⟩ := Number.exists_form_scan h
  obtain ⟨hcursor, hread, hrefused⟩ := Cursor.next_of_begins h
  refine ⟨_, dotted, n, hform, Number.scan_prefix true c.rest,
    fun _ _ _ hother => hother.prefix_scan, hcursor, fun v => ?_, ?_, ?_⟩
  · rw [hread, hform.classify_integer_iff]
  · simp only [hread, hform.classify_float_iff]
  · rw [hrefused, hform.classify_invalid_iff]

/-- The dots of a range end a number, as do a name behind a dot, a letter or a sign that no digit
follows, and a second dot; a dot in front of a digit begins one. -/
theorem next_number_longest_of_range :
    Number.Begins "1..3".toList ∧
      (∃ text, Number.Form false 0 text ∧ 1 = Number.decimal text ∧
        (∀ other dotted n, Number.Form dotted n other → other <+: "1..3".toList →
          other <+: text) ∧
        (Cursor.ofString "1..3").next =
          (.ok ⟨.integer 1, String.ofList text, .start⟩, ⟨"..3".toList, ⟨1, 1⟩⟩)) ∧
      ["1..3", "n.1", "1.x", "1e", "1e+", "1.5.5"].map
          (fun s => (tokenize s).toOption.map fun ls => ls.map Lexeme.text) =
        [some ["1", "..", "3", ""], some ["n", ".1", ""], some ["1", ".", "x", ""],
          some ["1", "e", ""], some ["1", "e", "+", ""], some ["1.5", ".5", ""]] := by
  have hbegins : Number.Begins "1..3".toList := ⟨'1', "..3".toList, rfl, .inl rfl⟩
  have hnext : (Cursor.ofString "1..3").next =
      (.ok ⟨.integer 1, String.ofList ['1'], .start⟩, ⟨"..3".toList, ⟨1, 1⟩⟩) := by
    decide +kernel
  obtain ⟨text, dotted, n, hform, hprefix, hlongest, hcursor, hinteger, -, -⟩ :=
    next_number_longest (c := Cursor.ofString "1..3") hbegins
  rw [hnext] at hcursor hinteger
  have hlength : text.length = 1 := by
    have hdrop := congrArg (fun c => c.rest.length) hcursor
    have hle := hprefix.length_le
    simp [Cursor.skip, Cursor.ofString] at hdrop hle
    omega
  obtain rfl : text = ['1'] := by
    rw [List.prefix_iff_eq_take.mp hprefix, hlength]
    rfl
  obtain ⟨rfl, rfl, hvalue, -⟩ := (hinteger 1).mp rfl
  exact ⟨hbegins, ⟨_, hform, hvalue, hlongest, hnext⟩, by decide +kernel⟩

end BindCheck

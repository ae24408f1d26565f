import BindCheck.Token.Lexer
import Mathlib.Data.List.Find

/-!
# BindCheck.Proofs.Spelling

**What text a token can be written as, and what may follow it.** `Spells` says of each
form of token how it is written, without a scanner's order of tests; `Boundary` says which
rests do not carry a token on. The scanner reads a spelling exactly:

* `scan_sound`: what it takes spells the token that it answers with;
* `scan_spelling`: in front of a boundary it takes the whole spelling and no more.

So a token may be cut out of its text and set before another rest.
-/

namespace BindCheck

/-! ### Numbers -/

namespace Number

/-- A number takes a beginning of the input. -/
theorem scan_prefix (whole : Bool) (cs : List Char) : scan whole cs <+: cs := by
  fun_induction scan whole cs with
  | case1 => exact List.nil_prefix
  | case2 => exact List.prefix_rfl
  | case3 => exact List.nil_prefix
  | case4 whole c d r hc ih => exact List.cons_prefix_cons.mpr ⟨rfl, ih⟩
  | case5 whole c d r hc h ih => exact List.cons_prefix_cons.mpr ⟨rfl, ih⟩
  | case6 whole c d r hc hd h ih => exact List.cons_prefix_cons.mpr ⟨rfl, ih⟩
  | case7 whole c d r hc hd h h' ih =>
      exact List.cons_prefix_cons.mpr ⟨rfl, List.cons_prefix_cons.mpr ⟨rfl, ih⟩⟩
  | case8 => exact List.nil_prefix

/-- What does not go on with a dot allowed does not go on without one. -/
theorem scan_nil_of_whole {cs : List Char} (h : scan true cs = []) (whole : Bool) :
    scan whole cs = [] := by
  cases whole with
  | true => exact h
  | false =>
      match cs with
      | [] => rfl
      | [c] => simpa [scan] using h
      | c :: d :: r =>
          by_cases hc : c.isDigit = true
          · simp [scan, hc] at h
          · by_cases hdot : c = '.' ∧ d.isDigit = true
            · simp [scan, hdot] at h
            · simpa [scan, hc, hdot] using h

/-- A digit goes on a number. -/
theorem scan_digit {c : Char} (hc : c.isDigit = true) (whole : Bool) (cs : List Char) :
    scan whole (c :: cs) = c :: scan whole cs := by
  cases cs with
  | nil => simp [scan, hc]
  | cons d cs => rw [scan, if_pos hc]

/-- A number scans to itself in front of anything that does not carry it on. -/
theorem scan_scan_append {rest : List Char} (hrest : scan true rest = []) (whole : Bool)
    (cs : List Char) : scan whole (scan whole cs ++ rest) = scan whole cs := by
  fun_induction scan whole cs with
  | case1 whole => exact scan_nil_of_whole hrest whole
  | case2 whole c hc => rw [List.singleton_append, scan_digit hc, scan_nil_of_whole hrest]
  | case3 whole c hc => exact scan_nil_of_whole hrest whole
  | case4 whole c d r hc ih => rw [List.cons_append, scan_digit hc, ih]
  | case5 whole c d r hc h ih =>
      simp only [Bool.and_eq_true, decide_eq_true_eq] at h
      obtain ⟨⟨rfl, rfl⟩, hd⟩ := h
      rw [scan_digit hd] at ih ⊢
      rw [List.cons_append] at ih
      rw [List.cons_append, List.cons_append, scan, if_neg hc, if_pos (by simp [hd]), ih]
  | case6 whole c d r hc hdot h ih =>
      simp only [Bool.and_eq_true] at h
      rw [scan_digit h.2] at ih ⊢
      rw [List.cons_append] at ih
      rw [List.cons_append, List.cons_append, scan, if_neg hc, if_neg (by simpa using hdot),
        if_pos (by simp [h.1, h.2]), ih]
  | case7 whole c d r hc hdot he h ih =>
      simp only [Bool.and_eq_true] at h
      obtain ⟨⟨hc', hs⟩, hr⟩ := h
      cases r with
      | nil => simp [digitFirst] at hr
      | cons x r =>
          have hx : x.isDigit = true := hr
          rw [scan_digit hx] at ih ⊢
          rw [List.cons_append] at ih
          rw [List.cons_append, List.cons_append, List.cons_append, scan, if_neg hc,
            if_neg (by simpa using hdot), if_neg (by simpa using he),
            if_pos (by simp [hc', hs, digitFirst, hx]), ih]
  | case8 whole => exact scan_nil_of_whole hrest whole

end Number

/-! ### Quoted text -/

/-- A body with more text in front is closed as the body is. -/
theorem StringBody.behind_eq_closed {b : StringBody} {v : Char} {w value raw rest : List Char}
    (h : b.behind v w = .closed value raw rest) :
    ∃ value' raw', b = .closed value' raw' rest ∧ value = v :: value' ∧ raw = w ++ raw' := by
  cases b with
  | closed value' raw' rest' =>
      simp only [behind, closed.injEq] at h
      obtain ⟨rfl, rfl, rfl⟩ := h
      exact ⟨value', raw', rfl, rfl, rfl⟩
  | unterminated => simp [behind] at h
  | badEscape => simp [behind] at h

/-- A closed body is read alike in front of any rest. -/
theorem stringBody_closed {quote : Char} {cs value raw rest : List Char}
    (h : stringBody quote cs = .closed value raw rest) :
    cs = raw ++ rest ∧ ∀ rest', stringBody quote (raw ++ rest') = .closed value raw rest' := by
  fun_induction stringBody quote cs generalizing value raw rest with
  | case1 => simp at h
  | case2 =>
      simp only [StringBody.closed.injEq] at h
      obtain ⟨rfl, rfl, rfl⟩ := h
      refine ⟨rfl, fun rest' => ?_⟩
      cases rest' <;> simp [stringBody]
  | case3 => simp at h
  | case4 d r =>
      simp only [StringBody.closed.injEq] at h
      obtain ⟨rfl, rfl, rfl⟩ := h
      refine ⟨rfl, fun rest' => ?_⟩
      cases rest' <;> simp [stringBody]
  | case5 d r v hv hq ih =>
      obtain ⟨value', raw', hb, rfl, rfl⟩ := StringBody.behind_eq_closed h
      obtain ⟨rfl, hrest⟩ := ih hb
      refine ⟨rfl, fun rest' => ?_⟩
      have hstep : stringBody quote ('\\' :: d :: (raw' ++ rest')) =
          (stringBody quote (raw' ++ rest')).behind v ['\\', d] := by
        simp [stringBody, hq, hv]
      exact hstep.trans (by rw [hrest]; rfl)
  | case6 => simp at h
  | case7 c d r hq hb ih =>
      obtain ⟨value', raw', hbody, rfl, rfl⟩ := StringBody.behind_eq_closed h
      obtain ⟨hcs, hrest⟩ := ih hbody
      refine ⟨by rw [hcs]; rfl, fun rest' => ?_⟩
      have hne : raw' ≠ [] := by
        intro hnil
        subst hnil
        have := hrest []
        simp [stringBody] at this
      obtain ⟨x, raw'', rfl⟩ := List.exists_cons_of_ne_nil hne
      have hstep : stringBody quote (c :: x :: (raw'' ++ rest')) =
          (stringBody quote (x :: (raw'' ++ rest'))).behind c [c] := by
        rw [stringBody, if_neg hq, if_neg hb]
      have hrest' := hrest rest'
      rw [List.cons_append] at hrest'
      rw [List.singleton_append, List.cons_append, List.cons_append, hstep, hrest']
      rfl

/-- A quoted name is read alike in front of any rest. -/
theorem nameBody?_some {cs body rest : List Char} (h : nameBody? cs = some (body, rest)) :
    cs = body ++ rest ∧ ∀ rest', nameBody? (body ++ rest') = some (body, rest') := by
  induction cs generalizing body with
  | nil => simp [nameBody?] at h
  | cons c r ih =>
      rw [nameBody?] at h
      by_cases hc : c = backquote
      · simp only [hc, if_true, Option.some.injEq, Prod.mk.injEq] at h
        obtain ⟨rfl, rfl⟩ := h
        exact ⟨by rw [hc]; rfl, fun rest' => by simp [nameBody?]⟩
      · rw [if_neg hc, Option.map_eq_some_iff] at h
        obtain ⟨⟨body', rest''⟩, hb, heq⟩ := h
        simp only [Prod.mk.injEq] at heq
        obtain ⟨rfl, rfl⟩ := heq
        obtain ⟨rfl, hrest⟩ := ih hb
        exact ⟨rfl, fun rest' => by simp [nameBody?, hc, hrest]⟩

/-! ### Spellings of tokens -/

/-- Whether a character begins a string. -/
def isQuote (c : Char) : Bool := c = '"' || c = '\''

/-- How tokens are written. -/
inductive Spells : Token → List Char → Prop where
  | number {t : Token} {w : List Char} (starts : Number.startsHere w = true)
      (scans : Number.scan true w = w) (value : Number.classify w = .ok t) : Spells t w
  | string {quote : Char} {body value : List Char} (opens : isQuote quote = true)
      (closes : stringBody quote body = .closed value body []) :
      Spells (.string (String.ofList value)) (quote :: body)
  | quotedName {body : List Char} (closes : nameBody? body = some (body, [])) :
      Spells (.identifier (String.ofList (backquote :: body))) (backquote :: body)
  | word {c : Char} {r : List Char} (starts : startsWord c = true)
      (continues : ∀ x ∈ r, continuesWord x = true) : Spells (.ofWord (c :: r)) (c :: r)
  | symbol {s : Symbol} {w : List Char} (row : (s, w) ∈ Symbol.spellings) : Spells (.symbol s) w

/-- Whether a rest leaves a token, written as `w`, as it is. -/
def Boundary (t : Token) (w rest : List Char) : Prop :=
  match t with
  | .integer _ | .float _ => Number.scan true rest = []
  | .keyword _ | .identifier _ => ∀ d ∈ rest.head?, continuesWord d = false
  | .symbol _ =>
    ∀ d ∈ rest.head?, (w = ['.'] → d.isDigit = false) ∧ ∀ row ∈ Symbol.spellings, row.2 ≠ w ++ [d]
  | .string _ | .eof => True

/-! ### The tests of the scanner -/

theorem not_isDigit_of_startsWord {c : Char} (h : startsWord c = true) : c.isDigit = false := by
  refine Bool.eq_false_iff.mpr fun hd => ?_
  rw [Char.isDigit_iff_toNat] at hd
  have hd1 : 48 ≤ c.toNat := hd.1
  have hd2 : c.toNat ≤ 57 := hd.2
  have hascii : isAscii c = true := by
    simp only [isAscii, decide_eq_true_eq]
    omega
  rw [startsWord, isLetter, if_pos hascii, Bool.or_eq_true, decide_eq_true_eq] at h
  rcases h with h | rfl
  · have halpha : (c.isUpper || c.isLower) = true := h
    have hge : 65 ≤ c.toNat := by
      rcases Bool.or_eq_true_iff.mp halpha with hupper | hlower
      · have hle : 'A'.val ≤ c.val := (of_decide_eq_true hupper).1
        exact UInt32.le_iff_toNat_le.mp hle
      · have hle : 'a'.val ≤ c.val := of_decide_eq_true (Bool.and_eq_true_iff.mp hlower).1
        have hge : 97 ≤ c.toNat := UInt32.le_iff_toNat_le.mp hle
        omega
    omega
  · exact absurd hd2 (by decide)

theorem startsHere_false {c : Char} (r : List Char) (hd : c.isDigit = false) (hdot : c ≠ '.') :
    Number.startsHere (c :: r) = false := by
  unfold Number.startsHere
  split
  · simp_all
  · exact hd

theorem startsHere_append {w : List Char} (rest : List Char) (h : Number.startsHere w = true) :
    Number.startsHere (w ++ rest) = true := by
  match w with
  | [] => simp [Number.startsHere, Number.digitFirst] at h
  | ['.'] => simp [Number.startsHere, Number.digitFirst] at h
  | '.' :: d :: r => exact h
  | c :: r =>
      by_cases hdot : c = '.'
      · subst hdot
        cases r with
        | nil => simp [Number.startsHere, Number.digitFirst] at h
        | cons d r => exact h
      · have hc : c.isDigit = true := by
          refine Bool.of_not_eq_false fun hd => ?_
          rw [startsHere_false r hd hdot] at h
          exact Bool.false_ne_true h
        rw [List.cons_append, Number.startsHere.eq_def]
        split
        · simp_all
        · exact hc

theorem startsHere_scan {cs : List Char} (h : Number.startsHere cs = true) :
    Number.startsHere (Number.scan true cs) = true := by
  match cs with
  | [] => simp [Number.startsHere, Number.digitFirst] at h
  | c :: r =>
      by_cases hc : c.isDigit = true
      · rw [Number.scan_digit hc, Number.startsHere.eq_def]
        split
        · simp_all
        · exact hc
      · by_cases hdot : c = '.'
        · subst hdot
          match r with
          | [] => simp [Number.startsHere, Number.digitFirst] at h
          | d :: r =>
              have hd : d.isDigit = true := h
              have hscan : ∃ r', Number.scan false (d :: r) = d :: r' := by
                cases r <;> simp [Number.scan, hd]
              obtain ⟨r', hr'⟩ := hscan
              rw [Number.scan, if_neg hc, if_pos (by simp [hd]), hr']
              exact hd
        · rw [startsHere_false r (Bool.eq_false_iff.mpr hc) hdot] at h
          exact absurd h Bool.false_ne_true

theorem classify_eq_ok {w : List Char} {t : Token} (h : Number.classify w = .ok t) :
    (∃ n, t = .integer n) ∨ ∃ b, t = .float b := by
  simp only [Number.classify] at h
  split at h
  · split at h
    · exact .inl ⟨_, (Except.ok.inj h).symm⟩
    · simp at h
  · split at h
    · exact .inr ⟨_, (Except.ok.inj h).symm⟩
    · simp at h

theorem ofWord_cases (w : List Char) :
    (∃ k, Token.ofWord w = .keyword k) ∨ Token.ofWord w = .identifier (String.ofList w) := by
  unfold Token.ofWord
  cases Keyword.ofWord? w with
  | some k => exact .inl ⟨k, rfl⟩
  | none => exact .inr rfl

theorem length_of_mem_spellings {s : Symbol} {w : List Char} (row : (s, w) ∈ Symbol.spellings) :
    1 ≤ w.length ∧ w.length ≤ 2 := by
  have hall : ∀ row ∈ Symbol.spellings, 1 ≤ row.2.length ∧ row.2.length ≤ 2 := by decide
  exact hall (s, w) row

theorem exists_cons_of_mem_spellings {s : Symbol} {w : List Char}
    (row : (s, w) ∈ Symbol.spellings) : ∃ c r, w = c :: r :=
  List.exists_cons_of_length_pos (length_of_mem_spellings row).1

/-- No symbol begins as a token of another form does, save for a dot before a digit. -/
theorem head_of_mem_spellings {s : Symbol} {c : Char} {r : List Char}
    (row : (s, c :: r) ∈ Symbol.spellings) :
    isQuote c = false ∧ c ≠ backquote ∧ startsWord c = false ∧ c.isDigit = false ∧
      (c = '.' → r = [] ∨ r = ['.']) := by
  have hall : ∀ row ∈ Symbol.spellings, row.2.head?.all (fun c => !isQuote c && c != backquote &&
      !startsWord c && !c.isDigit &&
        (c != '.' || row.2.tail == [] || row.2.tail == ['.'])) = true := by
    decide
  have hrow := hall (s, c :: r) row
  simp only [List.head?_cons, Option.all_some, Bool.and_eq_true, Bool.not_eq_true', bne_iff_ne,
    Bool.or_eq_true, List.tail_cons, beq_iff_eq, ne_eq] at hrow
  obtain ⟨⟨⟨⟨hquote, hback⟩, hword⟩, hdigit⟩, hdot⟩ := hrow
  refine ⟨hquote, hback, hword, hdigit, fun hc => ?_⟩
  rcases hdot with (hc' | hr) | hr
  · exact absurd hc hc'
  · exact .inl hr
  · exact .inr hr

theorem scan?_of_mem_spellings {s : Symbol} {w : List Char} (row : (s, w) ∈ Symbol.spellings) :
    Symbol.scan? w = some (s, w) := by
  have hall : ∀ row ∈ Symbol.spellings, Symbol.scan? row.2 = some row := by decide
  exact hall (s, w) row

/-- A symbol that the next character does not make longer is read as it is. -/
theorem scan?_append {s : Symbol} {w rest : List Char} (row : (s, w) ∈ Symbol.spellings)
    (hrest : ∀ d ∈ rest.head?, ∀ row ∈ Symbol.spellings, row.2 ≠ w ++ [d]) :
    Symbol.scan? (w ++ rest) = some (s, w) := by
  rw [← scan?_of_mem_spellings row, Symbol.scan?, Symbol.scan?]
  refine List.find?_congr fun row' hrow' => ?_
  rw [Bool.eq_iff_iff, List.isPrefixOf_iff_prefix, List.isPrefixOf_iff_prefix]
  refine ⟨fun hpre => ?_, fun hpre => hpre.trans (List.prefix_append w rest)⟩
  rcases List.prefix_or_prefix_of_prefix hpre (List.prefix_append w rest) with h | ⟨x, hx⟩
  · exact h
  · -- the row is longer than `w`, so by one character, which is the next
    rw [← hx, List.prefix_append_right_inj] at hpre
    have hw := length_of_mem_spellings row
    have hw' := length_of_mem_spellings (s := row'.1) (w := row'.2) hrow'
    rw [← hx, List.length_append] at hw'
    match x with
    | [] => exact ⟨[], by rw [← hx, List.append_nil, List.append_nil]⟩
    | [d] =>
        obtain ⟨rest', rfl⟩ := hpre
        exact absurd hx.symm (hrest d rfl row' hrow')
    | d :: e :: x =>
        simp only [List.length_cons] at hw'
        omega

/-! ### Reading spellings -/

/-- The tests of the scanner, in their order. -/
theorem scan_cons (c : Char) (r : List Char) :
    scan (c :: r) =
      if Number.startsHere (c :: r) then scanNumber (c :: r)
      else if isQuote c then scanString c r
      else if c = backquote then scanQuotedName r
      else if startsWord c then
        .token (.ofWord (c :: r.takeWhile continuesWord)) (c :: r.takeWhile continuesWord)
          (r.dropWhile continuesWord)
      else
        match Symbol.scan? (c :: r) with
        | some (s, taken) => .token (.symbol s) taken ((c :: r).drop taken.length)
        | none => .fault (.unexpectedChar c) [] [] (c :: r) := rfl

theorem scan_of_startsHere {cs : List Char} (h : Number.startsHere cs = true) :
    scan cs = scanNumber cs := by
  cases cs with
  | nil => exact absurd h Bool.false_ne_true
  | cons c r => rw [scan_cons, if_pos h]

theorem scan_backquote (r : List Char) : scan (backquote :: r) = scanQuotedName r := by
  have hstarts : ¬Number.startsHere (backquote :: r) = true := Bool.false_ne_true
  rw [scan_cons, if_neg hstarts, if_neg (by decide), if_pos rfl]

theorem scan_of_startsWord {c : Char} (h : startsWord c = true) (r : List Char) :
    scan (c :: r) = .token (.ofWord (c :: r.takeWhile continuesWord))
      (c :: r.takeWhile continuesWord) (r.dropWhile continuesWord) := by
  have hdot : c ≠ '.' := by rintro rfl; revert h; decide
  have hquote : ¬isQuote c = true := by
    simp only [isQuote, Bool.or_eq_true, decide_eq_true_eq]
    rintro (rfl | rfl) <;> revert h <;> decide
  have hback : c ≠ backquote := by rintro rfl; revert h; decide
  have hstarts := startsHere_false r (not_isDigit_of_startsWord h) hdot
  rw [scan_cons, if_neg (by simp [hstarts]), if_neg hquote, if_neg hback, if_pos h]

/-- A spelling is read as it is in front of a boundary. -/
theorem scan_spelling {t : Token} {w rest : List Char} (h : Spells t w)
    (hb : Boundary t w rest) : scan (w ++ rest) = .token t w rest := by
  cases h with
  | number starts scans value =>
      have hrest : Number.scan true rest = [] := by
        rcases classify_eq_ok value with ⟨n, rfl⟩ | ⟨b, rfl⟩ <;> exact hb
      have htaken : Number.scan true (w ++ rest) = w := by
        have := Number.scan_scan_append hrest true w
        rwa [scans] at this
      rw [scan_of_startsHere (startsHere_append rest starts), scanNumber, htaken]
      simp [value]
  | @string quote body value opens closes =>
      have hquote : quote = '"' ∨ quote = '\'' := by simpa [isQuote] using opens
      have hstarts : Number.startsHere (quote :: (body ++ rest)) = false := by
        rcases hquote with rfl | rfl <;> rfl
      obtain ⟨-, hbody⟩ := stringBody_closed closes
      rw [List.cons_append, scan_cons, if_neg (by simp [hstarts]), if_pos opens, scanString, hbody]
  | @quotedName body closes =>
      obtain ⟨-, hbody⟩ := nameBody?_some closes
      rw [List.cons_append, scan_backquote, scanQuotedName, hbody]
  | @word c r starts continues =>
      have hhead : ∀ d ∈ rest.head?, continuesWord d = false := by
        rcases ofWord_cases (c :: r) with ⟨k, hk⟩ | hk <;> rw [hk] at hb <;> exact hb
      have htake : (r ++ rest).takeWhile continuesWord = r := by
        rw [List.takeWhile_append_of_pos continues]
        cases rest with
        | nil => simp
        | cons d rest => simp [hhead d rfl]
      have hdrop : (r ++ rest).dropWhile continuesWord = rest := by
        rw [List.dropWhile_append_of_pos continues]
        cases rest with
        | nil => rfl
        | cons d rest => simp [hhead d rfl]
      rw [List.cons_append, scan_of_startsWord starts, htake, hdrop]
  | @symbol s w row =>
      have hdot : w = ['.'] → ∀ d ∈ rest.head?, d.isDigit = false := fun hw d hd => (hb d hd).1 hw
      have hsymbol := scan?_append row fun d hd => (hb d hd).2
      obtain ⟨c, r, rfl⟩ := exists_cons_of_mem_spellings row
      obtain ⟨hquote, hback, hword, hdigit, hlone⟩ := head_of_mem_spellings row
      have hstarts : Number.startsHere (c :: r ++ rest) = false := by
        by_cases hc : c = '.'
        · subst hc
          rcases hlone rfl with rfl | rfl
          · cases rest with
            | nil => rfl
            | cons d rest => exact hdot rfl d rfl
          · rfl
        · exact startsHere_false _ hdigit hc
      rw [List.cons_append] at hstarts hsymbol ⊢
      rw [scan_cons, if_neg (by simp [hstarts]), if_neg (by simp [hquote]), if_neg hback,
        if_neg (by simp [hword]), hsymbol]
      simp

/-- What the scanner takes is cut off in front of the rest, and spells its token. -/
theorem scan_sound {t : Token} {cs taken rest : List Char} (h : scan cs = .token t taken rest) :
    cs = taken ++ rest ∧ (t = .eof ∧ cs = [] ∨ Spells t taken) := by
  match cs with
  | [] =>
      simp only [scan, Scan.token.injEq] at h
      obtain ⟨rfl, rfl, rfl⟩ := h
      exact ⟨rfl, .inl ⟨rfl, rfl⟩⟩
  | c :: r =>
      rw [scan_cons] at h
      split at h
      case isTrue hstarts =>
        simp only [scanNumber] at h
        split at h
        case h_2 => simp at h
        case h_1 t' value =>
          simp only [Scan.token.injEq] at h
          obtain ⟨rfl, rfl, rfl⟩ := h
          refine ⟨?_, .inr (.number (startsHere_scan hstarts) ?_ value)⟩
          · exact (List.prefix_iff_eq_append.mp (Number.scan_prefix true (c :: r))).symm
          · have hnil : Number.scan true [] = [] := rfl
            simpa using Number.scan_scan_append hnil true (c :: r)
      case isFalse =>
        split at h
        case isTrue hquote =>
          rw [scanString] at h
          split at h
          case h_1 value raw rest' hbody =>
            simp only [Scan.token.injEq] at h
            obtain ⟨rfl, rfl, rfl⟩ := h
            obtain ⟨rfl, hraw⟩ := stringBody_closed hbody
            refine ⟨rfl, .inr (.string hquote ?_)⟩
            simpa using hraw []
          all_goals simp at h
        case isFalse =>
          split at h
          case isTrue hback =>
            subst hback
            rw [scanQuotedName] at h
            split at h
            case h_1 body rest' hbody =>
              simp only [Scan.token.injEq] at h
              obtain ⟨rfl, rfl, rfl⟩ := h
              obtain ⟨rfl, hname⟩ := nameBody?_some hbody
              refine ⟨rfl, .inr (.quotedName ?_)⟩
              simpa using hname []
            case h_2 => simp at h
          case isFalse =>
            split at h
            case isTrue hword =>
              simp only [Scan.token.injEq] at h
              obtain ⟨rfl, rfl, rfl⟩ := h
              refine ⟨by rw [List.cons_append, List.takeWhile_append_dropWhile], .inr ?_⟩
              exact .word hword (List.all_eq_true.mp List.all_takeWhile)
            case isFalse =>
              split at h
              case h_1 s w hs =>
                simp only [Scan.token.injEq] at h
                obtain ⟨rfl, rfl, rfl⟩ := h
                have hw : w <+: c :: r := by
                  have := List.find?_some hs
                  exact List.isPrefixOf_iff_prefix.mp this
                obtain ⟨rest', hrest'⟩ := hw
                refine ⟨?_, .inr (.symbol (List.mem_of_find?_eq_some hs))⟩
                rw [← hrest', List.drop_left]
              case h_2 => simp at h

end BindCheck

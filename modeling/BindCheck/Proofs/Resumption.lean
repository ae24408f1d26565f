import BindCheck.Proofs.Lossless

/-!
# BindCheck.Proofs.Resumption

**The lexer may be called again after an error, and again.** A call leaves the cursor somewhere
behind where it stood, mostly in the middle of what it could not read; the next call starts there
and takes what it finds for the beginning of a token.

* `Cursor.Call` says all that one call can do: its answer, what it has read, and where it leaves the
  cursor. Everything about calls is read off it (`Cursor.call`).
* `Cursor.called` is the cursor after so many calls, whatever they answered. It stands in front of
  an end of the text and at the place of this end (`Cursor.exists_read_called`), for each call moves
  the place by what it reads.
* At the end of the text and in front of a character that begins no token a call changes nothing, so
  all later calls answer the same (`Cursor.next_called`).
-/

namespace BindCheck

/-! ### Faults of the scanner -/

/-- A body with more text in front has the escape that is none where the body has it. -/
theorem StringBody.behind_eq_badEscape {b : StringBody} {v c : Char} {w before rest : List Char}
    (h : b.behind v w = .badEscape c before rest) :
    ∃ before', b = .badEscape c before' rest ∧ before = w ++ before' := by
  cases b with
  | closed => simp [behind] at h
  | unterminated => simp [behind] at h
  | badEscape c' before' rest' =>
      simp only [behind, badEscape.injEq] at h
      obtain ⟨rfl, rfl, rfl⟩ := h
      exact ⟨before', rfl, rfl⟩

/-- An escape that is none stands behind a backslash. -/
theorem stringBody_badEscape {quote c : Char} {cs before rest : List Char}
    (h : stringBody quote cs = .badEscape c before rest) :
    cs = before ++ '\\' :: rest ∧ rest.head? = some c := by
  fun_induction stringBody quote cs generalizing before with
  | case1 => simp at h
  | case2 => simp at h
  | case3 => simp at h
  | case4 => simp at h
  | case5 d r v hv hq ih =>
      obtain ⟨before', hbody, rfl⟩ := StringBody.behind_eq_badEscape h
      obtain ⟨rfl, hhead⟩ := ih hbody
      exact ⟨rfl, hhead⟩
  | case6 d r hv hq =>
      simp only [StringBody.badEscape.injEq] at h
      obtain ⟨rfl, rfl, rfl⟩ := h
      exact ⟨rfl, rfl⟩
  | case7 c' d r hq hb ih =>
      obtain ⟨before', hbody, rfl⟩ := StringBody.behind_eq_badEscape h
      obtain ⟨hcs, hhead⟩ := ih hbody
      exact ⟨by rw [hcs]; rfl, hhead⟩

theorem classify_eq_error {w : List Char} {f : LexFault} (h : Number.classify w = .error f) :
    f = .invalidNumber (String.ofList w) := by
  simp only [Number.classify] at h
  split_ifs at h <;> exact (Except.error.inj h).symm

/-- What a fault says of the characters in front of it, of those that have been taken, and of the
rest. -/
def LexFault.Leaves (f : LexFault) (before taken rest : List Char) : Prop :=
  match f with
  | unexpectedChar c => before = [] ∧ taken = [] ∧ rest.head? = some c
  | unterminatedString | unterminatedName => taken ≠ [] ∧ rest = []
  | unterminatedComment => False
  | invalidEscape c => taken = before ++ ['\\'] ∧ rest.head? = some c
  | invalidNumber text => before = [] ∧ taken = text.toList ∧ taken ≠ []

/-- What is faulty is cut off in front of the rest, and the fault says how. -/
theorem scan_fault {f : LexFault} {cs before taken rest : List Char}
    (h : scan cs = .fault f before taken rest) :
    cs = taken ++ rest ∧ f.Leaves before taken rest := by
  cases cs with
  | nil => simp [scan] at h
  | cons c r =>
      rw [scan_cons] at h
      split at h
      case isTrue hstarts =>
        simp only [scanNumber] at h
        split at h
        case h_1 => simp at h
        case h_2 f' hvalue =>
          obtain ⟨rfl, rfl, rfl, rfl⟩ := Scan.fault.inj h
          obtain rfl := classify_eq_error hvalue
          refine ⟨(List.prefix_iff_eq_append.mp (Number.scan_prefix true (c :: r))).symm, rfl,
            String.toList_ofList.symm, fun hnil => ?_⟩
          have htaken := startsHere_scan hstarts
          rw [hnil] at htaken
          exact absurd htaken Bool.false_ne_true
      case isFalse =>
        split at h
        case isTrue =>
          rw [scanString] at h
          split at h
          case h_1 => simp at h
          case h_2 =>
            obtain ⟨rfl, rfl, rfl, rfl⟩ := Scan.fault.inj h
            exact ⟨(List.append_nil _).symm, List.cons_ne_nil c r, rfl⟩
          case h_3 c' before' rest' hbody =>
            obtain ⟨rfl, rfl, rfl, rfl⟩ := Scan.fault.inj h
            obtain ⟨rfl, hhead⟩ := stringBody_badEscape hbody
            exact ⟨by simp, rfl, hhead⟩
        case isFalse =>
          split at h
          case isTrue hback =>
            rw [scanQuotedName] at h
            split at h
            case h_1 => simp at h
            case h_2 =>
              obtain ⟨rfl, rfl, rfl, rfl⟩ := Scan.fault.inj h
              rw [hback]
              exact ⟨(List.append_nil _).symm, List.cons_ne_nil _ r, rfl⟩
          case isFalse =>
            split at h
            case isTrue => simp at h
            case isFalse =>
              split at h
              case h_1 => simp at h
              case h_2 =>
                obtain ⟨rfl, rfl, rfl, rfl⟩ := Scan.fault.inj h
                exact ⟨rfl, rfl, rfl, rfl⟩

/-- A comment that is not closed takes all of the text. -/
theorem skipTrivia_eq_unclosed {m : TriviaMode} {p opened : Position} {cs : List Char}
    {stop : Cursor} (h : skipTrivia m p cs = .unclosed opened stop) :
    stop = ⟨[], p.after cs⟩ := by
  fun_induction skipTrivia m p cs with
  | case1 p r ih | case2 p r ih | case5 p r ih => exact ih h
  | case3 p c r hline hblock hblank ih => exact ih h
  | case4 => simp at h
  | case6 p c r hc ih => exact ih h
  | case7 o p r ih => exact ih h
  | case8 o p c r hclose ih => exact ih h
  | case9 o p => exact (Skipped.unclosed.inj h).2.symm
  | case10 | case11 => simp at h

/-! ### One call -/

/-- What one call can do at a cursor: its answer, and the cursor that it leaves. -/
inductive Cursor.Call (c : Cursor) : Except LexError Lexeme → Cursor → Prop where
  /-- Only trivia was left. -/
  | ending : Call c (.ok (.ending (c.position.after c.rest))) ⟨[], c.position.after c.rest⟩
  | lexeme {l : Lexeme} {w rest : List Char} (reads : c.rest = w ++ (l.text.toList ++ rest))
      (place : l.position = c.position.after w) (notEnd : l.token ≠ .eof)
      (nonempty : l.text.toList ≠ []) : Call c (.ok l) ⟨rest, l.position.after l.text.toList⟩
  /-- The text ends within a string, a quoted name or a comment. -/
  | unclosed {f : LexFault} {p : Position}
      (isUnclosed : f ∈ [.unterminatedString, .unterminatedName, .unterminatedComment])
      (nonempty : c.rest ≠ []) : Call c (.error ⟨f, p⟩) ⟨[], c.position.after c.rest⟩
  | unexpected {ch : Char} {w r : List Char} (reads : c.rest = w ++ ch :: r) (bare : Bare (ch :: r))
      (scans : scan (ch :: r) = .fault (.unexpectedChar ch) [] [] (ch :: r)) :
      Call c (.error ⟨.unexpectedChar ch, c.position.after w⟩) ⟨ch :: r, c.position.after w⟩
  | escape {ch : Char} {w r : List Char} (reads : c.rest = w ++ '\\' :: ch :: r) :
      Call c (.error ⟨.invalidEscape ch, c.position.after w⟩)
        ⟨ch :: r, (c.position.after w).step '\\'⟩
  | number {text : String} {w rest : List Char} (reads : c.rest = w ++ (text.toList ++ rest))
      (nonempty : text.toList ≠ []) :
      Call c (.error ⟨.invalidNumber text, c.position.after w⟩)
        ⟨rest, (c.position.after w).after text.toList⟩

namespace Cursor

/-- **All that a call can do.** -/
theorem call (c : Cursor) : c.Call c.next.1 c.next.2 := by
  rcases hnext : c.next with ⟨a, c'⟩
  rw [next] at hnext
  split at hnext
  case h_1 opened stop hskip =>
    obtain ⟨rfl, rfl⟩ := Prod.mk.inj hnext
    obtain rfl := skipTrivia_eq_unclosed hskip
    refine .unclosed (by simp) fun hnil => ?_
    rw [skipTrivia, hnil] at hskip
    simp [BindCheck.skipTrivia] at hskip
  case h_2 c₁ hskip =>
    obtain ⟨w, hw, hplace, -⟩ := skipTrivia_eq_to hskip
    obtain ⟨-, hbare⟩ := skipTrivia_to hskip
    split at hnext
    case h_1 t taken rest hscan =>
      obtain ⟨rfl, rfl⟩ := Prod.mk.inj hnext
      obtain ⟨hrest, ⟨rfl, hnil⟩ | hspells⟩ := scan_sound hscan
      · obtain ⟨rfl, rfl⟩ := List.append_eq_nil_iff.mp (hrest.symm.trans hnil)
        rw [hnil, List.append_nil] at hw
        have hending := Call.ending (c := c)
        rwa [hw, ← hplace] at hending
      · obtain ⟨x, r, rfl, hstarts⟩ := hspells.starts
        have hlexeme : c.Call (.ok ⟨t, String.ofList (x :: r), c₁.position⟩) ⟨rest, _⟩ :=
          .lexeme (by rw [String.toList_ofList, hw, hrest]) hplace (by rintro rfl; exact hstarts)
            (by simp)
        rwa [String.toList_ofList] at hlexeme
    case h_2 f before taken rest hscan =>
      obtain ⟨rfl, rfl⟩ := Prod.mk.inj hnext
      obtain ⟨hrest, hleaves⟩ := scan_fault hscan
      rw [hrest] at hw
      rw [skip, hplace]
      cases f with
      | unexpectedChar ch =>
          obtain ⟨rfl, rfl, hhead⟩ := hleaves
          obtain ⟨r, rfl⟩ := List.head?_eq_some_iff.mp hhead
          rw [hrest] at hbare hscan
          exact .unexpected hw hbare hscan
      | unterminatedString | unterminatedName =>
          obtain ⟨hne, rfl⟩ := hleaves
          rw [List.append_nil] at hw
          rw [← Position.after_append, ← Position.after_append, ← hw]
          exact .unclosed (by simp) (by simp [hw, hne])
      | unterminatedComment => exact hleaves.elim
      | invalidEscape ch =>
          obtain ⟨rfl, hhead⟩ := hleaves
          obtain ⟨r, rfl⟩ := List.head?_eq_some_iff.mp hhead
          rw [Position.after_append, ← Position.after_append]
          exact .escape (by simpa using hw)
      | invalidNumber text =>
          obtain ⟨rfl, rfl, hne⟩ := hleaves
          exact .number hw hne

/-- A call reads on from where the cursor stands. -/
theorem Call.exists_read {c c' : Cursor} {a : Except LexError Lexeme} (h : c.Call a c') :
    ∃ read, c.rest = read ++ c'.rest ∧ c'.position = c.position.after read := by
  cases h with
  | ending | unclosed => exact ⟨c.rest, (List.append_nil _).symm, rfl⟩
  | lexeme reads place notEnd nonempty =>
      exact ⟨_, by rw [reads, List.append_assoc], by rw [place, Position.after_append]⟩
  | unexpected reads bare scans => exact ⟨_, reads, rfl⟩
  | @escape ch w r reads =>
      exact ⟨w ++ ['\\'], by simp [reads], by rw [Position.after_append]; rfl⟩
  | number reads nonempty =>
      exact ⟨_, by rw [reads, List.append_assoc], by rw [Position.after_append]⟩

/-! ### Cursors that no call moves -/

theorem next_ending (p : Position) :
    (Cursor.mk [] p).next = (.ok (.ending p), ⟨[], p⟩) := rfl

/-- An unexpected character is left where it is. -/
theorem next_unexpected {ch : Char} {r : List Char} (bare : Bare (ch :: r))
    (scans : scan (ch :: r) = .fault (.unexpectedChar ch) [] [] (ch :: r)) (p : Position) :
    (Cursor.mk (ch :: r) p).next = (.error ⟨.unexpectedChar ch, p⟩, ⟨ch :: r, p⟩) := by
  have hskip : (Cursor.mk (ch :: r) p).skipTrivia = .to ⟨ch :: r, p⟩ := skipTrivia_bare bare p
  rw [next, hskip]
  simp [scans, skip]

theorem length_lt_of_reads {cs w x rest : List Char} (reads : cs = w ++ (x ++ rest))
    (nonempty : x ≠ []) : rest.length < cs.length := by
  have hpos := List.length_pos_iff.mpr nonempty
  rw [reads, List.length_append, List.length_append]
  omega

/-- **A call moves the cursor**, unless it stands at the end of the text or in front of a character
that begins no token. -/
theorem next_moves (c : Cursor) :
    c.next.2.rest.length < c.rest.length ∨
      c.rest = [] ∧ c.next = (.ok (.ending c.position), c) ∨
      ∃ ch r, c.rest = ch :: r ∧ c.next = (.error ⟨.unexpectedChar ch, c.position⟩, c) := by
  obtain ⟨cs, p⟩ := c
  have hcall := call ⟨cs, p⟩
  generalize (Cursor.mk cs p).next.1 = a at hcall
  generalize (Cursor.mk cs p).next.2 = c' at hcall
  cases hcall with
  | ending =>
      cases cs with
      | nil => exact .inr (.inl ⟨rfl, next_ending p⟩)
      | cons ch r => exact .inl (Nat.succ_pos _)
  | lexeme reads place notEnd nonempty => exact .inl (length_lt_of_reads reads nonempty)
  | unclosed isUnclosed nonempty => exact .inl (List.length_pos_iff.mpr nonempty)
  | @unexpected ch w r reads bare scans =>
      obtain rfl : cs = w ++ ch :: r := reads
      cases w with
      | nil => exact .inr (.inr ⟨ch, r, rfl, next_unexpected bare scans p⟩)
      | cons x w => exact .inl (length_lt_of_reads (w := []) rfl (List.cons_ne_nil x w))
  | @escape ch w r reads =>
      exact .inl (length_lt_of_reads (x := ['\\']) reads (List.cons_ne_nil _ _))
  | number reads nonempty => exact .inl (length_lt_of_reads reads nonempty)

/-! ### Calls in a row -/

/-- The cursor after so many calls, whatever they answered. -/
def called : Nat → Cursor → Cursor
  | 0, c => c
  | n + 1, c => called n c.next.2

theorem called_succ (n : Nat) (c : Cursor) : c.called (n + 1) = (c.called n).next.2 := by
  induction n generalizing c with
  | zero => rfl
  | succ n ih => exact ih c.next.2

/-- Where a call changes nothing, later calls answer the same. -/
theorem next_called {c : Cursor} {a : Except LexError Lexeme} (h : c.next = (a, c)) (n : Nat) :
    (c.called n).next = (a, c) := by
  have hstays : c.called n = c := by
    induction n with
    | zero => rfl
    | succ n ih => rw [called_succ, ih, h]
  rw [hstays, h]

theorem exists_read_called (c : Cursor) (n : Nat) :
    ∃ read, c.rest = read ++ (c.called n).rest ∧
      (c.called n).position = c.position.after read := by
  induction n with
  | zero => exact ⟨[], rfl, rfl⟩
  | succ n ih =>
      obtain ⟨read, hrest, hplace⟩ := ih
      obtain ⟨more, hmore, hplace'⟩ := (c.called n).call.exists_read
      rw [called_succ]
      refine ⟨read ++ more, by rw [hrest, hmore, List.append_assoc], ?_⟩
      rw [hplace', hplace, Position.after_append]

end Cursor

/-! ### Places in a text -/

/-- Whether a place is that of `rest`, an end of a text: one line more than there are line feeds in
front of it, and as many columns as there are characters behind the last of them. -/
def Position.IsOf (text rest : List Char) (p : Position) : Prop :=
  ∃ read, text = read ++ rest ∧
    p = ⟨1 + read.count '\n', (read.rtakeWhile (· != '\n')).length⟩

theorem Position.isOf_iff {text rest : List Char} {p : Position} :
    p.IsOf text rest ↔ ∃ read, text = read ++ rest ∧ p = start.after read := by
  simp only [IsOf, after_start]

theorem Position.IsOf.after {text w rest : List Char} {p : Position}
    (h : p.IsOf text (w ++ rest)) : (p.after w).IsOf text rest := by
  obtain ⟨read, htext, rfl⟩ := isOf_iff.mp h
  exact isOf_iff.mpr ⟨read ++ w, by rw [htext, List.append_assoc], (after_append _ _ _).symm⟩

/-! ### What the answers say -/

namespace Cursor.Call

variable {c c' : Cursor}

theorem ending_inv {l : Lexeme} (h : c.Call (.ok l) c') (hend : l.token = .eof) :
    c'.rest = [] ∧ l = .ending c'.position ∧ ∀ n, (c'.called n).next = (.ok l, c') := by
  cases h with
  | ending => exact ⟨rfl, rfl, next_called (next_ending _)⟩
  | lexeme reads place notEnd nonempty => exact absurd hend notEnd

theorem unexpected_inv {ch : Char} {p : Position}
    (h : c.Call (.error ⟨.unexpectedChar ch, p⟩) c') :
    c'.rest.head? = some ch ∧ p = c'.position ∧
      ∀ n, (c'.called n).next = (.error ⟨.unexpectedChar ch, p⟩, c') := by
  cases h with
  | unclosed isUnclosed nonempty => simp at isUnclosed
  | unexpected reads bare scans => exact ⟨rfl, rfl, next_called (next_unexpected bare scans _)⟩

theorem unclosed_inv {f : LexFault} {p : Position} (h : c.Call (.error ⟨f, p⟩) c')
    (hf : f ∈ [.unterminatedString, .unterminatedName, .unterminatedComment]) :
    c'.rest = [] ∧ ∀ n, (c'.called n).next = (.ok (.ending c'.position), c') := by
  cases h with
  | unclosed isUnclosed nonempty => exact ⟨rfl, next_called (next_ending _)⟩
  | unexpected reads bare scans => simp at hf
  | escape reads => simp at hf
  | number reads nonempty => simp at hf

theorem escape_inv {ch : Char} {p : Position} (h : c.Call (.error ⟨.invalidEscape ch, p⟩) c')
    {text : List Char} (placed : c.position.IsOf text c.rest) :
    p.IsOf text ('\\' :: c'.rest) ∧ c'.rest.head? = some ch ∧ c'.position = p.step '\\' := by
  cases h with
  | unclosed isUnclosed nonempty => simp at isUnclosed
  | escape reads =>
      rw [reads] at placed
      exact ⟨placed.after, rfl, rfl⟩

theorem number_inv {t : String} {p : Position} (h : c.Call (.error ⟨.invalidNumber t, p⟩) c')
    {text : List Char} (placed : c.position.IsOf text c.rest) :
    p.IsOf text (t.toList ++ c'.rest) ∧ c'.position = p.after t.toList := by
  cases h with
  | unclosed isUnclosed nonempty => simp at isUnclosed
  | number reads nonempty =>
      rw [reads] at placed
      exact ⟨placed.after, rfl⟩

end Cursor.Call

/-- What holds of a call at a cursor in a text, and of the calls after it. -/
structure Cursor.Resumes (text : List Char) (c : Cursor) : Prop where
  /-- The cursor stands in front of an end of the text, at its place. -/
  placed : c.position.IsOf text c.rest
  /-- It does not move backwards, nor behind the end. -/
  onward : c.next.2.rest <:+ c.rest
  /-- It moves, or nothing is left, or a character begins no token. -/
  moves : c.next.2.rest.length < c.rest.length ∨
    c.rest = [] ∧ c.next = (.ok (.ending c.position), c) ∨
    ∃ ch r, c.rest = ch :: r ∧ c.next = (.error ⟨.unexpectedChar ch, c.position⟩, c)
  /-- The end is answered at the end, from then on. -/
  ended : ∀ l, c.next.1 = .ok l → l.token = .eof →
    c.next.2.rest = [] ∧ l = .ending c.next.2.position ∧
      ∀ n, (c.next.2.called n).next = (.ok l, c.next.2)
  /-- An unexpected character is the one at the cursor, from then on. -/
  unexpected : ∀ ch p, c.next.1 = .error ⟨.unexpectedChar ch, p⟩ →
    c.next.2.rest.head? = some ch ∧ p = c.next.2.position ∧
      ∀ n, (c.next.2.called n).next = (.error ⟨.unexpectedChar ch, p⟩, c.next.2)
  /-- What is not closed takes all that is left, and then the end is answered. -/
  unclosed : ∀ f p, f ∈ [.unterminatedString, .unterminatedName, .unterminatedComment] →
    c.next.1 = .error ⟨f, p⟩ →
      c.next.2.rest = [] ∧
        ∀ n, (c.next.2.called n).next = (.ok (.ending c.next.2.position), c.next.2)
  /-- An escape that is none stands at the cursor, behind its backslash. -/
  escape : ∀ ch p, c.next.1 = .error ⟨.invalidEscape ch, p⟩ →
    p.IsOf text ('\\' :: c.next.2.rest) ∧ c.next.2.rest.head? = some ch ∧
      c.next.2.position = p.step '\\'
  /-- What is no number ends at the cursor. -/
  number : ∀ t p, c.next.1 = .error ⟨.invalidNumber t, p⟩ →
    p.IsOf text (t.toList ++ c.next.2.rest) ∧ c.next.2.position = p.after t.toList

/-- **Lexing can be resumed after errors.** After any number of calls, whatever they answered, the
cursor stands at its place in the text, and the next call goes on from there. -/
theorem resumes_called (source : String) (n : Nat) :
    ((Cursor.ofString source).called n).Resumes source.toList := by
  have placed : ((Cursor.ofString source).called n).position.IsOf source.toList
      ((Cursor.ofString source).called n).rest :=
    Position.isOf_iff.mpr ((Cursor.ofString source).exists_read_called n)
  generalize (Cursor.ofString source).called n = c at placed
  obtain ⟨read, hread, -⟩ := c.call.exists_read
  have hcall : ∀ a, c.next.1 = a → c.Call a c.next.2 := fun a ha => ha ▸ c.call
  exact {
    placed
    onward := ⟨read, hread.symm⟩
    moves := c.next_moves
    ended := fun l hl => (hcall _ hl).ending_inv
    unexpected := fun ch p hanswer => (hcall _ hanswer).unexpected_inv
    unclosed := fun f p hf hanswer => (hcall _ hanswer).unclosed_inv hf
    escape := fun ch p hanswer => (hcall _ hanswer).escape_inv placed
    number := fun t p hanswer => (hcall _ hanswer).number_inv placed }

-- An escape and a number that are none, a name that is not closed, and the end, twice.
example : (List.range 6).map (fun n => ((Cursor.ofString "'\\q 1e1e1 `n").called n).next.1) =
    [.error ⟨.invalidEscape 'q', ⟨1, 1⟩⟩, .ok ⟨.identifier "q", "q", ⟨1, 2⟩⟩,
      .error ⟨.invalidNumber "1e1e1", ⟨1, 4⟩⟩, .error ⟨.unterminatedName, ⟨1, 10⟩⟩,
      .ok (.ending ⟨1, 12⟩), .ok (.ending ⟨1, 12⟩)] := by
  decide +kernel

end BindCheck

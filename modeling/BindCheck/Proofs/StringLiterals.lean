import BindCheck.Proofs.Lossless

/-!
# BindCheck.Proofs.StringLiterals

**A string literal is read as the value that it writes, and in no other way.** `Encodes` says how a
value may be written between quotes: a character stands for itself, unless it is the quote or a
backslash, and eight characters may be written with a backslash in front of their escape. So a value
has many encodings, among them those with the other quote or with line feeds as they are.

* An encoding with its closing quote is a body with that value, whatever stands behind it
  (`Encodes.stringBody`).
* A body that is closed is an encoding of its value and the quote (`encodes_of_stringBody`).
-/

namespace BindCheck

/-- The letters that stand behind a backslash, and what they stand for. -/
def escapes : List (Char × Char) :=
  [('n', '\n'), ('t', '\t'), ('r', '\r'), ('b', '\x08'), ('f', '\x0c'), ('\'', '\''), ('"', '"'),
    ('\\', '\\')]

/-- How the characters of a value may be written between two quotes. -/
inductive Encodes (quote : Char) : List Char → List Char → Prop where
  | nil : Encodes quote [] []
  | plain {c : Char} {v e : List Char} (notQuote : c ≠ quote) (notBackslash : c ≠ '\\')
      (more : Encodes quote v e) : Encodes quote (c :: v) (c :: e)
  | escaped {d c : Char} {v e : List Char} (escape : (d, c) ∈ escapes) (more : Encodes quote v e) :
      Encodes quote (c :: v) ('\\' :: d :: e)

/-! ### Bodies of strings -/

theorem unescape?_of_mem_escapes {d c : Char} (h : (d, c) ∈ escapes) : unescape? d = some c := by
  have hall : ∀ row ∈ escapes, unescape? row.1 = some row.2 := by decide
  exact hall (d, c) h

theorem mem_escapes_of_unescape? {d c : Char} (h : unescape? d = some c) : (d, c) ∈ escapes := by
  unfold unescape? at h
  split at h
  case h_9 => exact absurd h (by simp)
  all_goals
    obtain rfl := Option.some.inj h
    decide

section

variable {quote : Char}

theorem stringBody_quote (rest : List Char) : stringBody quote (quote :: rest) =
    .closed [] [quote] rest := by
  cases rest <;> simp [stringBody]

theorem stringBody_escape (hquote : quote ≠ '\\') {d c : Char} (h : unescape? d = some c)
    (rest : List Char) :
    stringBody quote ('\\' :: d :: rest) = (stringBody quote rest).behind c ['\\', d] := by
  rw [stringBody, if_neg hquote.symm, if_pos rfl, h]

theorem stringBody_plain {c : Char} (hquote : c ≠ quote) (hback : c ≠ '\\') (rest : List Char) :
    stringBody quote (c :: rest) = (stringBody quote rest).behind c [c] := by
  cases rest with
  | nil => simp [stringBody, hquote, StringBody.behind]
  | cons d rest => rw [stringBody, if_neg hquote, if_neg hback]

/-- **An encoding is read as the value that it writes**, up to the closing quote. -/
theorem Encodes.stringBody {v e : List Char} (h : Encodes quote v e) (hquote : quote ≠ '\\')
    (rest : List Char) :
    stringBody quote (e ++ quote :: rest) = .closed v (e ++ [quote]) rest := by
  induction h with
  | nil => exact stringBody_quote rest
  | plain notQuote notBackslash _ ih =>
      rw [List.cons_append, stringBody_plain notQuote notBackslash, ih]
      rfl
  | escaped escape _ ih =>
      rw [List.cons_append, List.cons_append,
        stringBody_escape hquote (unescape?_of_mem_escapes escape), ih]
      rfl

/-- **A closed body is an encoding of its value**, and the closing quote. -/
theorem encodes_of_stringBody {cs value raw rest : List Char}
    (h : BindCheck.stringBody quote cs = .closed value raw rest) :
    ∃ e, raw = e ++ [quote] ∧ Encodes quote value e := by
  fun_induction BindCheck.stringBody quote cs generalizing value raw rest with
  | case1 => simp at h
  | case2 =>
      simp only [StringBody.closed.injEq] at h
      obtain ⟨rfl, rfl, rfl⟩ := h
      exact ⟨[], rfl, .nil⟩
  | case3 => simp at h
  | case4 d r =>
      simp only [StringBody.closed.injEq] at h
      obtain ⟨rfl, rfl, rfl⟩ := h
      exact ⟨[], rfl, .nil⟩
  | case5 d r v hv hq ih =>
      obtain ⟨value', raw', hbody, rfl, rfl⟩ := StringBody.behind_eq_closed h
      obtain ⟨e, rfl, hencodes⟩ := ih hbody
      exact ⟨'\\' :: d :: e, rfl, .escaped (mem_escapes_of_unescape? hv) hencodes⟩
  | case6 => simp at h
  | case7 c d r hq hb ih =>
      obtain ⟨value', raw', hbody, rfl, rfl⟩ := StringBody.behind_eq_closed h
      obtain ⟨e, rfl, hencodes⟩ := ih hbody
      exact ⟨c :: e, rfl, .plain hq hb hencodes⟩

end

/-! ### String literals of a text -/

/-- A string is spelled as an encoding of its value between quotes. -/
theorem Spells.exists_encodes {v : String} {w : List Char} (h : Spells (.string v) w) :
    ∃ quote e, isQuote quote = true ∧ Encodes quote v.toList e ∧ w = quote :: (e ++ [quote]) := by
  generalize ht : Token.string v = t at h
  cases h with
  | number starts scans value =>
      rcases classify_eq_ok value with ⟨n, rfl⟩ | ⟨b, rfl⟩ <;> exact Token.noConfusion ht
  | @string quote body value opens closes =>
      obtain ⟨e, rfl, hencodes⟩ := encodes_of_stringBody closes
      rw [Token.string.inj ht, String.toList_ofList]
      exact ⟨quote, e, opens, hencodes, rfl⟩
  | quotedName | symbol => exact Token.noConfusion ht
  | @word c r starts continues =>
      rcases ofWord_cases (c :: r) with ⟨k, hk⟩ | hk <;> rw [hk] at ht <;>
        exact Token.noConfusion ht

theorem ne_backslash_of_isQuote {quote : Char} (h : isQuote quote = true) : quote ≠ '\\' := by
  rintro rfl
  exact absurd h (by decide)

theorem bare_of_isQuote {quote : Char} (h : isQuote quote = true) (r : List Char) :
    Bare (quote :: r) := by
  have hquote : quote = '"' ∨ quote = '\'' := by simpa [isQuote] using h
  rcases hquote with rfl | rfl <;> exact ⟨by decide, fun hslash => absurd hslash (by decide)⟩

/-- A lexeme that is all of a text is the only one that is read. -/
theorem tokenize_text {l : Lexeme} (h : Spells l.token l.text.toList) (bare : Bare l.text.toList)
    (ends : Boundary l.token l.text.toList []) (place : l.position = .start) :
    tokenize l.text = .ok [l, .ending (Position.start.after l.text.toList)] := by
  have hend : l.token ≠ .eof := by
    obtain ⟨_, _, -, hstarts⟩ := h.starts
    intro heof
    rwa [heof] at hstarts
  have hscan := scan_spelling h ends
  rw [← List.append_nil l.text.toList] at bare
  have hlast : Reads (Position.start.after l.text.toList) [] [⟨[], .ending _⟩] := .ending .none
  have hreads := Reads.piece .none bare hscan hend place hlast
  rw [List.nil_append, List.append_nil] at hreads
  exact hreads.tokensFrom (Nat.lt_succ_self _)

/-- **String literals decode what they encode.** Every encoding of a value between two quotes is a
text of one string with this value, written as it is; and whenever a string is read, wherever the
cursor stands, it is written as an encoding of its value between two quotes. -/
theorem strings_decode_encodings :
    (∀ (quote : Char) (v : String) (e : List Char), quote = '"' ∨ quote = '\'' →
      Encodes quote v.toList e →
        tokenize (String.ofList (quote :: (e ++ [quote]))) =
          .ok [⟨.string v, String.ofList (quote :: (e ++ [quote])), .start⟩,
            .ending (Position.start.after (quote :: (e ++ [quote])))]) ∧
      ∀ (c c' : Cursor) (l : Lexeme) (v : String), c.next = (.ok l, c') → l.token = .string v →
        ∃ quote e, (quote = '"' ∨ quote = '\'') ∧ Encodes quote v.toList e ∧
          l.text = String.ofList (quote :: (e ++ [quote])) := by
  constructor
  · intro quote v e hquote hencodes
    have hopens : isQuote quote = true := by simpa [isQuote] using hquote
    have hspells : Spells (.string v) (quote :: (e ++ [quote])) := by
      have hstring := Spells.string hopens
        (hencodes.stringBody (ne_backslash_of_isQuote hopens) [])
      rwa [String.ofList_toList] at hstring
    have hbare := bare_of_isQuote hopens (e ++ [quote])
    generalize htext : String.ofList (quote :: (e ++ [quote])) = text
    have hlist : quote :: (e ++ [quote]) = text.toList := by rw [← htext, String.toList_ofList]
    rw [hlist] at hspells hbare ⊢
    exact tokenize_text (l := ⟨.string v, text, .start⟩) hspells hbare trivial rfl
  · intro c c' l v hnext hl
    obtain ⟨w, -, -, -, hscan, -, -⟩ := Cursor.next_eq_ok hnext
    rcases (scan_sound hscan).2 with ⟨heof, -⟩ | hspells
    · rw [hl] at heof
      exact Token.noConfusion heof
    · rw [hl] at hspells
      obtain ⟨quote, e, hquote, hencodes, htext⟩ := hspells.exists_encodes
      refine ⟨quote, e, by simpa [isQuote] using hquote, hencodes, ?_⟩
      rw [← htext, String.ofList_toList]

/-- Both quotes, and a line feed in both ways of writing it. -/
theorem strings_decode_encodings_of_quotes :
    Encodes '\'' "'\n\n\"".toList "\\'\\n\n\"".toList ∧
      tokenize "'\\'\\n\n\"'" =
        .ok [⟨.string "'\n\n\"", "'\\'\\n\n\"'", .start⟩, .ending ⟨2, 2⟩] ∧
      (Cursor.ofString " '\\'\\n\n\"'x").next =
        (.ok ⟨.string "'\n\n\"", "'\\'\\n\n\"'", ⟨1, 1⟩⟩, ⟨['x'], ⟨2, 2⟩⟩) ∧
      ∃ quote e, (quote = '"' ∨ quote = '\'') ∧ Encodes quote "'\n\n\"".toList e ∧
        "'\\'\\n\n\"'" = String.ofList (quote :: (e ++ [quote])) := by
  have hencodes : Encodes '\'' "'\n\n\"".toList "\\'\\n\n\"".toList :=
    .escaped (by decide) (.escaped (by decide) (.plain (by decide) (by decide)
      (.plain (by decide) (by decide) .nil)))
  have hnext : (Cursor.ofString " '\\'\\n\n\"'x").next =
      (.ok ⟨.string "'\n\n\"", "'\\'\\n\n\"'", ⟨1, 1⟩⟩, ⟨['x'], ⟨2, 2⟩⟩) := by
    decide +kernel
  have hread := strings_decode_encodings.1 _ _ _ (.inr rfl) hencodes
  have hwritten := strings_decode_encodings.2 _ _ _ _ hnext rfl
  exact ⟨hencodes, hread, hnext, hwritten⟩

end BindCheck

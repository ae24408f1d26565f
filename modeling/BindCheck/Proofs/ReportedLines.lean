import BindCheck.Proofs.DocumentOrder
import BindCheck.Proofs.SupportGate
import BindCheck.Report

/-!
# BindCheck.Proofs.ReportedLines

**A report shows the line on which its lexeme stands, at the column that it names.** Lines are
told in two ways that know nothing of each other: the lexer counts line feeds, and the reporter
cuts the text into lines and drops their endings, carriage returns among them.

What ties them together is what has been read of a text up to any place: some whole lines, and a
beginning of the next one (`exists_line`). Their number and its length are the place, and the
lines of the text are those lines, and then the lines of that beginning with the rest behind it.
The first of these goes on as the rest does, at least up to the next ending of a line
(`linesOf_prefix`).

A report drops the blanks in front of the line and counts the caret from its start all the same,
so the caret stands too far to the right by the number of those blanks, and by nothing else.
-/

namespace BindCheck

/-! ### Lines -/

/-- A character that ends no line begins one. -/
theorem linesOf_cons {c : Char} {cs : List Char} (hc : c ≠ '\n')
    (hreturn : ¬(c = '\r' ∧ cs.head? = some '\n')) :
    linesOf (c :: cs) =
      match linesOf cs with
      | [] => [[c]]
      | l :: ls => (c :: l) :: ls := by
  rw [linesOf.eq_def]
  split
  · next h => cases h
  · next h => exact absurd (List.cons.inj h).1 hc
  · next h =>
      obtain ⟨rfl, rfl⟩ := List.cons.inj h
      exact absurd ⟨rfl, rfl⟩ hreturn
  · next h =>
      obtain ⟨rfl, rfl⟩ := List.cons.inj h
      rfl

/-- A line feed ends a line, whatever stands behind it. -/
theorem linesOf_append_newline {b : List Char} (hb : '\n' ∉ b) :
    ∃ line, ∀ cs, linesOf (b ++ '\n' :: cs) = line :: linesOf cs := by
  induction b with
  | nil => exact ⟨[], fun cs => rfl⟩
  | cons c b ih =>
      have hc : c ≠ '\n' := fun h => hb (h ▸ List.mem_cons_self)
      obtain ⟨line, hline⟩ := ih fun h => hb (List.mem_cons_of_mem _ h)
      by_cases hreturn : c = '\r' ∧ b = []
      · obtain ⟨rfl, rfl⟩ := hreturn
        exact ⟨[], fun cs => rfl⟩
      · refine ⟨c :: line, fun cs => ?_⟩
        have hnext : ¬(c = '\r' ∧ (b ++ '\n' :: cs).head? = some '\n') := by
          intro h
          cases b with
          | nil => exact hreturn ⟨h.1, rfl⟩
          | cons d b => exact hb (by simp [Option.some.inj h.2])
        rw [List.cons_append, linesOf_cons hc hnext, hline]

/-- The first line of a text goes at least as far as the text goes without a line feed. -/
theorem linesOf_prefix {ys : List Char} (hne : ys ≠ []) (hys : '\n' ∉ ys)
    (hlast : ys.getLast? ≠ some '\r') (cs : List Char) :
    ∃ line ls, linesOf (ys ++ cs) = line :: ls ∧ ys <+: line := by
  induction ys with
  | nil => exact absurd rfl hne
  | cons c ys ih =>
      have hc : c ≠ '\n' := fun h => hys (h ▸ List.mem_cons_self)
      cases ys with
      | nil =>
          have hreturn : c ≠ '\r' := by simpa using hlast
          rw [List.singleton_append, linesOf_cons hc fun h => hreturn h.1]
          cases linesOf cs with
          | nil => exact ⟨_, _, rfl, List.prefix_rfl⟩
          | cons l ls => exact ⟨_, _, rfl, ⟨l, rfl⟩⟩
      | cons d ys =>
          have hys' : '\n' ∉ d :: ys := fun h => hys (List.mem_cons_of_mem _ h)
          have hd : d ≠ '\n' := fun h => hys' (h ▸ List.mem_cons_self)
          rw [List.getLast?_cons_cons] at hlast
          obtain ⟨line, ls, hline, hprefix⟩ := ih (List.cons_ne_nil _ _) hys' hlast
          have hnext : ¬(c = '\r' ∧ (d :: ys ++ cs).head? = some '\n') :=
            fun h => hd (Option.some.inj h.2)
          rw [List.cons_append, linesOf_cons hc hnext, hline]
          exact ⟨_, _, rfl, List.cons_prefix_cons.mpr ⟨rfl, hprefix⟩⟩

/-- **What has been read of a text** are whole lines, and a beginning of the next line. Their
number and its length are the place reached. -/
theorem exists_line (read : List Char) :
    ∃ b ls, '\n' ∉ b ∧ Position.start.after read = ⟨ls.length + 1, b.length⟩ ∧
      ∀ cs, linesOf (read ++ cs) = ls ++ linesOf (b ++ cs) := by
  induction read using List.reverseRecOn with
  | nil => exact ⟨[], [], List.not_mem_nil, rfl, fun cs => rfl⟩
  | append_singleton read c ih =>
      obtain ⟨b, ls, hb, hposition, hlines⟩ := ih
      rw [Position.after_append, hposition, Position.after_cons, Position.after_nil, Position.step]
      by_cases hc : c = '\n'
      · subst hc
        obtain ⟨line, hline⟩ := linesOf_append_newline hb
        refine ⟨[], ls ++ [line], List.not_mem_nil, by simp, fun cs => ?_⟩
        rw [List.append_assoc, hlines, List.singleton_append, hline]
        simp
      · refine ⟨b ++ [c], ls, by simp [hb, Ne.symm hc], by simp [hc], fun cs => ?_⟩
        rw [List.append_assoc, hlines, List.append_assoc]

/-- **The line at a place holds what follows there**, up to the next line feed. -/
theorem exists_line_at (read : List Char) {p : Position} (hp : p = Position.start.after read)
    {ys : List Char} (hne : ys ≠ []) (hys : '\n' ∉ ys) (hlast : ys.getLast? ≠ some '\r')
    (cs : List Char) :
    0 < p.line ∧ ∃ line, (linesOf (read ++ (ys ++ cs)))[p.line - 1]? = some line ∧
      ys <+: line.drop p.column := by
  obtain ⟨b, ls, hb, hposition, hlines⟩ := exists_line read
  have hne' : b ++ ys ≠ [] := List.append_ne_nil_of_right_ne_nil b hne
  have hlast' : (b ++ ys).getLast? ≠ some '\r' := by
    rwa [List.getLast?_append_of_ne_nil b hne]
  obtain ⟨line, ls', hline, hprefix⟩ :=
    linesOf_prefix hne' (by simp [hb, hys]) hlast' cs
  rw [hp, hposition]
  refine ⟨Nat.succ_pos _, line, ?_, ?_⟩
  · rw [hlines, ← List.append_assoc, hline]
    simp
  · obtain ⟨more, rfl⟩ := hprefix
    exact ⟨more, by rw [List.append_assoc, List.drop_left]⟩

theorem lineAt_eq {cs row : List Char} {n : Nat} (hn : 0 < n)
    (h : (linesOf cs)[n - 1]? = some row) : lineAt cs n = row := by
  obtain ⟨n, rfl⟩ := Nat.exists_eq_add_of_lt hn
  rw [Nat.zero_add, Nat.add_sub_cancel] at h
  rw [Nat.zero_add, lineAt, List.getD_eq_getElem?_getD, h, Option.getD_some]

/-! ### Trimmed lines -/

/-- What trimming does to a line with a character that is not blank: it drops blanks at both ends,
and the character stays, moved by the number of those in front. -/
theorem exists_trimmed {row : List Char} {n : Nat} {x : Char} (hx : row[n]? = some x)
    (hblank : isBlank x = false) :
    ∃ blanks tail, row = blanks ++ (trimBlanks row ++ tail) ∧
      (∀ y ∈ blanks ++ tail, isBlank y = true) ∧
      (∀ y ∈ (trimBlanks row).head?, isBlank y = false) ∧
      (∀ y ∈ (trimBlanks row).getLast?, isBlank y = false) ∧
      blanks.length ≤ n ∧ (trimBlanks row)[n - blanks.length]? = some x := by
  have hnotin : ∀ {ys : List Char} {m : Nat}, (∀ y ∈ ys, isBlank y = true) → ys[m]? ≠ some x := by
    intro ys m hys hm
    rw [hys x (List.mem_of_getElem? hm)] at hblank
    cases hblank
  have hfront : ∀ y ∈ row.takeWhile isBlank, isBlank y = true :=
    List.all_eq_true.mp List.all_takeWhile
  have hback : ∀ y ∈ (row.dropWhile isBlank).rtakeWhile isBlank, isBlank y = true :=
    fun y => List.mem_rtakeWhile_imp
  have hrest : trimBlanks row ++ (row.dropWhile isBlank).rtakeWhile isBlank =
      row.dropWhile isBlank :=
    List.rdropWhile_append_rtakeWhile
  have hline : row.takeWhile isBlank ++ row.dropWhile isBlank = row :=
    List.takeWhile_append_dropWhile
  have hlength : (row.takeWhile isBlank).length ≤ n := by
    by_contra hlt
    rw [← hline, List.getElem?_append_left (by omega)] at hx
    exact hnotin hfront hx
  rw [← hline, List.getElem?_append_right hlength, ← hrest] at hx
  have hshown : (trimBlanks row)[n - (row.takeWhile isBlank).length]? = some x := by
    by_cases hlt : n - (row.takeWhile isBlank).length < (trimBlanks row).length
    · rwa [List.getElem?_append_left hlt] at hx
    · rw [List.getElem?_append_right (by omega)] at hx
      exact absurd hx (hnotin hback)
  have hne : trimBlanks row ≠ [] := by
    intro hnil
    rw [hnil] at hshown
    cases hshown
  refine ⟨_, _, by rw [hrest, hline], ?_, ?_, ?_, hlength, hshown⟩
  · intro y hy
    exact (List.mem_append.mp hy).elim (hfront y) (hback y)
  · intro y hy
    have hhead : y ∈ (row.dropWhile isBlank).head? := by
      rw [← hrest, List.head?_append_of_ne_nil _ hne]
      exact hy
    have hnot := List.head?_dropWhile_not isBlank row
    rw [Option.mem_def.mp hhead] at hnot
    simpa using hnot
  · intro y hy
    have hlast := List.rdropWhile_last_not isBlank (row.dropWhile isBlank) hne
    rw [Option.mem_def, List.getLast?_eq_some_getLast hne] at hy
    exact Option.some.inj hy ▸ Bool.eq_false_iff.mpr hlast

/-! ### Lexemes -/

theorem getLast?_of_nameBody? {cs body rest : List Char} (h : nameBody? cs = some (body, rest)) :
    body.getLast? = some backquote := by
  induction cs generalizing body with
  | nil => cases h
  | cons c r ih =>
      rw [nameBody?] at h
      by_cases hc : c = backquote
      · rw [if_pos hc, Option.some.injEq, Prod.mk.injEq] at h
        rw [← h.1, List.getLast?_singleton, hc]
      · rw [if_neg hc, Option.map_eq_some_iff] at h
        obtain ⟨⟨body', rest'⟩, hbody, heq⟩ := h
        obtain ⟨rfl, rfl⟩ := Prod.mk.inj heq
        rw [List.getLast?_cons, ih hbody]
        rfl

/-- A word does not end in a carriage return. -/
theorem Spells.getLast?_ne {t : Token} {w : List Char} (h : Spells t w)
    (ht : (∃ k, t = .keyword k) ∨ ∃ n, t = .identifier n) : w.getLast? ≠ some '\r' := by
  cases h with
  | number starts scans value =>
      exfalso
      rcases classify_eq_ok value with ⟨n, rfl⟩ | ⟨b, rfl⟩ <;> simp at ht
  | string | symbol => simp at ht
  | quotedName closes =>
      rw [List.getLast?_cons, getLast?_of_nameBody? closes]
      decide
  | @word c r starts continues =>
      intro hlast
      rcases List.mem_cons.mp (List.mem_of_getLast? hlast) with rfl | hr
      · exact absurd starts (by decide)
      · exact absurd (continues _ hr) (by decide)

/-- How a report shows a lexeme of a text: the line that it stands on, and what trimming makes of
that line. -/
structure Report.Shows (source : String) (l : Lexeme) (row blanks shown tail : List Char) :
    Prop where
  isLine : 0 < l.position.line ∧ (linesOf source.toList)[l.position.line - 1]? = some row
  /-- The lexeme begins at its column. -/
  first : ∃ x, l.text.toList.head? = some x ∧ row[l.position.column]? = some x
  /-- A lexeme on one line stands there as a whole. -/
  whole : '\n' ∉ l.text.toList → l.text.toList <+: row.drop l.position.column
  trimmed : row = blanks ++ (shown ++ tail)
  blank : ∀ x ∈ blanks ++ tail, isBlank x = true
  notBlank : (∀ x ∈ shown.head?, isBlank x = false) ∧ ∀ x ∈ shown.getLast?, isBlank x = false
  /-- The caret stands to the right of the lexeme by the blanks in front of the line. -/
  shifted : blanks.length ≤ l.position.column ∧
    shown[l.position.column - blanks.length]? = l.text.toList.head?
  rendered : ∀ message, Report.render source message l.position =
    message ++ " on line: " ++ toString l.position.line ++ ", col: " ++
      toString l.position.column ++ "\n" ++ String.ofList shown ++ "\n" ++
      String.ofList (List.replicate l.position.column ' ' ++ ['^'])

/-- **Every word of a text is shown where it stands.** -/
theorem exists_shows {source : String} {ls : List Lexeme} (hls : tokenize source = .ok ls)
    {l : Lexeme} (hl : l ∈ ls) (hw : l.Written)
    (ht : (∃ k, l.token = .keyword k) ∨ ∃ n, l.token = .identifier n) :
    ∃ row blanks shown tail, Report.Shows source l row blanks shown tail := by
  obtain ⟨ps, last, rfl, hlayout⟩ := layout_of_tokenize hls
  obtain ⟨p, hp, rfl⟩ := List.mem_map.mp hl
  obtain ⟨front, back, hsplit⟩ := List.append_of_mem hp
  have hposition := hlayout.position front p back hsplit
  have hsource : source.toList = front.flatMap Piece.chars ++ p.trivia ++
      (p.lexeme.text.toList ++ back.flatMap Piece.chars) := by
    rw [hlayout.whole, hsplit]
    simp [Piece.chars]
  -- the first character stands on the line, and no blank does in its place
  obtain ⟨x, xs, hx, -⟩ := hw.spells.starts
  have hblank : isBlank x = false := hw.notBlank x (by rw [hx]; rfl)
  have hnewline : x ≠ '\n' := by
    rintro rfl
    exact absurd hblank (by decide)
  have hreturn : x ≠ '\r' := by
    rintro rfl
    exact absurd hblank (by decide)
  obtain ⟨hline, row, hat, hfirst⟩ := exists_line_at _ hposition (List.cons_ne_nil x [])
    (by simpa using hnewline.symm) (by simpa using hreturn) (xs ++ back.flatMap Piece.chars)
  have htext : [x] ++ (xs ++ back.flatMap Piece.chars) =
      p.lexeme.text.toList ++ back.flatMap Piece.chars := by
    rw [hx]
    rfl
  rw [htext, ← hsource] at hat
  have hcolumn : row[p.lexeme.position.column]? = some x := by
    obtain ⟨more, hmore⟩ := hfirst
    rw [← Nat.add_zero p.lexeme.position.column, ← List.getElem?_drop, ← hmore]
    rfl
  obtain ⟨blanks, tail, htrimmed, hblanks, hhead, hlast, hle, hshown⟩ :=
    exists_trimmed hcolumn hblank
  refine ⟨row, blanks, trimBlanks row, tail, ⟨hline, hat⟩, ⟨x, by rw [hx]; rfl, hcolumn⟩, ?_,
    htrimmed, hblanks, ⟨hhead, hlast⟩, ⟨hle, by rw [hshown, hx]; rfl⟩, ?_⟩
  · intro hwhole
    obtain ⟨-, row', hat', hprefix⟩ := exists_line_at _ hposition (by rw [hx]; simp) hwhole
      (hw.spells.getLast?_ne ht) (back.flatMap Piece.chars)
    rw [← hsource, hat, Option.some.injEq] at hat'
    rwa [hat']
  · intro message
    rw [Report.render, lineAt_eq hline hat]
    simp [toString]

/-- **Reports point at their lexemes.** A finding is reported on the line of the identifier that it
names, and a construct that is not analyzed on the line of its reserved word, each at the column at
which the lexeme begins. The caret under the trimmed line is off by the blanks that were trimmed
in front. -/
theorem reports_point_at_lexemes {source : String} {t : Tree} (h : parse source = .ok t) :
    ∃ ls, tokenize source = .ok ls ∧
      (∀ a, t.analyze = .ok a → ∀ d ∈ a.diagnostics,
        ⟨.identifier d.name, d.name, d.position⟩ ∈ ls ∧ ∃ row blanks shown tail,
          Report.Shows source ⟨.identifier d.name, d.name, d.position⟩ row blanks shown tail) ∧
      ∀ u, t.analyze = .error u → ∃ w x,
        u.construct.word? = some w ∧ ⟨.keyword w, x, u.position⟩ ∈ ls ∧
          ∃ row blanks shown tail,
            Report.Shows source ⟨.keyword w, x, u.position⟩ row blanks shown tail := by
  have hsupported : ∀ {a}, t.analyze = .ok a → t.unsupported? = none :=
    fun ha => Tree.unsupported?_of_analyze ha
  have hgate : ∀ {u}, t.analyze = .error u ↔ t.unsupported? = some u := Tree.analyze_error_iff h
  obtain ⟨c, hc, rfl⟩ := cover_of_parse h
  obtain ⟨p, hls, -⟩ := hc.run
  refine ⟨_, hls, ?_, ?_⟩
  · intro a ha d hd
    have hanalyze := Tree.analyze_of_supported h (hsupported ha)
    rw [ha, Except.ok.injEq] at hanalyze
    have hown : d.lexeme ∈ c.own := by
      rw [hanalyze] at hd
      obtain ⟨v, hv, rfl⟩ := List.mem_map.mp hd
      exact hc.unresolved_sublist.subset (List.mem_map_of_mem hv)
    have hmem := List.mem_append_left [Lexeme.ending p] hown
    exact ⟨hmem, exists_shows hls hmem (hc.written _ hown) (.inr ⟨_, rfl⟩)⟩
  · intro u hu
    obtain ⟨w, ⟨token, x, q⟩, hw, hfirst, hposition⟩ := hc.isFirst_of_unsupported (hgate.mp hu)
    obtain rfl : q = u.position := hposition.symm
    obtain rfl : token = .keyword w := hfirst.1.1
    have hmem := List.mem_append_left [Lexeme.ending p] hfirst.mem
    exact ⟨w, x, hw, hmem, exists_shows hls hmem (hc.written _ hfirst.mem) (.inl ⟨_, rfl⟩)⟩

/-- A name behind a comment that spans lines, on a line that ends in a carriage return. -/
theorem reports_point_at_lexemes_of_lines :
    ∃ t a, parse "MATCH (n) /* \n */\r\n\t RETURN m , n\r\n" = .ok t ∧ t.analyze = .ok a ∧
      a.diagnostics = [⟨.undefinedVariable, "m", ⟨3, 9⟩⟩] ∧ ∃ row blanks shown tail,
        Report.Shows "MATCH (n) /* \n */\r\n\t RETURN m , n\r\n" ⟨.identifier "m", "m", ⟨3, 9⟩⟩
          row blanks shown tail := by
  obtain ⟨t, ht, hfound⟩ : ∃ t, parse "MATCH (n) /* \n */\r\n\t RETURN m , n\r\n" = .ok t ∧
      t.analyze = .ok ⟨[⟨.undefinedVariable, "m", ⟨3, 9⟩⟩]⟩ :=
    exists_parse_eq_ok (by decide +kernel)
  obtain ⟨ls, -, hfindings, -⟩ := reports_point_at_lexemes ht
  exact ⟨t, _, ht, hfound, rfl, (hfindings _ hfound _ (List.mem_singleton_self _)).2⟩

end BindCheck

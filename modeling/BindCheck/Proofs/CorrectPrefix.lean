import BindCheck.Proofs.Acceptance
import BindCheck.Proofs.Completions
import BindCheck.Proofs.LayoutIndependence

/-!
# BindCheck.Proofs.CorrectPrefix

**An error is never reported too late.** What stands in front of the lexeme that an error is about
is the beginning of a query (`parse_error_viable`): the parser has not taken a lexeme that no
query could have had there.

What a rule has taken before it fails can be completed, as far as this is known of the rules
that it calls (`Fails.completes`). For three rules that is not read off their text, as their text
spells more than they take:

* in a list a comma stands behind every element but the last, as the closing bracket is not next
  where another round begins (`Fails.completes_listed`);
* between the brackets behind an atom there is something, an index or a range;
* a part of a query that updates nothing is closed by a projection.

The completed tokens are written one behind the other, and what is written so is read back.
-/

namespace BindCheck

open RegularExpression

section

variable {m : Nat} {us vs : List Lexeme}

/-! ### Rules that are read off their text -/

theorem Leaf.Viable.of_reads {leaves : List Leaf} {r s : Rule} {f : Form} {follow : List Terminal}
    (hsound : ∀ leaf ∈ leaves, leaf.Sound m) (hviable : ∀ leaf ∈ leaves, leaf.Viable m)
    (hs : s.reads leaves f = true) (hw : s.writable = true)
    (hr : ∀ us vs, Fails r us vs → Fails s us vs) : Leaf.Viable m ⟨r, f, follow⟩ := by
  simp only [Rule.reads, Bool.and_eq_true] at hs
  obtain ⟨⟨hconforms, hearly⟩, hform⟩ := hs
  constructor
  · have hnil := Rule.completes_nil (fun leaf hl => (hviable leaf hl).inhabited) hconforms hw
    exact hnil.mono hform
  · intro known us vs hbelow h
    have hus := (hr us vs h).completes hsound hviable hconforms hw (.of_le hbelow.1 hearly)
      (Rule.holds_none _)
    exact hus.mono hform

/-! ### Lists and maps -/

theorem Fails.seq_assoc {r s t : Rule} (h : Fails (.seq r (.seq s t)) us vs) :
    Fails (.seq (.seq r s) t) us vs := by
  rcases h.seq_cases with failure | ⟨us₁, us₂, cs, rfl, run, failure⟩
  · exact .first (.first failure)
  · rcases failure.seq_cases with failure | ⟨us₂, us₃, cs', rfl, run', failure⟩
    · exact .first (.second run failure)
    · rw [List.append_assoc] at run
      rw [← List.append_assoc]
      exact .second (.seq run run') failure

/-- The last rule of a row fails behind the others. -/
theorem Fails.row_append {rs : List Rule} {s : Rule} (h : Fails (.row (rs ++ [s])) us vs) :
    Fails (.seq (.row rs) s) us vs := by
  induction rs generalizing us with
  | nil => exact .second .empty h
  | cons r rs ih =>
      cases rs with
      | nil => exact h
      | cons r' rs =>
          have hrest : Fails (.seq r (.seq (.row (r' :: rs)) s)) us vs := by
            rcases h.seq_cases with failure | ⟨us₁, us₂, cs, rfl, run, failure⟩
            · exact .first failure
            · exact .second run (ih failure)
          exact hrest.seq_assoc

theorem Completes.optional {f : Form} {ks : List Token} (h : Completes f ks) :
    Completes (.optional f) ks := h.inl

/-- Where nothing has been taken, there may be something. -/
theorem Completes.of_optional {f : Form} {ks : List Token} (h : Completes (1 + f) ks)
    (hf : Completes f []) : Completes f ks := by
  obtain ⟨ws, hw, hyields⟩ := h
  rcases Yields.add_iff.mp hyields with hnone | hsome
  · obtain ⟨rfl, -⟩ := List.append_eq_nil_iff.mp (Yields.one_iff.mp hnone)
    exact hf
  · exact ⟨ws, hw, hsome⟩

theorem Completes.optional_nil {f : Form} : Completes (.optional f) [] := inr nil

/-- The last of some items. -/
theorem Completes.elements {f : Form} {ks : List Token} (h : Completes f ks) :
    Completes (.elements f) ks := by
  have hlist : Completes (Form.list f) ks := h.first star_nil
  exact (hlist.first optional_nil).optional

/-- Items up to a closing bracket, from the items. -/
theorem Fails.completes_listed {close : Symbol} {item : List Rule} {f : Form}
    (hsound : ∀ us vs cs, us.length < m → Run (.row item) us vs cs → Yields f (us.map Lexeme.token))
    (hviable : ∀ us vs, us.length < m → Fails (.row item) us vs →
      Completes f (us.map Lexeme.token))
    (h : Fails (Grammar.listed close item) us vs) (hlen : us.length < m) :
    Completes (.elements f) (us.map Lexeme.token) := by
  refine many_induction (P := fun us => us.length < m →
    Completes (.elements f) (us.map Lexeme.token)) ?_ ?_ h hlen
  · intro us _ failure hlen
    rcases failure.row_append.seq_cases with failure | ⟨us₁, us₂, cs, rfl, run, failure⟩
    · exact (hviable us vs hlen failure).elements
    · rw [List.length_append] at hlen
      have hitem := hsound us₁ _ cs (by omega) run
      rcases failure.branch_cases with ⟨-, hempty⟩ | ⟨-, hcomma⟩
      · nomatch hempty
      · obtain rfl := hcomma.eq_nil_of_token
        rw [List.append_nil]
        exact (Completes.of_yields hitem).elements
  · intro us us' cs _ round more ih hlen
    obtain ⟨us₁, us₂, rfl, ⟨_, run⟩, hsep⟩ :=
      Rule.Accepts.seq_iff.mp (Rule.Accepts.row_append.mp ⟨_, round⟩)
    simp only [List.length_append] at hlen
    have hitem := hsound us₁ _ _ (by omega) run
    rcases Rule.Accepts.branch_iff.mp hsep with ⟨holds, hempty⟩ | ⟨-, hcomma⟩
    · -- the closing bracket is next, but there is another round
      obtain rfl := Rule.Accepts.empty_iff.mp hempty
      have hnot := more.holds_many
      rw [List.nil_append] at holds
      cases hrest : us' ++ vs with
      | nil => rw [hrest] at holds; exact Bool.noConfusion holds
      | cons v ws =>
          rw [hrest] at holds hnot
          rw [Lookahead.holds, (Bool.and_eq_true_iff.mp holds).1] at hnot
          exact Bool.noConfusion hnot
    · obtain ⟨u, rfl, hu⟩ := Rule.Accepts.token_iff.mp hcomma
      have hcomma : Yields (.sign .comma) [u.token] := Yields.token_iff.mpr ⟨_, rfl, hu⟩
      obtain ⟨ws, hw, hmore⟩ := ih (by omega)
      refine ⟨ws, hw, ?_⟩
      rw [List.map_append, List.map_append, List.append_assoc]
      exact hitem.elements_cons hcomma hmore

theorem Completes.sign (s : Symbol) : Completes (.sign s) [] := .token rfl

/-- Items between brackets, from the calls. -/
theorem Grammar.enclosed_viable {k : NodeKind} {opening close : Symbol} {item : List Rule}
    {f : Form} (hviable : ∀ leaf ∈ calls, leaf.Viable m) (hitems : itemsFit close item f = true)
    (hw : (Rule.row item).writable = true) :
    Leaf.Viable m ⟨enclosed k opening close item, .sign opening * .elements f * .sign close,
      [.anything]⟩ := by
  have hsound : ∀ leaf ∈ calls, leaf.Sound m := fun leaf hl => (calls_exact m leaf hl).sound
  simp only [itemsFit, Bool.and_eq_true] at hitems
  obtain ⟨⟨⟨⟨⟨⟨hr, -⟩, hform⟩, -⟩, -⟩, -⟩, -⟩ := hitems
  have hrun : ∀ us vs cs, us.length < m → Run (.row item) us vs cs →
      Yields f (us.map Lexeme.token) :=
    fun us vs cs hlen run => (run.yields hsound hr (.of_lt hlen) (Rule.holds_none _)).mono hform
  have hfails : ∀ us vs, us.length < m → Fails (.row item) us vs →
      Completes f (us.map Lexeme.token) := fun us vs hlen failure =>
    (failure.completes hsound hviable hr hw (.of_lt hlen) (Rule.holds_none _)).mono hform
  have hnone : Completes (.sign opening * .elements f) [] :=
    (Completes.sign opening).first .optional_nil
  refine ⟨hnone.first (.sign close), ?_⟩
  intro known us vs hbelow h
  have hlen := hbelow.1
  rcases (Fails.wrap_iff.mp h).seq_cases with failure | ⟨_, us, cs, rfl, hopen, failure⟩
  · obtain rfl := failure.eq_nil_of_token
    exact hnone.first (.sign close)
  · obtain ⟨o, rfl, ho, -⟩ := Run.token_iff.mp hopen
    have ho : Yields (.sign opening) [o.token] := Yields.token_iff.mpr ⟨_, rfl, ho⟩
    rw [List.length_append, List.length_singleton] at hlen
    rcases failure.seq_cases with failure | ⟨us, us', cs, rfl, hlisted, failure⟩
    · have hmore := failure.completes_listed hrun hfails (by omega)
      exact (Completes.second ho hmore).first (.sign close)
    · obtain rfl := failure.eq_nil_of_token
      rw [List.append_nil] at hlen ⊢
      have hall := hlisted.yields_listed hrun (by omega)
      exact (Completes.of_yields (ho.mul hall)).first (.sign close)

/-- A category and its right-hand side are completed alike. -/
theorem Leaf.viable_iff {r : Rule} {p : Phrase} {follow : List Terminal} :
    Leaf.Viable m ⟨r, .of p, follow⟩ ↔ Leaf.Viable m ⟨r, p.form, follow⟩ := by
  constructor
  · exact fun h => ⟨Completes.of_iff.mp h.inhabited,
      fun hbelow failure => Completes.of_iff.mp (h.completes hbelow failure)⟩
  · exact fun h => ⟨Completes.of_iff.mpr h.inhabited,
      fun hbelow failure => Completes.of_iff.mpr (h.completes hbelow failure)⟩

/-! ### Indices and ranges -/

namespace Grammar

/-- What stands between the brackets behind an atom. -/
def indexOrRangeBody : Rule :=
  .seq (.branch (.notNext (.symbol .twoDots)) (.call .expression) .empty)
    (.whenNext (.symbol .twoDots) rangeEnd)

/-- The form of an index or a range without its brackets. -/
def boundsForm : Form :=
  Form.of .expression +
    .optional (.of .expression) * .sign .twoDots * .optional (.of .expression)

/-- A part that need not be closed by a projection. -/
def looseTail : Rule :=
  .seq partClauses
    (.branch (.next [.keyword .WITH]) withTail (.whenNext (.keyword .RETURN) returnClause))

/-- What is computed from the rules that spell more than they take. -/
structure LooseChecks : Prop where
  bounds : indexOrRangeBody.conforms calls none = true
  boundsForm : includes 0 (indexOrRangeBody.label calls (indexOrRangeBody.spelled calls none))
    (1 + boundsForm) = true
  brackets :
    includes 0 (.sign .leftBracket * Grammar.boundsForm * .sign .rightBracket) indexOrRangeForm = true
  tail : looseTail.reads calls (sortedTailForm + (Form.of .readingClause).star) = true
  closed :
    includes 0 ((Form.of .readingClause).star * Form.of .returnClause) sortedTailForm = true

theorem looseChecks : LooseChecks := by
  constructor <;> decide +kernel

/-- An index or a range, from the calls. -/
theorem listOperator_viable (hviable : ∀ leaf ∈ calls, leaf.Viable m) :
    Leaf.Viable m ⟨listOperator, indexOrRangeForm, [.anything]⟩ := by
  have hsound : ∀ leaf ∈ calls, leaf.Sound m := fun leaf hl => (calls_exact m leaf hl).sound
  -- a bracket, and what is to come between the brackets
  have hbrackets : ∀ {ks ks' : List Token}, Yields (.sign .leftBracket) ks →
      Completes (1 + Grammar.boundsForm) ks' → Completes indexOrRangeForm (ks ++ ks') := by
    intro ks ks' hopen hbody
    have hbounds := hbody.of_optional (Form.completes_nil (by decide))
    exact ((Completes.second hopen hbounds).first (.sign .rightBracket)).mono looseChecks.brackets
  refine ⟨Form.completes_nil (by decide), ?_⟩
  intro known us vs hbelow h
  have hlen := hbelow.1
  rcases (Fails.wrap_iff.mp h).seq_cases with failure | ⟨_, us, cs, rfl, hopen, failure⟩
  · obtain rfl := failure.eq_nil_of_token
    exact Form.completes_nil (by decide)
  · obtain ⟨o, rfl, ho, -⟩ := Run.token_iff.mp hopen
    have ho : Yields (.sign .leftBracket) [o.token] := Yields.token_iff.mpr ⟨_, rfl, ho⟩
    rw [List.length_append, List.length_singleton] at hlen
    rw [List.map_append]
    refine hbrackets ho ?_
    have hbody : Fails (.seq indexOrRangeBody (.sign .rightBracket)) us vs := failure.seq_assoc
    rcases hbody.seq_cases with failure | ⟨us, us', cs, rfl, run, failure⟩
    · have hbounds := failure.completes hsound hviable looseChecks.bounds (by decide)
        (.of_lt (by omega)) (Rule.holds_none _)
      exact hbounds.mono looseChecks.boundsForm
    · obtain rfl := failure.eq_nil_of_token
      rw [List.append_nil] at hlen ⊢
      have hbounds := run.yields hsound looseChecks.bounds (.of_lt (by omega)) (Rule.holds_none _)
      exact .of_yields (hbounds.mono looseChecks.boundsForm)

/-! ### Tails of queries -/

/-- A tail, from the calls. A part without a projection may get one. -/
theorem queryTail_viable (hviable : ∀ leaf ∈ calls, leaf.Viable m) :
    Leaf.Viable m ⟨queryTail, tailForm, afterQuery⟩ := by
  have hloose : Leaf.Viable m ⟨queryTail, sortedTailForm + (Form.of .readingClause).star,
      afterQuery⟩ :=
    .of_reads (fun leaf hl => (calls_exact m leaf hl).sound) hviable looseChecks.tail (by decide)
      fun _ _ h => h.seq_of_fork
  refine ⟨Form.completes_nil (by decide), ?_⟩
  intro known us vs hbelow h
  obtain ⟨ws, hw, hyields⟩ := hloose.completes hbelow h
  have htail : Completes sortedTailForm (us.map Lexeme.token) := by
    rcases Yields.add_iff.mp hyields with hsorted | hreading
    · exact ⟨ws, hw, hsorted⟩
    · obtain ⟨ks, hks, hreturn⟩ := Phrase.completes_nil .returnClause
      refine ⟨ws ++ ks, List.forall_mem_append.mpr ⟨hw, hks⟩, ?_⟩
      rw [← List.append_assoc]
      exact (hreading.mul hreturn).mono looseChecks.closed
  exact htail.imp fun _ => yields_sortedTailForm.mp

/-! ### All calls -/

theorem bracketed_viable (hviable : ∀ leaf ∈ calls, leaf.Viable m) :
    ∀ leaf ∈ bracketed, leaf.Viable m := by
  have hlist : Leaf.Viable m ⟨listLiteral, .of .listLiteral, [.anything]⟩ := by
    rw [listLiteral_eq]
    exact Leaf.viable_iff.mpr (enclosed_viable hviable bracketChecks.elements (by decide))
  have hmap : Leaf.Viable m ⟨mapLiteral, .of .mapLiteral, [.anything]⟩ := by
    rw [mapLiteral_eq]
    exact Leaf.viable_iff.mpr (enclosed_viable hviable bracketChecks.entries (by decide))
  refine List.forall_mem_append.mpr ⟨?_, hviable⟩
  refine List.forall_mem_cons.mpr ⟨hlist, List.forall_mem_cons.mpr ⟨hmap, ?_⟩⟩
  exact List.forall_mem_singleton.mpr (listOperator_viable hviable)

theorem sum_viable (hviable : ∀ leaf ∈ calls, leaf.Viable m) :
    Leaf.Viable m ⟨sum, .of .sum, afterSum⟩ := by
  have haccessed : Leaf.Viable m ⟨accessed, .of .accessed, afterOperand⟩ :=
    .of_reads (fun leaf hl => (bracketed_exact (calls_exact m) leaf hl).sound)
      (bracketed_viable hviable) atomChecks.accessed (by decide) fun _ _ h => h
  have hsound : ∀ leaf ∈ ⟨accessed, .of .accessed, afterOperand⟩ :: calls, leaf.Sound m :=
    List.forall_mem_cons.mpr ⟨(accessed_exact (calls_exact m)).sound,
      fun leaf hl => (calls_exact m leaf hl).sound⟩
  exact .of_reads hsound (List.forall_mem_cons.mpr ⟨haccessed, hviable⟩) chainChecks.reads
    (by decide) fun _ _ h => h

theorem leaves_viable (hviable : ∀ leaf ∈ calls, leaf.Viable m) :
    ∀ leaf ∈ leaves, leaf.Viable m :=
  List.forall_mem_cons.mpr ⟨queryTail_viable hviable,
    List.forall_mem_cons.mpr ⟨sum_viable hviable, bracketed_viable hviable⟩⟩

/-- A rule that is read off its text, down to the leaves. -/
theorem viable_of_reads (hviable : ∀ leaf ∈ calls, leaf.Viable m) {r : Rule} {f : Form}
    {follow : List Terminal} (hr : r.reads leaves f = true) (hw : r.writable = true) :
    Leaf.Viable m ⟨r, f, follow⟩ :=
  .of_reads (fun leaf hl => (leaves_exact (calls_exact m) leaf hl).sound) (leaves_viable hviable)
    hr hw fun _ _ h => h

end Grammar

theorem Rule.reads_of_realizes {leaves : List Leaf} {r : Rule} {f : Form} {follow : List Terminal}
    (h : r.realizes leaves f follow = true) : r.reads leaves f = true := by
  rw [realizes, Bool.and_eq_true, Bool.and_eq_true] at h
  exact h.1.1

/-- A call takes fewer lexemes than there may be, as it stands behind one. -/
theorem Leaf.Viable.call {n : Nonterminal} {f : Form} {follow : List Terminal}
    (hf : Completes f [])
    (h : ∀ k < m, Leaf.Viable k ⟨Grammar.production n, f, follow⟩) :
    Leaf.Viable m ⟨.call n, f, follow⟩ := by
  refine ⟨hf, fun {known us vs} hbelow failure => ?_⟩
  have hproduction : (Grammar.production n).Below us.length none us :=
    .of_le (Nat.le_refl _) (by rw [Grammar.callsFirst_production]; rfl)
  cases failure with
  | call failure => exact (h _ (hbelow.2 rfl)).completes hproduction failure

/-- **What a rule that is called by name has taken before it fails can be completed.** -/
theorem Grammar.calls_viable (m : Nat) : ∀ leaf ∈ calls, leaf.Viable m := by
  induction m using Nat.strong_induction_on with
  | h m ih =>
      have hcall : ∀ {n : Nonterminal} {p : Phrase} {follow : List Terminal},
          (production n).reads leaves (.of p) = true → (production n).writable = true →
          Leaf.Viable m ⟨.call n, .of p, follow⟩ :=
        fun {n p follow} hr hw =>
          .call p.completes_nil fun k hk => viable_of_reads (ih k hk) hr hw
      have hunary : ∀ k < m, Leaf.Viable k
          ⟨unary, (Form.token signs).star * .of .predicate, []⟩ := fun k hk =>
        Leaf.viable_iff.mp (viable_of_reads (ih k hk) queryChecks.unary (by decide))
      simp only [calls, List.forall_mem_cons]
      exact ⟨hcall (Rule.reads_of_realizes queryChecks.singleQuery) (by decide),
        .call (Form.completes_nil (by decide)) fun k hk => queryTail_viable (ih k hk),
        hcall (Rule.reads_of_realizes queryChecks.patternElement) (by decide),
        hcall (Rule.reads_of_realizes queryChecks.expression) (by decide),
        hcall (Rule.reads_of_realizes queryChecks.comparison) (by decide),
        .call (Phrase.completes_nil .sum) fun k hk => sum_viable (ih k hk),
        .call (Form.completes_nil (by decide)) hunary, List.forall_mem_nil _⟩

/-- What the rule for a whole text has taken before it fails can be completed. -/
theorem Grammar.completes_cypher (h : Fails cypher us vs) :
    Completes (.of .cypher) (us.map Lexeme.token) := by
  have hviable : Leaf.Viable us.length ⟨cypher, .of .cypher, [.ending]⟩ :=
    viable_of_reads (calls_viable _) (Rule.reads_of_realizes queryChecks.cypher) (by decide)
  exact hviable.completes (.of_le (Nat.le_refl _) (by decide)) h

end

/-! ### Errors -/

section

variable {source : String} {ls us : List Lexeme} {e : Expectation} {l : Lexeme}

/-- An error is about the lexeme in front of which the rule for a whole text fails. -/
theorem fails_of_parse_error (h : parse source = .error (.unexpected e l)) :
    ∃ before after, tokenize source = .ok (before ++ l :: after) ∧
      Fails Grammar.cypher before (l :: after) := by
  cases hls : tokenize source with
  | error x =>
      rw [parse, Session.ofString, hls] at h
      cases h
  | ok ls =>
      cases houtcome : Grammar.cypher.parse ls with
      | done ns taken rest =>
          obtain ⟨t, ht⟩ := parse_ok_of_done hls houtcome
          rw [h] at ht
          cases ht
      | failed e' rest =>
          obtain ⟨before, found, after, rfl, rfl, herror⟩ := parse_error_of_failed hls houtcome
          rw [h, Except.error.injEq] at herror
          obtain ⟨-, rfl⟩ := ParseError.unexpected.inj herror
          obtain ⟨us, hsplit, failure⟩ := Fails.of_parse (by decide) houtcome
          obtain rfl := List.append_cancel_right hsplit
          exact ⟨before, after, rfl, failure⟩

/-- What an error found is the end of the text only if that is what is there. -/
theorem ParseError.foundText_eq_end_iff : foundText l = "end of input" ↔ l.token = .eof := by
  rw [foundText]
  split
  · next heof => exact iff_of_true rfl heof
  · next hne =>
      refine iff_of_false (fun h => ?_) hne
      have hhead := congrArg (fun s => s.toList.head?) h
      simp at hhead

/-- Lexemes that are parsed, from the first one to the end, and can be written down. -/
structure FormQuery (ls : List Lexeme) : Prop where
  parsed : ∃ t, (Session.query ⟨ls⟩).1 = .ok t
  written : ∃ source vs t, tokenize source = .ok vs ∧
    vs.map Lexeme.content = ls.map Lexeme.content ∧ parse source = .ok t

/-- What the grammar derives is parsed, also as a text. -/
theorem FormQuery.of_yields {p : Position} (hw : ∀ u ∈ us, u.Written)
    (h : Yields (.of .cypher) (us.map Lexeme.token)) : FormQuery (us ++ [Lexeme.ending p]) := by
  obtain ⟨cs, run⟩ := Grammar.accepts_cypher_iff (p := p) |>.mpr h
  obtain ⟨vs, q, hread, hcontent⟩ := tokenize_join hw (run.isChain Grammar.apart_cypher)
  have htokens : vs.map Lexeme.token = us.map Lexeme.token := by
    have hfirst := congrArg (List.map Prod.fst) hcontent
    rwa [List.map_map, List.map_map] at hfirst
  obtain ⟨t, ht⟩ := (parse_iff_accepts hread).mpr (Grammar.accepts_cypher_iff.mpr (htokens ▸ h))
  obtain ⟨⟨c, rfl, -⟩, -⟩ := run.of_cypher
  refine ⟨⟨_, Session.request_eq_ok.mpr ⟨_, _, _, run.parse_cypher⟩⟩, _, _, t, hread, ?_, ht⟩
  rw [List.map_append, List.map_append, hcontent]
  rfl

/-- Behind lexemes that can be completed stand others with which they are parsed. -/
theorem Completes.exists_formQuery (hw : ∀ u ∈ us, u.Written)
    (h : Completes (.of .cypher) (us.map Lexeme.token)) : ∃ ls, us <+: ls ∧ FormQuery ls := by
  obtain ⟨ks, hks, hyields⟩ := h
  choose text htext using hks
  -- the completing tokens, as lexemes anywhere
  let ws := ks.attach.map fun k => Lexeme.mk k.1 (text k.1 k.2) Position.start
  have hws : ∀ w ∈ us ++ ws, w.Written :=
    List.forall_mem_append.mpr ⟨hw, List.forall_mem_map.mpr fun k _ => htext k.1 k.2 _⟩
  have htokens : (us ++ ws).map Lexeme.token = us.map Lexeme.token ++ ks := by
    rw [List.map_append, List.map_map]
    exact congrArg _ ks.attach_map_subtype_val
  have hform : FormQuery (us ++ ws ++ [Lexeme.ending Position.start]) :=
    .of_yields hws (htokens ▸ hyields)
  exact ⟨_, ⟨ws ++ [Lexeme.ending Position.start], (List.append_assoc _ _ _).symm⟩, hform⟩

/-- In front of a lexeme of a text there are no lexemes but written ones. -/
theorem written_of_before {before after : List Lexeme}
    (h : tokenize source = .ok (before ++ l :: after)) : ∀ u ∈ before, u.Written := by
  obtain ⟨us, p, hus, hw⟩ := tokenize_ok h
  have hprefix : before <+: us ++ [Lexeme.ending p] := ⟨l :: after, hus⟩
  rcases List.prefix_concat_iff.mp hprefix with rfl | hbefore
  · simp at hus
  · exact fun u hu => hw u (hbefore.subset hu)

theorem parse_eq_error {x : ParseError} (h : (parse source).map (fun _ => ()) = .error x) :
    parse source = .error x := by
  cases hparse : parse source with
  | ok t =>
      rw [hparse] at h
      cases h
  | error y =>
      rw [hparse] at h
      exact congrArg Except.error (Except.error.inj h)

/-- **No error is reported too late.** An error is about a lexeme of the text, with the place of
this lexeme and its text between apostrophes, or `end of input` at the end; and the lexemes in front
of it are the first ones of a query. -/
theorem parse_error_viable (h : parse source = .error (.unexpected e l)) :
    (ParseError.unexpected e l).position = l.position ∧
      (ParseError.foundText l = "end of input" ↔ l.token = .eof) ∧
      (l.token ≠ .eof → ParseError.foundText l = "'" ++ l.text ++ "'") ∧
      ∃ before after, tokenize source = .ok (before ++ l :: after) ∧
        ∃ ls, before <+: ls ∧ FormQuery ls := by
  obtain ⟨before, after, hls, failure⟩ := fails_of_parse_error h
  have hwritten : ∀ u ∈ before, u.Written := written_of_before hls
  exact ⟨rfl, ParseError.foundText_eq_end_iff, fun hne => if_neg hne, before, after, hls,
    (Grammar.completes_cypher failure).exists_formQuery hwritten⟩

/-- Behind the argument of a function the closing bracket is missing, and the text is at its end or
goes on with another name: the lexemes up to there are the first ones of a query. -/
theorem parse_error_viable_of_function :
    (∃ e, parse "CALL p(1) RETURN f(a" = .error (.unexpected e (.ending ⟨1, 20⟩)) ∧
      ParseError.foundText (.ending ⟨1, 20⟩) = "end of input" ∧
        ∃ before after,
          tokenize "CALL p(1) RETURN f(a" = .ok (before ++ Lexeme.ending ⟨1, 20⟩ :: after) ∧
          ∃ ls, before <+: ls ∧ FormQuery ls) ∧
      ∃ e, parse "CALL p(1) RETURN f(a b" =
          .error (.unexpected e ⟨.identifier "b", "b", ⟨1, 21⟩⟩) ∧
        ParseError.foundText ⟨.identifier "b", "b", ⟨1, 21⟩⟩ = "'b'" ∧
          ∃ before after,
            tokenize "CALL p(1) RETURN f(a b" =
              .ok (before ++ ⟨.identifier "b", "b", ⟨1, 21⟩⟩ :: after) ∧
            ∃ ls, before <+: ls ∧ FormQuery ls := by
  have hending : parse "CALL p(1) RETURN f(a" =
      .error (.unexpected (.terminal (.symbol .rightParen)) (.ending ⟨1, 20⟩)) :=
    parse_eq_error (by decide +kernel)
  have hname : parse "CALL p(1) RETURN f(a b" = .error (.unexpected
      (.terminal (.symbol .rightParen)) ⟨.identifier "b", "b", ⟨1, 21⟩⟩) :=
    parse_eq_error (by decide +kernel)
  obtain ⟨-, hend, -, hviable⟩ := parse_error_viable hending
  obtain ⟨-, -, hfound, hviable'⟩ := parse_error_viable hname
  exact ⟨⟨_, hending, hend.mpr rfl, hviable⟩, _, hname, hfound (by decide), hviable'⟩

end

end BindCheck

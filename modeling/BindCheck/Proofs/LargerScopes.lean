import BindCheck.Proofs.Normalization
import BindCheck.Proofs.Sequencing
import Mathlib.Data.List.Flatten

/-!
# BindCheck.Proofs.LargerScopes

**Binding more names never adds a finding.** The check of a list of references can only
shrink, but a larger scope also changes the list: an expression whose text is bound there is
one reference, and what it reads is not looked at. Nothing is lost by that, for the one
reference is to a bound name, so it has no finding. Hence in a part of a query the findings in
the larger scope are a sublist of those in the smaller one (`Tree.check_referencing_sublist`).

A clause keeps two scopes in the same order: it starts both over or neither, and adds the same
names to both (`Tree.scopeBehind_within`). So the two orders go through a run of clauses
together.
-/

namespace BindCheck

/-! ### Scopes in order -/

namespace Scope

/-- That every name of a scope is bound in another. -/
def Within (s s' : Scope) : Prop := ∀ x, s.binds x = true → s'.binds x = true

theorem Within.refl (s : Scope) : s.Within s := fun _ h => h

theorem within_add (s : Scope) (vs : List Variable) : s.Within (s.add vs) :=
  fun _ h => binds_add.mpr (.inl h)

variable {s s' : Scope}

theorem Within.add (h : s.Within s') (vs : List Variable) : (s.add vs).Within (s'.add vs) := by
  intro x hx
  rcases binds_add.mp hx with hx | hx
  · exact binds_add.mpr (.inl (h x hx))
  · exact binds_add.mpr (.inr hx)

theorem Within.check_sublist (h : s.Within s') (vs : List Variable) :
    (s'.check vs).Sublist (s.check vs) := by
  have hunbound : (s'.unbound vs).Sublist (s.unbound vs) := by
    apply List.monotone_filter_right
    intro v hv
    rw [Bool.not_eq_true', Bool.eq_false_iff] at hv ⊢
    exact mt (h v.name) hv
  exact hunbound.map _

end Scope

namespace Tree

section

variable {s s' : Scope}

/-! ### Parts of a query -/

theorem isReference_of_within (h : s.Within s') {t : Tree} (ht : t.isReference s = true) :
    t.isReference s' = true := by
  simp only [isReference, Bool.or_eq_true, Bool.and_eq_true] at ht ⊢
  exact ht.imp_right fun hcolumn => ⟨hcolumn.1, h _ hcolumn.2⟩

/-- What is a reference in the larger scope alone is an expression that is bound there. -/
theorem binds_of_isReference {t : Tree} (ht : ¬t.isReference s = true)
    (ht' : t.isReference s' = true) : s'.binds t.text = true := by
  simp only [isReference, Bool.or_eq_true, Bool.and_eq_true] at ht ht'
  rcases ht' with hvariable | hcolumn
  · exact absurd (Or.inl hvariable) ht
  · exact hcolumn.2

/-- A node where the walk stops or goes on, by whether it is a reference. -/
theorem check_reference_sublist (h : s.Within s') (t : Tree)
    (hbelow : (s'.check (referencingAll s' t.children)).Sublist
      (s.check (referencingAll s t.children))) :
    (s'.check (if t.isReference s' then [⟨t.text, t.position⟩]
        else referencingAll s' t.children)).Sublist
      (s.check (if t.isReference s then [⟨t.text, t.position⟩]
        else referencingAll s t.children)) := by
  by_cases ht : t.isReference s = true
  · rw [if_pos ht, if_pos (isReference_of_within h ht)]
    exact h.check_sublist _
  · rw [if_neg ht]
    by_cases ht' : t.isReference s' = true
    · -- the larger scope binds the whole expression, and what was found below is gone
      rw [if_pos ht', Scope.check_of_binds (binds_of_isReference ht ht')]
      exact List.nil_sublist _
    · rw [if_neg ht']
      exact hbelow

mutual

/-- **What is found in a part of a query gets no more in a larger scope.** -/
theorem check_referencing_sublist (h : s.Within s') : ∀ t : Tree,
    (s'.check (t.referencing s')).Sublist (s.check (t.referencing s))
  | ⟨k, x, p, cs⟩ => by
      cases k
      case projectionItem | unwindClause => exact check_referencingExpression_sublist h cs
      case yieldItem => exact List.Sublist.refl _
      all_goals
        simp only [referencing]
        exact check_reference_sublist h ⟨_, x, p, cs⟩ (check_referencingAll_sublist h cs)

theorem check_referencingExpression_sublist (h : s.Within s') : ∀ cs : List Tree,
    (s'.check (referencingExpression s' cs)).Sublist (s.check (referencingExpression s cs))
  | [] => List.Sublist.refl _
  | c :: cs => by
      by_cases hc : c.is .expression = true
      · simp only [referencingExpression, if_pos hc]
        exact check_referencing_sublist h c
      · simp only [referencingExpression, if_neg hc]
        exact check_referencingExpression_sublist h cs

theorem check_referencingAll_sublist (h : s.Within s') : ∀ cs : List Tree,
    (s'.check (referencingAll s' cs)).Sublist (s.check (referencingAll s cs))
  | [] => List.Sublist.refl _
  | c :: cs => by
      rw [referencingAll, referencingAll, Scope.check_append, Scope.check_append]
      exact (check_referencing_sublist h c).append (check_referencingAll_sublist h cs)

end

theorem check_referencingChild_sublist (h : s.Within s') (t : Tree) (k : NodeKind) :
    (s'.check (t.referencingChild s' k)).Sublist (s.check (t.referencingChild s k)) := by
  unfold referencingChild
  cases t.child? k with
  | none => exact List.Sublist.refl _
  | some c => exact check_referencing_sublist h c

/-! ### Clauses -/

/-- The new columns come to both scopes, so the modifiers too are read in scopes in order. -/
theorem foundInBody_sublist (h : s.Within s') (body : Tree) :
    (body.foundInBody s').Sublist (body.foundInBody s) :=
  (check_referencingChild_sublist h body .projectionItems).append
    (List.Sublist.flatMap_right _ fun m _ => check_referencing_sublist (h.add body.columns) m)

theorem found_sublist (h : s.Within s') (c : Tree) : (c.found s').Sublist (c.found s) := by
  unfold found
  split
  case h_1 | h_2 => exact check_referencingChild_sublist h c _
  case h_3 | h_4 | h_5 => exact check_referencing_sublist h c
  case h_6 | h_7 =>
    cases c.child? .projectionBody with
    | none => exact List.Sublist.refl _
    | some body => exact foundInBody_sublist h body
  case h_8 => exact List.Sublist.refl _

theorem scopeBehind_within (h : s.Within s') (c : Tree) :
    (c.scopeBehind s).Within (c.scopeBehind s') := by
  unfold scopeBehind
  cases c.startsOver with
  | true => exact Scope.Within.refl _
  | false => exact h.add c.bound

/-- A run of clauses adds no more in a larger scope, and leaves a larger scope again. -/
theorem effects_of_within (h : s.Within s') (cs : List Tree) :
    (effects s' cs).found.Sublist (effects s cs).found ∧
      (effects s cs).scope.Within (effects s' cs).scope := by
  induction cs generalizing s s' with
  | nil => exact ⟨List.Sublist.refl _, h⟩
  | cons c cs ih =>
      obtain ⟨hfound, hscope⟩ := ih (scopeBehind_within h c)
      exact ⟨(found_sublist h c).append hfound, hscope⟩

end

/-! ### Queries -/

/-- **Binding more names before a query adds no finding**: what the query then adds is a
sublist of what it adds without them, and it leaves no fewer names bound. -/
theorem resolveQuery_sublist {s s' : State} (h : s.scope.Within s'.scope) (q : Tree) :
    ∃ found found',
      (q.resolveQuery s).1.diagnostics = s.diagnostics ++ found ∧
      (q.resolveQuery s').1.diagnostics = s'.diagnostics ++ found' ∧
      found'.Sublist found ∧
      (q.resolveQuery s).1.scope.Within (q.resolveQuery s').1.scope := by
  obtain ⟨hfound, hscope⟩ := effects_of_within h (stepsAll q.children)
  rw [resolveQuery_eq, resolveQuery_eq]
  exact ⟨_, _, rfl, rfl, hfound, hscope⟩

/-- A bound column hides the variable in it; a name that neither scope binds is found in both
runs. -/
theorem resolveQuery_sublist_of_column :
    ∃ t q, parse "RETURN count(n), m, k" = .ok t ∧ t.firstQuery? = some q ∧
      ∃ s s' : State, s.scope.names = ["m"] ∧ s'.scope.names = ["m", "count(n)"] ∧
        (q.resolveQuery s).1.diagnostics =
          [⟨.undefinedVariable, "n", ⟨1, 13⟩⟩, ⟨.undefinedVariable, "k", ⟨1, 20⟩⟩] ∧
        (q.resolveQuery s').1.diagnostics = [⟨.undefinedVariable, "k", ⟨1, 20⟩⟩] ∧
        (q.resolveQuery s').1.diagnostics.Sublist (q.resolveQuery s).1.diagnostics := by
  obtain ⟨t, ht, hruns⟩ : ∃ t, parse "RETURN count(n), m, k" = .ok t ∧
      t.firstQuery?.map (fun q =>
        ((q.resolveQuery ⟨Scope.empty.add [⟨"m", ⟨1, 0⟩⟩], []⟩).1.diagnostics,
          (q.resolveQuery ⟨(Scope.empty.add [⟨"m", ⟨1, 0⟩⟩]).add [⟨"count(n)", ⟨1, 0⟩⟩],
            []⟩).1.diagnostics)) =
        some ([⟨.undefinedVariable, "n", ⟨1, 13⟩⟩, ⟨.undefinedVariable, "k", ⟨1, 20⟩⟩],
          [⟨.undefinedVariable, "k", ⟨1, 20⟩⟩]) :=
    exists_parse_eq_ok (by decide +kernel)
  obtain ⟨q, hq, hruns⟩ := Option.map_eq_some_iff.mp hruns
  obtain ⟨hfew, hmany⟩ := Prod.mk.inj hruns
  have hwithin : (State.mk (Scope.empty.add [⟨"m", ⟨1, 0⟩⟩]) []).scope.Within
      (State.mk ((Scope.empty.add [⟨"m", ⟨1, 0⟩⟩]).add [⟨"count(n)", ⟨1, 0⟩⟩]) []).scope :=
    Scope.within_add _ _
  obtain ⟨found, found', hfound, hfound', hsub, -⟩ := resolveQuery_sublist hwithin q
  rw [← List.nil_append found, ← List.nil_append found', ← hfound, ← hfound'] at hsub
  exact ⟨t, q, ht, hq, _, _, rfl, rfl, hfew, hmany, hsub⟩

end Tree

end BindCheck

import BindCheck.Proofs.ScopeHistory

/-!
# BindCheck.Proofs.Sequencing

**A query does what its clauses do one after another**, and what it does depends on the scope
alone. Resolving a clause leaves a scope, adds findings to those there are, and counts what it
has added. An `Effect` holds the scope and the added findings; so the count cannot drift from
the list, and nothing can hang on what was found before.

* `Tree.found` says what each clause adds, as `Tree.scopeBehind` says what scope it leaves;
  `adds_resolveSimple` is where the forms of clauses are told apart.
* `effects` follows a run of clauses, and `resolveQuery_eq` reads a query as such a run.
* `inTurn_flattenAll`: queries within a query may be opened before they are resolved. So a query
  is also resolved by resolving each of its clauses as a query of its own.
-/

namespace BindCheck

/-! ### Effects -/

/-- What resolving does from some scope: the scope that it leaves, and the findings that it
adds. -/
structure Effect where
  scope : Scope
  found : List Diagnostic

/-- The state behind an effect, where some findings were there before, and the count. -/
def Effect.on (e : Effect) (before : List Diagnostic) : State × Nat :=
  (⟨e.scope, before ++ e.found⟩, e.found.length)

/-- That findings are added to those of a state, and counted. -/
def State.Adds (s : State) (found : List Diagnostic) (r : State × Nat) : Prop :=
  r.1.diagnostics = s.diagnostics ++ found ∧ r.2 = found.length

theorem State.adds_nil (s : State) : s.Adds [] (s, 0) := ⟨(List.append_nil _).symm, rfl⟩

/-! ### Checks -/

namespace Scope

theorem check_append (s : Scope) (vs ws : List Variable) :
    s.check (vs ++ ws) = s.check vs ++ s.check ws := by
  rw [check, unbound, List.filter_append, List.map_append]
  rfl

theorem check_of_binds {s : Scope} {v : Variable} (h : s.binds v.name = true) :
    s.check [v] = [] := by
  simp [check, unbound, h]

theorem check_of_not_binds {s : Scope} {v : Variable} (h : ¬s.binds v.name = true) :
    s.check [v] = [⟨.undefinedVariable, v.name, v.position⟩] := by
  simp [check, unbound, h]

/-- What a check finds are names that are not bound. -/
theorem kind_of_mem_check {s : Scope} {vs : List Variable} :
    ∀ d ∈ s.check vs, d.kind = .undefinedVariable := by
  intro d hd
  obtain ⟨v, -, rfl⟩ := List.mem_map.mp hd
  rfl

end Scope

namespace Tree

/-! ### What one clause adds to the findings -/

/-- The findings of a projection: about its columns in the scope before it, and about its
modifiers in that scope and the new columns. -/
def foundInBody (body : Tree) (scope : Scope) : List Diagnostic :=
  scope.check (body.projectionInputs scope) ++
    (body.children.filter isModifier).flatMap fun m =>
      (scope.add body.columns).check (m.referencing (scope.add body.columns))

/-- The findings of a clause. -/
def found (c : Tree) (scope : Scope) : List Diagnostic :=
  match c.kind with
  | .unwindClause => scope.check (c.referencingChild scope .expression)
  | .inQueryCall => scope.check (c.referencingChild scope .procedureInvocation)
  | .setClause | .deleteClause | .removeClause => scope.check (c.referencing scope)
  | .withClause | .returnClause =>
    match c.child? .projectionBody with
    | some body => body.foundInBody scope
    | none => []
  | _ => []

theorem adds_lookUpModifiers (visible : Scope) (ms : List Tree) (s : State) :
    s.Adds (ms.flatMap fun m => visible.check (m.referencing visible))
      (lookUpModifiers visible ms s) := by
  induction ms generalizing s with
  | nil => exact s.adds_nil
  | cons m ms ih =>
      obtain ⟨hdiagnostics, hcount⟩ := ih (s.lookUp visible (m.referencing visible)).1
      rw [List.flatMap_cons]
      constructor
      · rw [← List.append_assoc]
        exact hdiagnostics
      · rw [List.length_append, ← hcount]
        rfl

theorem adds_resolveProjectionBody (body : Tree) (s : State) :
    s.Adds (body.foundInBody s.scope) (body.resolveProjectionBody s) := by
  have hcolumns : ((body.child? .projectionItems).map defining).getD [] = body.columns := by
    unfold columns
    cases body.child? .projectionItems <;> rfl
  obtain ⟨hdiagnostics, hcount⟩ := adds_lookUpModifiers (s.scope.add body.columns)
    (body.children.filter isModifier) (s.check (body.projectionInputs s.scope)).1
  unfold resolveProjectionBody foundInBody
  simp only [hcolumns]
  constructor
  · rw [← List.append_assoc]
    exact hdiagnostics
  · rw [List.length_append, ← hcount]
    rfl

theorem adds_resolveProjection (c : Tree) (s : State)
    (hk : c.kind = .withClause ∨ c.kind = .returnClause) :
    s.Adds (c.found s.scope) (c.resolveProjection s) := by
  have hfound : c.found s.scope = match c.child? .projectionBody with
      | some body => body.foundInBody s.scope
      | none => [] := by
    rcases hk with hk | hk <;> simp only [found, hk]
  rw [hfound, resolveProjection]
  cases c.child? .projectionBody with
  | none => exact s.adds_nil
  | some body => exact adds_resolveProjectionBody body s

theorem adds_resolveSimple (c : Tree) (s : State) :
    s.Adds (c.found s.scope) (c.resolveSimple s) := by
  unfold resolveSimple
  split
  case h_1 hk | h_2 hk => simp only [found, hk]; exact s.adds_nil
  case h_3 hk => simp only [found, hk]; exact ⟨rfl, rfl⟩
  case h_4 hk =>
    simp only [found, hk, resolveCall]
    cases c.child? .yieldItems <;> exact ⟨rfl, rfl⟩
  case h_5 hk | h_6 hk | h_7 hk => simp only [found, hk]; exact ⟨rfl, rfl⟩
  case h_8 hk => exact adds_resolveProjection c s (.inl hk)
  case h_9 hk => exact adds_resolveProjection c s (.inr hk)
  case h_10 =>
    have hnone : c.found s.scope = [] := by unfold found; split <;> simp_all
    rw [hnone]
    exact s.adds_nil

/-- What a clause does. -/
def effect (c : Tree) (scope : Scope) : Effect := ⟨c.scopeBehind scope, c.found scope⟩

/-- **What one clause does to a state.** -/
theorem resolveSimple_eq (c : Tree) (s : State) :
    c.resolveSimple s = (c.effect s.scope).on s.diagnostics := by
  obtain ⟨hdiagnostics, hcount⟩ := adds_resolveSimple c s
  have hscope : (c.resolveSimple s).1.scope = c.scopeBehind s.scope := scope_after c s
  rw [Effect.on, effect, ← hscope, ← hdiagnostics, ← hcount]

theorem kind_of_mem_found {c : Tree} {scope : Scope} :
    ∀ d ∈ c.found scope, d.kind = .undefinedVariable := by
  unfold found
  split
  case h_6 | h_7 =>
    cases c.child? .projectionBody with
    | none => exact fun d hd => absurd hd List.not_mem_nil
    | some body =>
        intro d hd
        rcases List.mem_append.mp hd with hd | hd
        · exact Scope.kind_of_mem_check d hd
        · obtain ⟨m, -, hd⟩ := List.mem_flatMap.mp hd
          exact Scope.kind_of_mem_check d hd
  case h_8 => exact fun d hd => absurd hd List.not_mem_nil
  all_goals exact Scope.kind_of_mem_check

/-! ### What a run of clauses does -/

/-- What clauses in a row do: each starts from the scope that the one before it leaves. -/
def effects (scope : Scope) : List Tree → Effect
  | [] => ⟨scope, []⟩
  | c :: cs =>
    let e := effects (c.scopeBehind scope) cs
    ⟨e.scope, c.found scope ++ e.found⟩

theorem kind_of_mem_effects {cs : List Tree} {scope : Scope} :
    ∀ d ∈ (effects scope cs).found, d.kind = .undefinedVariable := by
  induction cs generalizing scope with
  | nil => exact fun d hd => absurd hd List.not_mem_nil
  | cons c cs ih =>
      intro d hd
      rcases List.mem_append.mp hd with hd | hd
      · exact kind_of_mem_found d hd
      · exact ih d hd

theorem inTurn_eq_effects (cs : List Tree) (s : State) :
    inTurn resolveSimple cs s = (effects s.scope cs).on s.diagnostics := by
  induction cs generalizing s with
  | nil => simp [inTurn, effects, Effect.on]
  | cons c cs ih =>
      simp only [inTurn, resolveSimple_eq, ih, effects, effect, Effect.on, List.append_assoc,
        List.length_append]

/-- **What a query does to a state**: what its clauses do in a row. -/
theorem resolveQuery_eq (q : Tree) (s : State) :
    q.resolveQuery s = (effects s.scope (stepsAll q.children)).on s.diagnostics := by
  rw [resolveQuery, resolveClauses_eq_inTurn, inTurn_eq_effects]

/-! ### Clauses as queries of their own -/

mutual

theorem inTurn_flatten : ∀ (t : Tree) (s : State),
    inTurn resolveClause t.flatten s = t.resolveClause s
  | ⟨k, x, p, cs⟩, s => by
      cases k
      case singlePartQuery | multiPartQuery => exact inTurn_flattenAll cs s
      all_goals rfl

/-- Queries within a query may be opened before they are resolved. -/
theorem inTurn_flattenAll : ∀ (cs : List Tree) (s : State),
    inTurn resolveClause (flattenAll cs) s = resolveClauses cs s
  | [], _ => rfl
  | c :: cs, s => by
      rw [flattenAll, inTurn_append, resolveClauses]
      simp only [inTurn_flatten c, inTurn_flattenAll cs]

end

/-- A query of a single clause resolves that clause. -/
theorem resolveQuery_ofClause (c : Tree) (s : State) :
    c.ofClause.resolveQuery s = c.resolveClause s := rfl

theorem inTurn_map_ofClause (cs : List Tree) (s : State) :
    inTurn resolveQuery (cs.map ofClause) s = inTurn resolveClause cs s := by
  induction cs generalizing s with
  | nil => rfl
  | cons c cs ih => simp only [List.map_cons, inTurn, resolveQuery_ofClause, ih]

/-- **A query is its clauses, resolved one after another as queries of their own**: they leave
the same state and count as much. From each scope there are findings that a query adds to
whatever was found before, which it counts, and which are about names that are not bound. -/
theorem resolveQuery_eq_inTurn (q : Tree) (scope : Scope) :
    (∀ ds, q.resolveQuery ⟨scope, ds⟩ =
      inTurn resolveQuery (q.clauses.map ofClause) ⟨scope, ds⟩) ∧
      ∃ (behind : Scope) (found : List Diagnostic),
        (∀ ds, q.resolveQuery ⟨scope, ds⟩ = (⟨behind, ds ++ found⟩, found.length)) ∧
          ∀ d ∈ found, d.kind = .undefinedVariable := by
  constructor
  · intro ds
    rw [inTurn_map_ofClause, clauses, inTurn_flattenAll]
    rfl
  · let e := effects scope (stepsAll q.children)
    exact ⟨e.scope, e.found, fun ds => q.resolveQuery_eq ⟨scope, ds⟩, kind_of_mem_effects⟩

end Tree

end BindCheck

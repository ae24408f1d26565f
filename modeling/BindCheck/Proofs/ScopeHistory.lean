import BindCheck.Resolver

/-!
# BindCheck.Proofs.ScopeHistory

**The scope behind a query in closed form.** Resolving threads one scope through the
clauses: each clause adds names to it, and a projection without `*` starts it over. So
only the clauses from the last such projection on count, and of what they bind only the
first variable of each name.

* `Tree.steps` lists the clauses in the order in which they are resolved, with wrappers
  and nested queries opened (`resolveClauses_eq_inTurn`).
* `Tree.bound` and `Tree.startsOver` say what one clause does to the scope
  (`Tree.scopeBehind`); `scope_after` is the only place where the clause forms are told apart.
* `bindings_foldl_resolveSimple` follows a run of clauses by induction.
-/

namespace BindCheck

/-! ### The first variable of each name -/

/-- The first variable of each name, in order. -/
def firstPerName : List Variable → List Variable
  | [] => []
  | v :: vs => v :: (firstPerName vs).filter (·.name != v.name)

theorem mem_names_firstPerName {vs : List Variable} {x : String} :
    x ∈ (firstPerName vs).map Variable.name ↔ x ∈ vs.map Variable.name := by
  induction vs with
  | nil => simp [firstPerName]
  | cons v vs ih =>
      by_cases hx : x = v.name
      · simp [firstPerName, hx]
      · have hf : x ∈ ((firstPerName vs).filter (·.name != v.name)).map Variable.name ↔
            x ∈ (firstPerName vs).map Variable.name := by
          simp only [List.mem_map, List.mem_filter, bne_iff_ne, ne_eq]
          constructor
          · intro h
            obtain ⟨w, ⟨hw, -⟩, rfl⟩ := h
            exact ⟨w, hw, rfl⟩
          · intro h
            obtain ⟨w, hw, rfl⟩ := h
            exact ⟨w, ⟨hw, hx⟩, rfl⟩
        simp only [firstPerName, List.map_cons, List.mem_cons, hx, false_or]
        rw [hf, ih]

/-- A list without repeated names keeps all its variables. -/
theorem firstPerName_of_nodup {vs : List Variable} (h : (vs.map Variable.name).Nodup) :
    firstPerName vs = vs := by
  induction vs with
  | nil => rfl
  | cons v vs ih =>
      obtain ⟨hv, hvs⟩ := List.nodup_cons.mp h
      rw [firstPerName, ih hvs, List.filter_eq_self.mpr]
      intro w hw
      rw [bne_iff_ne]
      intro heq
      exact hv (heq ▸ List.mem_map_of_mem hw)

/-- Of a second list, what counts are the names that the first does not have. -/
theorem firstPerName_append (vs ws : List Variable) :
    firstPerName (vs ++ ws) =
      firstPerName vs ++
        (firstPerName ws).filter fun w => decide (w.name ∉ vs.map Variable.name) := by
  induction vs with
  | nil =>
      rw [List.filter_eq_self.mpr]
      · rfl
      · simp
  | cons v vs ih =>
      rw [List.cons_append, firstPerName, ih, List.filter_append, List.filter_filter, firstPerName,
        List.cons_append]
      congr 3
      funext w
      by_cases hw : w.name = v.name <;> simp [hw]

theorem nodup_names_firstPerName (vs : List Variable) :
    ((firstPerName vs).map Variable.name).Nodup := by
  induction vs with
  | nil => exact List.nodup_nil
  | cons v vs ih =>
      rw [firstPerName, List.map_cons, List.nodup_cons]
      exact ⟨by simp, (List.filter_sublist.map Variable.name).nodup ih⟩

theorem firstPerName_append_left (vs ws : List Variable) :
    firstPerName (firstPerName vs ++ ws) = firstPerName (vs ++ ws) := by
  have hvs : firstPerName (firstPerName vs) = firstPerName vs :=
    firstPerName_of_nodup (nodup_names_firstPerName vs)
  rw [firstPerName_append, firstPerName_append vs, hvs]
  simp only [mem_names_firstPerName]

namespace Scope

@[simp] theorem firstPerName_bindings (s : Scope) : firstPerName s.bindings = s.bindings :=
  firstPerName_of_nodup s.nodup

theorem bindings_insert (s : Scope) (v : Variable) :
    (s.insert v).bindings = firstPerName (s.bindings ++ [v]) := by
  have hv : v.name ∈ s.bindings.map Variable.name ↔ s.binds v.name = true := binds_iff.symm
  rw [firstPerName_append, s.firstPerName_bindings]
  by_cases h : s.binds v.name = true <;>
    simp only [insert, h, firstPerName, hv, List.filter_nil, List.filter_cons, not_true_eq_false,
      not_false_eq_true, decide_true, decide_false, dif_pos, dif_neg, if_true, if_false,
      Bool.false_eq_true, List.append_nil]

/-- Binding names adds the first variable of each name that is new. -/
theorem bindings_add (s : Scope) (vs : List Variable) :
    (s.add vs).bindings = firstPerName (s.bindings ++ vs) := by
  induction vs generalizing s with
  | nil => simp [add]
  | cons v vs ih =>
      have hstep : s.add (v :: vs) = (s.insert v).add vs := rfl
      rw [hstep, ih, bindings_insert, firstPerName_append_left, List.append_assoc,
        List.singleton_append]

theorem binds_add {s : Scope} {vs : List Variable} {x : String} :
    (s.add vs).binds x = true ↔ s.binds x = true ∨ x ∈ vs.map Variable.name := by
  rw [binds_iff, binds_iff, names, bindings_add, mem_names_firstPerName, List.map_append,
    List.mem_append]
  rfl

end Scope

namespace Tree

/-! ### The clauses in the order of their resolution -/

mutual

/-- The clauses that a child of a query stands for: a wrapper stands for its first child,
a query for its own clauses, and anything else for itself. -/
def steps : Tree → List Tree
  | ⟨k, x, p, cs⟩ =>
    match k with
    | .readingClause | .updatingClause => stepsFirst cs
    | .singlePartQuery | .multiPartQuery => stepsAll cs
    | _ => [⟨k, x, p, cs⟩]

/-- The clauses under a wrapper. -/
def stepsFirst : List Tree → List Tree
  | [] => []
  | c :: _ => c.steps

/-- The clauses that several children of a query stand for. -/
def stepsAll : List Tree → List Tree
  | [] => []
  | c :: cs => c.steps ++ stepsAll cs

end

/-- Resolves trees one after another, each in the same way, and adds up their counts. -/
def inTurn (resolve : Tree → State → State × Nat) : List Tree → State → State × Nat
  | [], s => (s, 0)
  | c :: cs, s =>
    let (s, n) := resolve c s
    let (s, n') := inTurn resolve cs s
    (s, n + n')

theorem inTurn_append (resolve : Tree → State → State × Nat) (cs cs' : List Tree) (s : State) :
    inTurn resolve (cs ++ cs') s =
      let (s, n) := inTurn resolve cs s
      let (s, n') := inTurn resolve cs' s
      (s, n + n') := by
  induction cs generalizing s with
  | nil => simp [inTurn]
  | cons c cs ih => simp only [List.cons_append, inTurn, ih, Nat.add_assoc]

mutual

theorem resolveClause_eq_inTurn : ∀ (t : Tree) (s : State),
    t.resolveClause s = inTurn resolveSimple t.steps s
  | ⟨k, x, p, cs⟩, s => by
      cases k
      case readingClause | updatingClause => exact resolveFirst_eq_inTurn cs s
      case singlePartQuery | multiPartQuery => exact resolveClauses_eq_inTurn cs s
      all_goals rfl

theorem resolveFirst_eq_inTurn : ∀ (cs : List Tree) (s : State),
    resolveFirst cs s = inTurn resolveSimple (stepsFirst cs) s
  | [], _ => rfl
  | c :: _, s => resolveClause_eq_inTurn c s

/-- **Clauses are resolved step by step**, whatever wraps them. -/
theorem resolveClauses_eq_inTurn : ∀ (cs : List Tree) (s : State),
    resolveClauses cs s = inTurn resolveSimple (stepsAll cs) s
  | [], _ => rfl
  | c :: cs, s => by
      rw [resolveClauses, stepsAll, inTurn_append]
      simp only [resolveClause_eq_inTurn c, resolveClauses_eq_inTurn cs]

end

/-- What a clause does to the state, without its count. -/
def after (s : State) (c : Tree) : State := (c.resolveSimple s).1

theorem inTurn_eq_foldl (cs : List Tree) (s : State) :
    (inTurn resolveSimple cs s).1 = cs.foldl after s := by
  induction cs generalizing s with
  | nil => rfl
  | cons c cs ih => exact ih (after s c)

theorem resolveClauses_eq_foldl (cs : List Tree) (s : State) :
    (resolveClauses cs s).1 = (stepsAll cs).foldl after s := by
  rw [resolveClauses_eq_inTurn, inTurn_eq_foldl]

/-! ### What one clause does to the scope -/

/-- The columns of a projection. -/
def columns (body : Tree) : List Variable :=
  match body.child? .projectionItems with
  | some items => items.defining
  | none => []

/-- The names that a clause binds. -/
def bound (c : Tree) : List Variable :=
  match c.kind with
  | .matchClause | .createClause | .unwindClause => c.defining
  | .inQueryCall =>
    match c.child? .yieldItems with
    | some items => items.defining
    | none => []
  | .withClause | .returnClause =>
    match c.child? .projectionBody with
    | some body => body.columns
    | none => []
  | _ => []

/-- Whether a clause starts the scope over: a projection does, unless its columns begin
with `*`. -/
def startsOver (c : Tree) : Bool :=
  match c.kind with
  | .withClause | .returnClause =>
    match c.child? .projectionBody with
    | some body =>
      match body.child? .projectionItems with
      | some items => items.text.toList.head? != some '*'
      | none => true
    | none => false
  | _ => false

theorem scope_resolveProjectionBody (body : Tree) (s : State) :
    (body.resolveProjectionBody s).1.scope =
      (match body.child? .projectionItems with
        | some items => if items.text.toList.head? = some '*' then s.scope else Scope.empty
        | none => Scope.empty).add body.columns := by
  unfold resolveProjectionBody columns
  cases hi : body.child? .projectionItems with
  | none => rfl
  | some items =>
      have hp : items.projectsAll = (items.text.toList.head? == some '*') := by
        simp [projectsAll, is_of_child? hi]
      by_cases hstar : items.text.toList.head? = some '*' <;> simp [hp, hstar]

/-- The scope behind a clause. -/
def scopeBehind (c : Tree) (scope : Scope) : Scope :=
  (if c.startsOver then Scope.empty else scope).add c.bound

theorem scope_resolveProjection (c : Tree) (s : State)
    (hk : c.kind = .withClause ∨ c.kind = .returnClause) :
    (c.resolveProjection s).1.scope = c.scopeBehind s.scope := by
  have hb : c.bound = match c.child? .projectionBody with
      | some body => body.columns
      | none => [] := by
    rcases hk with hk | hk <;> simp [bound, hk]
  have hr : c.startsOver = match c.child? .projectionBody with
      | some body =>
        match body.child? .projectionItems with
        | some items => items.text.toList.head? != some '*'
        | none => true
      | none => false := by
    rcases hk with hk | hk <;> simp [startsOver, hk]
  rw [scopeBehind, hb, hr, resolveProjection]
  cases c.child? .projectionBody with
  | none => rfl
  | some body =>
      simp only [scope_resolveProjectionBody]
      rcases Option.eq_none_or_eq_some (body.child? .projectionItems) with hi | ⟨items, hi⟩
      · simp [hi]
      · by_cases hstar : items.text.toList.head? = some '*' <;> simp [hi, hstar]

/-- **What one clause does to the scope.** -/
theorem scope_after (c : Tree) (s : State) : (after s c).scope = c.scopeBehind s.scope := by
  unfold after resolveSimple
  split
  case h_1 hk | h_2 hk | h_3 hk => simp only [scopeBehind, startsOver, bound, hk]; rfl
  case h_4 hk =>
    simp only [scopeBehind, startsOver, bound, hk, resolveCall]
    cases c.child? .yieldItems <;> rfl
  case h_5 hk | h_6 hk | h_7 hk => simp only [scopeBehind, startsOver, bound, hk]; rfl
  case h_8 hk => exact scope_resolveProjection c s (.inl hk)
  case h_9 hk => exact scope_resolveProjection c s (.inr hk)
  case h_10 =>
    have hb : c.bound = [] := by unfold bound; split <;> simp_all
    have hr : c.startsOver = false := by unfold startsOver; split <;> simp_all
    simp only [scopeBehind, hb, hr]
    rfl

theorem bindings_scopeBehind (c : Tree) (scope : Scope) :
    (c.scopeBehind scope).bindings =
      firstPerName ((if c.startsOver then [] else scope.bindings) ++ c.bound) := by
  rw [scopeBehind, Scope.bindings_add]
  split <;> rfl

/-! ### What a run of clauses does -/

/-- The clauses from the last one on that starts the scope over, or all of them. -/
def sinceStart : List Tree → List Tree
  | [] => []
  | c :: cs => if cs.any startsOver then sinceStart cs else c :: cs

theorem sinceStart_of_none {cs : List Tree} (h : cs.any startsOver = false) :
    sinceStart cs = cs := by
  cases cs with
  | nil => rfl
  | cons c cs =>
      have hcs : cs.any startsOver = false := by
        rw [List.any_cons, Bool.or_eq_false_iff] at h
        exact h.2
      simp [sinceStart, hcs]

/-- The variables that a run of clauses leaves to a scope, before the names are made unique. -/
def leaves (vs : List Variable) (cs : List Tree) : List Variable :=
  (if cs.any startsOver then [] else vs) ++ (sinceStart cs).flatMap bound

theorem bindings_foldl_resolveSimple (cs : List Tree) (s : State) :
    (cs.foldl after s).scope.bindings = firstPerName (leaves s.scope.bindings cs) := by
  induction cs generalizing s with
  | nil => simp [leaves, sinceStart]
  | cons c cs ih =>
      rw [List.foldl_cons, ih]
      by_cases hcs : cs.any startsOver = true
      · simp [leaves, sinceStart, hcs]
      · have hcs' : cs.any startsOver = false := Bool.eq_false_iff.mpr hcs
        simp only [leaves, hcs', Bool.false_eq_true, if_false, sinceStart_of_none hcs', sinceStart,
          List.any_cons, Bool.or_false, List.flatMap_cons]
        rw [scope_after, bindings_scopeBehind, firstPerName_append_left, List.append_assoc]

/-- **The scope behind a query.** Its bindings are the first variable of each name among
those that the clauses bind since the scope was last started over; before them stand the
bindings that the query began with, if nothing started over. -/
theorem bindings_resolveQuery (q : Tree) (s : State) :
    (q.resolveQuery s).1.scope.bindings =
      firstPerName
        ((if (stepsAll q.children).any startsOver then [] else s.scope.bindings) ++
          (sinceStart (stepsAll q.children)).flatMap bound) := by
  rw [resolveQuery, resolveClauses_eq_foldl]
  exact bindings_foldl_resolveSimple _ s

end Tree

end BindCheck

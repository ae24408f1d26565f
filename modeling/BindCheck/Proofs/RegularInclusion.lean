import Mathlib.Computability.RegularExpressions

/-!
# BindCheck.Proofs.RegularInclusion

**Inclusion of regular languages by computation.** An expression is taken apart into its
heads, the letters that its words may begin with and what may stand behind each
(`RegularExpression.heads`). So the words of an expression are followed letter by letter,
with the set of all that the other side may still be; there are finitely many such pairs, and
`RegularExpression.includes` goes through them.

A pair also counts the letters that have to come at least. Words of two letters or more are
what a level of operators needs: a single operand leaves no node.
-/

open scoped Computability

namespace RegularExpression

variable {α : Type} {a : α} {w : List α} {p q : RegularExpression α}

/-! ### Equality -/

/-- Whether two expressions are written alike. -/
def same [DecidableEq α] : RegularExpression α → RegularExpression α → Bool
  | zero, zero | epsilon, epsilon => true
  | char a, char b => a = b
  | plus p q, plus p' q' | comp p q, comp p' q' => same p p' && same q q'
  | star p, star p' => same p p'
  | _, _ => false

theorem same_iff [DecidableEq α] : same p q = true ↔ p = q := by
  constructor
  · intro h
    fun_induction same p q with
    | case1 | case2 => rfl
    | case3 a b => rw [of_decide_eq_true h]
    | case4 p q p' q' ihp ihq | case5 p q p' q' ihp ihq =>
        obtain ⟨hp, hq⟩ := Bool.and_eq_true_iff.mp h
        rw [ihp hp, ihq hq]
    | case6 p p' ih => rw [ih h]
    | case7 => exact Bool.noConfusion h
  · rintro rfl
    induction p with
    | zero | epsilon => rfl
    | char a => exact decide_eq_true rfl
    | plus p q ihp ihq | comp p q ihp ihq => rw [same, ihp, ihq]; rfl
    | star p ih => exact ih

instance decidableEq [DecidableEq α] : DecidableEq (RegularExpression α) :=
  fun _ _ => decidable_of_iff _ same_iff

/-! ### Words of compound expressions -/

theorem mem_matches'_add : w ∈ (p + q).matches' ↔ w ∈ p.matches' ∨ w ∈ q.matches' := by
  rw [matches'_add, Language.mem_add]

theorem mem_matches'_mul :
    w ∈ (p * q).matches' ↔ ∃ u ∈ p.matches', ∃ v ∈ q.matches', u ++ v = w := by
  rw [matches'_mul, Language.mem_mul]

/-- A word of a repetition begins with one of its rounds that is not empty. -/
theorem cons_mem_matches'_star :
    a :: w ∈ p.star.matches' ↔ ∃ u v, w = u ++ v ∧ a :: u ∈ p.matches' ∧ v ∈ p.star.matches' := by
  rw [matches'_star]
  constructor
  · intro h
    obtain ⟨S, hw, hS⟩ := Language.mem_kstar_iff_exists_nonempty.mp h
    cases S with
    | nil => exact absurd hw (List.cons_ne_nil a w)
    | cons y S =>
        obtain ⟨⟨hy, hne⟩, hrest⟩ := List.forall_mem_cons.mp hS
        cases y with
        | nil => exact absurd rfl hne
        | cons b u =>
            obtain ⟨rfl, rfl⟩ := List.cons.inj hw
            exact ⟨u, S.flatten, rfl, hy, Language.join_mem_kstar fun y hy => (hrest y hy).1⟩
  · rintro ⟨u, v, rfl, hu, S, rfl, hS⟩
    refine Language.mem_kstar.mpr ⟨(a :: u) :: S, rfl, ?_⟩
    exact List.forall_mem_cons.mpr ⟨hu, hS⟩

theorem append_mem_star {u v : List α} (hu : u ∈ p.matches') (hv : v ∈ p.star.matches') :
    u ++ v ∈ p.star.matches' := by
  obtain ⟨S, rfl, hS⟩ := hv
  exact ⟨u :: S, rfl, List.forall_mem_cons.mpr ⟨hu, hS⟩⟩

/-! ### Heads -/

/-- One expression in front of another, without an empty one. -/
def times : RegularExpression α → RegularExpression α → RegularExpression α
  | epsilon, q => q
  | p, q => p * q

@[simp] theorem matches'_times (p q : RegularExpression α) :
    (times p q).matches' = p.matches' * q.matches' := by
  cases p
  case epsilon => exact (one_mul q.matches').symm
  all_goals rfl

theorem append_mem_times {u v : List α} (hu : u ∈ p.matches') (hv : v ∈ q.matches') :
    u ++ v ∈ (times p q).matches' := by
  rw [matches'_times]
  exact Language.append_mem_mul hu hv

/-- The letters that the words of an expression may begin with, each with an expression for
what is behind it. -/
def heads : RegularExpression α → List (α × RegularExpression α)
  | zero | epsilon => []
  | char a => [(a, epsilon)]
  | plus p q => heads p ++ heads q
  | comp p q =>
    (heads p).map (fun x => (x.1, times x.2 q)) ++ if p.matchEpsilon then heads q else []
  | star p => (heads p).map fun x => (x.1, times x.2 (star p))

theorem nil_mem_matches' [DecidableEq α] : [] ∈ p.matches' ↔ p.matchEpsilon = true :=
  (rmatch_iff_matches' p []).symm

theorem cons_mem_matches' [DecidableEq α] :
    a :: w ∈ p.matches' ↔ ∃ x ∈ p.heads, x.1 = a ∧ w ∈ x.2.matches' := by
  induction p generalizing w with
  | zero => simp [heads]
  | epsilon => simp [heads]
  | char b =>
      simp only [heads, List.mem_singleton, exists_eq_left, matches'_char, one_def,
        matches'_epsilon, Language.mem_one]
      constructor
      · intro h
        obtain ⟨rfl, rfl⟩ := List.cons.inj (Set.mem_singleton_iff.mp h)
        exact ⟨rfl, rfl⟩
      · rintro ⟨rfl, rfl⟩
        rfl
  | plus p q ihp ihq =>
      rw [plus_def, mem_matches'_add, ihp, ihq, ← plus_def, heads]
      simp only [List.mem_append, or_and_right, exists_or]
  | comp p q ihp ihq =>
      rw [comp_def, mem_matches'_mul, ← comp_def, heads]
      constructor
      · rintro ⟨_ | ⟨b, u⟩, hu, v, hv, h⟩
        · obtain rfl : v = a :: w := h
          obtain ⟨x, hx, hxa, hw⟩ := ihq.mp hv
          refine ⟨x, List.mem_append_right _ ?_, hxa, hw⟩
          rwa [if_pos (nil_mem_matches'.mp hu)]
        · obtain ⟨rfl, rfl⟩ := List.cons.inj h
          obtain ⟨x, hx, hxa, hw⟩ := ihp.mp hu
          refine ⟨_, List.mem_append_left _ (List.mem_map_of_mem hx), hxa, ?_⟩
          rw [matches'_times]
          exact Language.append_mem_mul hw hv
      · rintro ⟨x, hx, rfl, hw⟩
        rcases List.mem_append.mp hx with hx | hx
        · obtain ⟨y, hy, rfl⟩ := List.mem_map.mp hx
          rw [matches'_times] at hw
          obtain ⟨u, hu, v, hv, rfl⟩ := Language.mem_mul.mp hw
          exact ⟨y.1 :: u, ihp.mpr ⟨y, hy, rfl, hu⟩, v, hv, rfl⟩
        · by_cases hp : p.matchEpsilon = true
          · rw [if_pos hp] at hx
            exact ⟨[], nil_mem_matches'.mpr hp, _, ihq.mpr ⟨x, hx, rfl, hw⟩, rfl⟩
          · rw [if_neg hp] at hx
            exact absurd hx List.not_mem_nil
  | star p ih =>
      rw [cons_mem_matches'_star, heads]
      constructor
      · rintro ⟨u, v, rfl, hu, hv⟩
        obtain ⟨x, hx, hxa, hu⟩ := ih.mp hu
        refine ⟨_, List.mem_map_of_mem hx, hxa, ?_⟩
        rw [matches'_times]
        exact Language.append_mem_mul hu hv
      · rintro ⟨x, hx, rfl, hw⟩
        obtain ⟨y, hy, rfl⟩ := List.mem_map.mp hx
        rw [matches'_times] at hw
        obtain ⟨u, hu, v, hv, rfl⟩ := Language.mem_mul.mp hw
        exact ⟨u, v, rfl, ih.mpr ⟨y, hy, rfl, hu⟩, hv⟩

/-! ### Short words -/

variable [DecidableEq α]

/-- The words of at most one letter. -/
def short (p : RegularExpression α) : RegularExpression α :=
  (p.heads.filter (·.2.matchEpsilon)).foldr (fun x q => char x.1 + q)
    (if p.matchEpsilon then 1 else 0)

theorem mem_short (hw : w.length ≤ 1) (h : w ∈ p.matches') : w ∈ p.short.matches' := by
  have hfold : ∀ (xs : List (α × RegularExpression α)) (q : RegularExpression α),
      w ∈ (xs.foldr (fun x q => char x.1 + q) q).matches' ↔
        (∃ x ∈ xs, w = [x.1]) ∨ w ∈ q.matches' := by
    intro xs q
    induction xs with
    | nil => simp
    | cons x xs ih =>
        rw [List.foldr_cons, mem_matches'_add, ih, matches'_char, List.exists_mem_cons_iff, or_assoc]
        rfl
  rw [short, hfold]
  cases w with
  | nil =>
      rw [if_pos (nil_mem_matches'.mp h)]
      exact .inr rfl
  | cons a w =>
      obtain rfl : w = [] := List.length_eq_zero_iff.mp (by simpa using hw)
      obtain ⟨x, hx, rfl, hnil⟩ := cons_mem_matches'.mp h
      exact .inl ⟨x, List.mem_filter.mpr ⟨hx, nil_mem_matches'.mp hnil⟩, rfl⟩

/-! ### Inclusion -/

/-- What is to be shown: that each word of `part`, if it has `atLeast` letters, is a word of
one of the expressions in `whole`. -/
structure Inclusion (α : Type) where
  atLeast : Nat
  part : RegularExpression α
  whole : List (RegularExpression α)
  deriving DecidableEq

namespace Inclusion

/-- What is to be shown holds. -/
def Holds (i : Inclusion α) : Prop :=
  ∀ w ∈ i.part.matches', i.atLeast ≤ w.length → ∃ q ∈ i.whole, w ∈ q.matches'

/-- Whether it holds of the empty word. -/
def atEnd (i : Inclusion α) : Bool :=
  0 < i.atLeast || !i.part.matchEpsilon || i.whole.any matchEpsilon

/-- What is to be shown of the words behind each letter. -/
def behind (i : Inclusion α) : List (Inclusion α) :=
  i.part.heads.map fun x =>
    ⟨i.atLeast - 1, x.2, (i.whole.flatMap fun q =>
      (q.heads.filter (·.1 = x.1)).map Prod.snd).dedup⟩

/-- That some inclusions need none besides themselves. -/
def Closed (is : List (Inclusion α)) : Prop :=
  ∀ i ∈ is, i.atEnd = true ∧ ∀ j ∈ i.behind, j ∈ is

theorem Closed.holds {is : List (Inclusion α)} (h : Closed is) {i : Inclusion α} (hi : i ∈ is) :
    i.Holds := by
  intro w
  induction w generalizing i with
  | nil =>
      intro hw hlen
      have hend := (h i hi).1
      simp only [atEnd, Bool.or_eq_true, decide_eq_true_eq, Bool.not_eq_true',
        List.any_eq_true] at hend
      rcases hend with (hpos | hnot) | ⟨q, hq, hnil⟩
      · exact absurd hlen (Nat.not_le_of_lt hpos)
      · rw [nil_mem_matches'.mp hw] at hnot
        exact Bool.noConfusion hnot
      · exact ⟨q, hq, nil_mem_matches'.mpr hnil⟩
  | cons a w ih =>
      intro hw hlen
      obtain ⟨x, hx, rfl, hw'⟩ := cons_mem_matches'.mp hw
      obtain ⟨q, hq, hwq⟩ :=
        ih ((h i hi).2 _ (List.mem_map_of_mem hx)) hw' (Nat.sub_le_of_le_add hlen)
      obtain ⟨q', hq', hq⟩ := List.mem_flatMap.mp (List.mem_dedup.mp hq)
      obtain ⟨y, hy, rfl⟩ := List.mem_map.mp hq
      obtain ⟨hy, hyx⟩ := List.mem_filter.mp hy
      exact ⟨q', hq', cons_mem_matches'.mpr ⟨y, hy, of_decide_eq_true hyx, hwq⟩⟩

/-- Goes through what is still to be looked at, and all that follows from it, up to a number
of steps. What has been looked at is not looked at again. -/
def search : Nat → List (Inclusion α) → List (Inclusion α) → Bool
  | 0, _, _ => false
  | _ + 1, [], _ => true
  | fuel + 1, i :: todo, seen =>
    if i ∈ seen then search fuel todo seen
    else i.atEnd && search fuel (i.behind ++ todo) (i :: seen)

theorem exists_closed {fuel : Nat} {todo seen : List (Inclusion α)}
    (h : search fuel todo seen = true)
    (hseen : ∀ i ∈ seen, i.atEnd = true ∧ ∀ j ∈ i.behind, j ∈ seen ∨ j ∈ todo) :
    ∃ is, Closed is ∧ (∀ i ∈ todo, i ∈ is) ∧ ∀ i ∈ seen, i ∈ is := by
  induction fuel generalizing todo seen with
  | zero => exact Bool.noConfusion h
  | succ fuel ih =>
      cases todo with
      | nil =>
          refine ⟨seen, fun i hi => ?_, fun i hi => absurd hi List.not_mem_nil, fun i hi => hi⟩
          exact ⟨(hseen i hi).1, fun j hj =>
            ((hseen i hi).2 j hj).resolve_right List.not_mem_nil⟩
      | cons i todo =>
          rw [search] at h
          by_cases hi : i ∈ seen
          · rw [if_pos hi] at h
            obtain ⟨is, hclosed, htodo, hsub⟩ := ih h fun k hk => by
              refine ⟨(hseen k hk).1, fun j hj => ?_⟩
              rcases (hseen k hk).2 j hj with hj | hj
              · exact .inl hj
              · rcases List.mem_cons.mp hj with rfl | hj
                · exact .inl hi
                · exact .inr hj
            exact ⟨is, hclosed, List.forall_mem_cons.mpr ⟨hsub i hi, htodo⟩, hsub⟩
          · rw [if_neg hi, Bool.and_eq_true] at h
            obtain ⟨hend, h⟩ := h
            obtain ⟨is, hclosed, htodo, hsub⟩ := ih h fun k hk => by
              rcases List.mem_cons.mp hk with rfl | hk
              · exact ⟨hend, fun j hj => .inr (List.mem_append_left _ hj)⟩
              · refine ⟨(hseen k hk).1, fun j hj => ?_⟩
                rcases (hseen k hk).2 j hj with hj | hj
                · exact .inl (List.mem_cons_of_mem _ hj)
                · rcases List.mem_cons.mp hj with rfl | hj
                  · exact .inl List.mem_cons_self
                  · exact .inr (List.mem_append_right _ hj)
            obtain ⟨hi', hseen'⟩ := List.forall_mem_cons.mp hsub
            refine ⟨is, hclosed, List.forall_mem_cons.mpr ⟨hi', fun j hj => ?_⟩, hseen'⟩
            exact htodo j (List.mem_append_right _ hj)

end Inclusion

/-- The number of steps that a search may take. -/
def searchBound : Nat := 1000

/-- Whether the words of an expression that have `atLeast` letters are words of another one. -/
def includes (atLeast : Nat) (p q : RegularExpression α) : Bool :=
  Inclusion.search searchBound [⟨atLeast, p, [q]⟩] []

theorem mem_of_includes {n : Nat} (h : includes n p q = true) (hn : n ≤ w.length)
    (hw : w ∈ p.matches') : w ∈ q.matches' := by
  obtain ⟨is, hclosed, htodo, -⟩ :=
    Inclusion.exists_closed h fun i hi => absurd hi List.not_mem_nil
  obtain ⟨q', hq', hw'⟩ := hclosed.holds (htodo _ (List.mem_singleton_self _)) w hw hn
  exact List.mem_singleton.mp hq' ▸ hw'

end RegularExpression

import BindCheck.Proofs.SupportGate

/-!
# BindCheck.Proofs.Traversal

**A walk is the recursive traversal of a tree, and comes to no place of it twice.** The walk holds
the trees that are still to be visited, and does not know the tree that they come from.

* After any number of visits, from any pending trees, it has visited as many nodes of the recursive
  order (`Tree.walkPending_eq_take`); so it ends, and where it ends does not depend on the fuel.
* Equal nodes may stand at several places of a tree, so places are told apart by the paths to them.
  The paths to the visited nodes increase from visit to visit, and are all the paths that do
  not lead through a node where the walk does not go on (`Tree.VisitsOnce`).
-/

namespace BindCheck.Tree

/-! ### Visits -/

section

variable (descend : Tree → Bool)

/-- What is pending behind a visit stands for the rest of the walk. -/
theorem preorderAll_cons (t : Tree) (pending : List Tree) :
    preorderAll descend (t :: pending) =
      t :: preorderAll descend (if descend t then t.children ++ pending else pending) := by
  rw [preorderAll, preorder_eq, List.cons_append]
  split
  · rw [preorderAll_append]
  · rfl

/-- **So many visits are so many nodes of the recursive order.** -/
theorem walkPending_eq_take (n : Nat) (ts : List Tree) :
    walkPending descend n ts = (preorderAll descend ts).take n := by
  induction n generalizing ts with
  | zero => rfl
  | succ n ih =>
      cases ts with
      | nil => rfl
      | cons t pending => rw [walkPending, preorderAll_cons, List.take_succ_cons, ih]

theorem preorderAll_singleton (t : Tree) : preorderAll descend [t] = t.preorder descend := by
  rw [preorderAll, preorderAll, List.append_nil]

/-- A walk visits no more nodes than there are. -/
theorem length_walk_le (t : Tree) : (t.walk descend).length ≤ t.size := by
  rw [walk, walkPending_eq_take, List.length_take]
  exact Nat.min_le_left _ _

end

/-! ### Places -/

/-- The node at the end of a path, which says for each node on the way which child is next. -/
def at? (t : Tree) : List Nat → Option Tree
  | [] => some t
  | i :: p => t.children[i]?.bind fun c => c.at? p

mutual

/-- The paths to the nodes that a walk reaches, in the order of the walk. -/
def reached (descend : Tree → Bool) : Tree → List (List Nat)
  | ⟨k, x, p, cs⟩ => [] :: if descend ⟨k, x, p, cs⟩ then reachedAll descend 0 cs else []

/-- The paths to the nodes that walks over several children reach, the first of which has the
number `i`. -/
def reachedAll (descend : Tree → Bool) (i : Nat) : List Tree → List (List Nat)
  | [] => []
  | c :: cs => (c.reached descend).map (i :: ·) ++ reachedAll descend (i + 1) cs

end

/-- **That a walk comes to no place twice**: the visited nodes stand at places that increase from
visit to visit, where a node stands before those below it and the nodes below a child before those
below the next child. The walk misses a place only below a node where it does not go on. -/
structure VisitsOnce (descend : Tree → Bool) (t : Tree) (places : List (List Nat)) : Prop where
  nodes : (t.walk descend).map some = places.map t.at?
  increasing : places.Pairwise (· < ·)
  mem_iff : ∀ p, p ∈ places ↔
    (t.at? p).isSome ∧
      ∀ q i r a, p = q ++ i :: r → t.at? q = some a → descend a = true

section

variable {descend : Tree → Bool}

theorem reached_eq (t : Tree) :
    t.reached descend = [] :: if descend t then reachedAll descend 0 t.children else [] := by
  cases t
  rw [reached]

mutual

/-- At the places of a walk stand the nodes that it visits. -/
theorem map_at?_reached : ∀ t : Tree,
    (t.reached descend).map t.at? = (t.preorder descend).map some
  | ⟨k, x, p, cs⟩ => by
      rw [reached, preorder, List.map_cons, List.map_cons]
      split
      · rw [map_at?_reachedAll cs 0 _ fun j q => by rw [Nat.zero_add]; rfl]
        rfl
      · rfl

theorem map_at?_reachedAll : ∀ (cs : List Tree) (i : Nat) (f : List Nat → Option Tree),
    (∀ j q, f ((i + j) :: q) = cs[j]?.bind fun c => c.at? q) →
      (reachedAll descend i cs).map f = (preorderAll descend cs).map some
  | [], _, _, _ => rfl
  | c :: cs, i, f, hf => by
      have hfirst : f ∘ (i :: ·) = c.at? := funext fun q => hf 0 q
      have hnext : ∀ j q, f ((i + 1 + j) :: q) = cs[j]?.bind fun c => c.at? q := by
        intro j q
        rw [Nat.add_assoc, Nat.add_comm 1 j]
        exact hf (j + 1) q
      rw [reachedAll, preorderAll, List.map_append, List.map_append, List.map_map, hfirst,
        map_at?_reached c, map_at?_reachedAll cs (i + 1) f hnext]

end

theorem mem_reachedAll {i : Nat} {cs : List Tree} {p : List Nat} :
    p ∈ reachedAll descend i cs ↔
      ∃ j c q, cs[j]? = some c ∧ p = (i + j) :: q ∧ q ∈ c.reached descend := by
  induction cs generalizing i with
  | nil => simp [reachedAll]
  | cons c cs ih =>
      rw [reachedAll, List.mem_append, List.mem_map, ih]
      constructor
      · rintro (⟨q, hq, rfl⟩ | ⟨j, c', q, hc', rfl, hq⟩)
        · exact ⟨0, c, q, rfl, rfl, hq⟩
        · exact ⟨j + 1, c', q, hc', by rw [Nat.add_assoc, Nat.add_comm 1 j], hq⟩
      · rintro ⟨j, c', q, hc', rfl, hq⟩
        cases j with
        | zero =>
            obtain rfl := Option.some.inj hc'
            exact .inl ⟨q, hq, rfl⟩
        | succ j => exact .inr ⟨j, c', q, hc', by rw [Nat.add_assoc, Nat.add_comm 1 j], hq⟩

mutual

/-- Places increase along a walk. -/
theorem pairwise_reached : ∀ t : Tree, (t.reached descend).Pairwise (· < ·)
  | ⟨k, x, p, cs⟩ => by
      rw [reached, List.pairwise_cons]
      split
      · refine ⟨fun q hq => ?_, pairwise_reachedAll cs 0⟩
        obtain ⟨j, c, r, -, rfl, -⟩ := mem_reachedAll.mp hq
        exact List.nil_lt_cons _ _
      · exact ⟨fun q hq => absurd hq List.not_mem_nil, .nil⟩

theorem pairwise_reachedAll : ∀ (cs : List Tree) (i : Nat),
    (reachedAll descend i cs).Pairwise (· < ·)
  | [], _ => .nil
  | c :: cs, i => by
      rw [reachedAll, List.pairwise_append]
      refine ⟨?_, pairwise_reachedAll cs (i + 1), ?_⟩
      · exact (pairwise_reached c).map _ fun q r hqr => List.cons_lt_cons_iff.mpr (.inr ⟨rfl, hqr⟩)
      · intro q hq r hr
        obtain ⟨q, -, rfl⟩ := List.mem_map.mp hq
        obtain ⟨j, c', r, -, rfl, -⟩ := mem_reachedAll.mp hr
        exact List.cons_lt_cons_iff.mpr (.inl (by omega))

end

/-- A walk reaches the places to which it goes on all along the path. -/
theorem mem_reached_iff {t : Tree} {p : List Nat} :
    p ∈ t.reached descend ↔
      (t.at? p).isSome ∧
        ∀ q i r a, p = q ++ i :: r → t.at? q = some a → descend a = true := by
  induction p generalizing t with
  | nil =>
      rw [reached_eq]
      refine iff_of_true List.mem_cons_self ⟨rfl, fun q i r a hnil _ => ?_⟩
      exact absurd hnil.symm (List.append_ne_nil_of_right_ne_nil _ (List.cons_ne_nil _ _))
  | cons i p ih =>
      have hbelow : i :: p ∈ t.reached descend ↔
          descend t = true ∧ ∃ c, t.children[i]? = some c ∧ p ∈ c.reached descend := by
        rw [reached_eq]
        split
        · next hd => simp [mem_reachedAll, hd, eq_comm (a := i)]
        · next hd => simp [hd]
      rw [hbelow]
      constructor
      · rintro ⟨hd, c, hc, hp⟩
        obtain ⟨hsome, habove⟩ := ih.mp hp
        refine ⟨by rwa [at?, hc], fun q j r a heq hq => ?_⟩
        cases q with
        | nil => exact Option.some.inj hq ▸ hd
        | cons j' q =>
            obtain ⟨rfl, hrest⟩ := List.cons.inj heq
            rw [at?, hc] at hq
            exact habove q j r a hrest hq
      · rintro ⟨hsome, habove⟩
        obtain ⟨n, hn⟩ := Option.isSome_iff_exists.mp hsome
        obtain ⟨c, hc, hn⟩ := Option.bind_eq_some_iff.mp hn
        refine ⟨habove [] i p t rfl rfl, c, hc, ih.mpr ⟨Option.isSome_iff_exists.mpr ⟨n, hn⟩, ?_⟩⟩
        intro q j r a heq hq
        refine habove (i :: q) j r a (by rw [heq, List.cons_append]) ?_
        rw [at?, hc]
        exact hq

theorem visitsOnce (t : Tree) : VisitsOnce descend t (t.reached descend) where
  nodes := by rw [walk_eq_preorder, map_at?_reached]
  increasing := pairwise_reached t
  mem_iff _ := mem_reached_iff

end

/-- **A walk with a list of pending trees is the recursive traversal**: it visits the root and, just
if it goes on there, what the walks over the children visit, from the left. So many visits are so
many nodes of this order, of which there are no more than the tree has; and the walk comes to no
place twice. All nodes are those of the walk that goes on everywhere, and the search for a
kind finds the first of them, if there is one. -/
theorem walk_is_traversal (t : Tree) :
    (∀ descend : Tree → Bool,
      t.walk descend = t.preorder descend ∧
      t.preorder descend =
        t :: (if descend t then t.children.flatMap (preorder descend) else []) ∧
      (∀ n, walkPending descend n [t] = (t.walk descend).take n) ∧
      (t.walk descend).length ≤ t.size ∧
      ∃ places, VisitsOnce descend t places) ∧
    t.descendants = t.preorder (fun _ => true) ∧
    ∀ k,
      (∀ n, t.find? k = some n ↔ IsFirst (fun m => m.kind = k) (t.preorder fun _ => true) n) ∧
      (t.find? k = none ↔ ∀ m ∈ t.preorder fun _ => true, m.kind ≠ k) := by
  refine ⟨fun descend => ⟨walk_eq_preorder descend t, ?_, fun n => ?_, length_walk_le descend t,
    _, visitsOnce t⟩, walk_eq_preorder _ t,
    fun k => ⟨fun n => find?_eq_some_iff, find?_eq_none_iff⟩⟩
  · rw [preorder_eq, preorderAll_eq]
  · rw [walkPending_eq_take, preorderAll_singleton, walk_eq_preorder]

end BindCheck.Tree

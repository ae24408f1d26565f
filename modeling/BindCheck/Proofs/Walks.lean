import BindCheck.Tree.Walk
import Mathlib.Data.List.Flatten

/-!
# BindCheck.Proofs.Walks

**A walk with a list of pending trees visits what recursion on the tree visits**, in the
same order: the pending trees stand for the recursive walks over them, one after another
(`Tree.walkPending_eq_preorderAll`). Their number of nodes is the fuel that this takes.
-/

namespace BindCheck.Tree

variable (descend : Tree → Bool)

theorem sizeAll_append (cs cs' : List Tree) : sizeAll (cs ++ cs') = sizeAll cs + sizeAll cs' := by
  induction cs with
  | nil => rw [List.nil_append, sizeAll, Nat.zero_add]
  | cons c cs ih => rw [List.cons_append, sizeAll, sizeAll, ih, Nat.add_assoc]

theorem preorderAll_append (cs cs' : List Tree) :
    preorderAll descend (cs ++ cs') = preorderAll descend cs ++ preorderAll descend cs' := by
  induction cs with
  | nil => rfl
  | cons c cs ih => rw [List.cons_append, preorderAll, preorderAll, ih, List.append_assoc]

theorem size_eq (t : Tree) : t.size = sizeAll t.children + 1 := by
  cases t
  rw [size]

theorem preorder_eq (t : Tree) :
    t.preorder descend = t :: if descend t then preorderAll descend t.children else [] := by
  cases t
  rw [preorder]

/-- The pending trees stand for the walks over them. -/
theorem walkPending_eq_preorderAll {fuel : Nat} {ts : List Tree} (h : sizeAll ts ≤ fuel) :
    walkPending descend fuel ts = preorderAll descend ts := by
  induction fuel generalizing ts with
  | zero =>
      cases ts with
      | nil => rfl
      | cons t ts =>
          have := t.size_pos
          rw [sizeAll] at h
          omega
  | succ fuel ih =>
      cases ts with
      | nil => rfl
      | cons t ts =>
          rw [sizeAll, size_eq] at h
          rw [walkPending, preorderAll, preorder_eq, List.cons_append]
          congr 1
          by_cases hd : descend t = true
          · rw [if_pos hd, if_pos hd, ih (by rw [sizeAll_append]; omega), preorderAll_append]
          · rw [if_neg hd, if_neg hd, ih (by omega), List.nil_append]

theorem walk_eq_preorder (t : Tree) : t.walk descend = t.preorder descend := by
  rw [walk, walkPending_eq_preorderAll descend (by rw [sizeAll, sizeAll]; omega), preorderAll,
    preorderAll, List.append_nil]

/-- All nodes of a tree: the root and all nodes of its children. -/
theorem descendants_eq (t : Tree) :
    t.descendants = t :: preorderAll (fun _ => true) t.children := by
  rw [descendants, walk_eq_preorder, preorder_eq, if_pos rfl]

mutual

/-- The nodes of a node of a tree stand in one row among those of the tree. -/
theorem sublist_of_mem_preorder {n : Tree} : ∀ t : Tree, n ∈ t.preorder (fun _ => true) →
    (n.preorder fun _ => true).Sublist (t.preorder fun _ => true)
  | ⟨k, x, p, cs⟩, h => by
      rw [preorder, if_pos rfl] at h ⊢
      rcases List.mem_cons.mp h with rfl | h
      · exact List.Sublist.refl _
      · exact (sublist_of_mem_preorderAll cs h).trans (List.sublist_cons_self _ _)

theorem sublist_of_mem_preorderAll {n : Tree} : ∀ cs : List Tree,
    n ∈ preorderAll (fun _ => true) cs →
      (n.preorder fun _ => true).Sublist (preorderAll (fun _ => true) cs)
  | [], h => absurd h List.not_mem_nil
  | c :: cs, h => by
      rw [preorderAll] at h ⊢
      rcases List.mem_append.mp h with h | h
      · exact (sublist_of_mem_preorder c h).trans (List.sublist_append_left _ _)
      · exact (sublist_of_mem_preorderAll cs h).trans (List.sublist_append_right _ _)

end

theorem descendants_sublist {n t : Tree} (h : n ∈ t.descendants) :
    n.descendants.Sublist t.descendants := by
  rw [descendants, walk_eq_preorder] at h ⊢
  rw [descendants, walk_eq_preorder]
  exact sublist_of_mem_preorder t h

theorem preorderAll_eq (cs : List Tree) :
    preorderAll descend cs = cs.flatMap (preorder descend) := by
  induction cs with
  | nil => rfl
  | cons c cs ih => rw [preorderAll, ih, List.flatMap_cons]

theorem preorderAll_eq_flatMap (cs : List Tree) :
    preorderAll (fun _ => true) cs = cs.flatMap descendants := by
  rw [preorderAll_eq]
  exact congrArg cs.flatMap (funext fun c => (walk_eq_preorder _ c).symm)

theorem mem_descendants_self (t : Tree) : t ∈ t.descendants := by
  rw [descendants_eq]
  exact List.mem_cons_self

/-- The nodes below the children of a node, in order. -/
theorem flatMap_descendants_sublist {ts : List Tree} {t : Tree} (h : ts.Sublist t.children) :
    (ts.flatMap descendants).Sublist t.descendants := by
  rw [descendants_eq, preorderAll_eq_flatMap]
  exact (h.flatMap descendants).trans (List.sublist_cons_self _ _)

theorem mem_descendants_of_mem_children {c t : Tree} (h : c ∈ t.children) :
    c ∈ t.descendants := by
  have hc := flatMap_descendants_sublist (List.singleton_sublist.mpr h)
  rw [List.flatMap_singleton] at hc
  exact hc.subset c.mem_descendants_self

end BindCheck.Tree

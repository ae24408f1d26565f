import BindCheck.Diagnostic
import BindCheck.Tree.Basic

/-!
# BindCheck.Scope

The names that are bound at one point of a query. There is one flat scope: **the first
binding of a name stands**, later ones change nothing, and a projection starts over with
an empty scope. The bindings are kept in the order in which they were made.

That no name is bound twice is part of the type, so every operation keeps it.
-/

namespace BindCheck

/-- A name and the place where it is bound or read. -/
structure Variable where
  name : String
  position : Position
  deriving Repr, DecidableEq

/-- A node's text as a name, at the node's place. -/
def Variable.ofTree (t : Tree) : Variable := ⟨t.text, t.position⟩

/-- The bound names, each with its first binding, in the order of the bindings. -/
structure Scope where
  bindings : List Variable
  nodup : (bindings.map Variable.name).Nodup
  deriving DecidableEq

namespace Scope

/-- No name is bound. -/
def empty : Scope := ⟨[], List.nodup_nil⟩

/-- The binding of a name. -/
def get? (s : Scope) (name : String) : Option Variable := s.bindings.find? (·.name == name)

/-- Whether a name is bound. -/
def binds (s : Scope) (name : String) : Bool := s.bindings.any (·.name == name)

/-- The bound names. -/
def names (s : Scope) : List String := s.bindings.map Variable.name

theorem binds_iff {s : Scope} {name : String} : s.binds name = true ↔ name ∈ s.names := by
  simp [binds, names]

/-- Binds a name, unless it is bound already. -/
def insert (s : Scope) (v : Variable) : Scope :=
  if h : s.binds v.name = true then s
  else
    { bindings := s.bindings ++ [v]
      nodup := by
        rw [binds_iff] at h
        have hs := s.nodup
        rw [List.map_append, List.nodup_append]
        refine ⟨hs, by simp, ?_⟩
        intro a ha b hb
        simp only [List.map_cons, List.map_nil, List.mem_singleton] at hb
        subst hb
        intro hab
        exact h (hab ▸ ha) }

/-- Binds names from left to right. -/
def add (s : Scope) (vs : List Variable) : Scope := vs.foldl insert s

/-- The references whose names are not bound, in order. -/
def unbound (s : Scope) (references : List Variable) : List Variable :=
  references.filter fun v => !s.binds v.name

/-- The findings for the references whose names are not bound, one for each. -/
def check (s : Scope) (references : List Variable) : List Diagnostic :=
  (s.unbound references).map fun v => ⟨.undefinedVariable, v.name, v.position⟩

end Scope

end BindCheck

import BindCheck.Proofs.AlikeAnalysis
import BindCheck.Proofs.Relabeling
import BindCheck.Proofs.Schema
import BindCheck.Proofs.StandaloneCalls

/-!
# BindCheck.Proofs.Replacement

**Sources whose lexemes correspond one by one.** If each lexeme of a source is replaced by one
that the same terminals accept, the new source is a query if the old one is, with the same nodes
over the lexemes that replace the old ones (`parse_of_keeps`). Its tree is alike to the old one
in any sense in which each node over some lexemes corresponds to that over what replaces them
(`Cover.alike_relabel`); and alike trees are analyzed alike.

As no lexeme occurs twice in a text, lexemes that correspond one by one are replaced by a function
(`exists_map_of_forall₂`).
-/

namespace BindCheck

/-- Lexemes that occur once each are replaced by a function. -/
theorem exists_map_of_forall₂ {α : Type} {R : α → α → Prop} {xs ys : List α} (hnodup : xs.Nodup)
    (h : List.Forall₂ R xs ys) : ∃ φ : α → α, ys = xs.map φ ∧ ∀ x ∈ xs, R x (φ x) := by
  classical
  induction h with
  | nil => exact ⟨id, rfl, fun x hx => absurd hx List.not_mem_nil⟩
  | @cons x y xs ys hxy _ ih =>
      obtain ⟨hx, hxs⟩ := List.nodup_cons.mp hnodup
      obtain ⟨φ, rfl, hφ⟩ := ih hxs
      have hother : ∀ z ∈ xs, Function.update φ x y z = φ z := by
        rintro z hz
        refine Function.update_of_ne ?_ y φ
        rintro rfl
        exact hx hz
      refine ⟨Function.update φ x y, ?_, List.forall_mem_cons.mpr ⟨?_, fun z hz => ?_⟩⟩
      · rw [List.map_cons, Function.update_self, List.map_congr_left hother]
      · rwa [Function.update_self]
      · rw [hother z hz]
        exact hφ z hz

theorem Cover.own_relabel (φ : Lexeme → Lexeme) (c : Cover) :
    (c.relabel φ).own = c.own.map φ := by
  cases c; rfl

namespace Cover

mutual

theorem nodes_relabel (φ : Lexeme → Lexeme) : ∀ c : Cover,
    (c.relabel φ).nodes = c.nodes.map (relabel φ)
  | ⟨k, us, cs⟩ => by rw [relabel, nodes, nodes, List.map_cons, relabel, nodesAll_relabel φ cs]

theorem nodesAll_relabel (φ : Lexeme → Lexeme) : ∀ cs : List Cover,
    nodesAll (relabelAll φ cs) = (nodesAll cs).map (relabel φ)
  | [] => rfl
  | c :: cs => by
      rw [relabelAll, nodesAll, nodesAll, List.map_append, nodes_relabel φ c,
        nodesAll_relabel φ cs]

end

theorem mem_nodes_relabel {φ : Lexeme → Lexeme} {c m : Cover} (hm : m ∈ c.nodes) :
    m.relabel φ ∈ (c.relabel φ).nodes := by
  rw [nodes_relabel]
  exact List.mem_map_of_mem hm

end Cover

/-- A text with a run over its lexemes is parsed to what the run finds. -/
theorem parse_of_run {source : String} {us vs : List Lexeme} {c : Cover}
    (hls : tokenize source = .ok (us ++ vs)) (run : Run Grammar.cypher us vs [c]) :
    parse source = .ok c.tree :=
  parse_eq_ok.mpr ⟨_, hls, Session.request_eq_ok.mpr ⟨[], _, _, run.parse_cypher⟩⟩

/-- The lexemes that replace those of a query are parsed to the same nodes over them. -/
theorem parse_of_keeps {source source' : String} {ls : List Lexeme} {φ : Lexeme → Lexeme}
    (hls : tokenize source = .ok ls) (hls' : tokenize source' = .ok (ls.map φ))
    (hφ : ∀ l ∈ ls, l.Keeps φ) {t : Tree} (h : parse source = .ok t) :
    ∃ c : Cover, c.Of source ∧ c.tree = t ∧ (c.relabel φ).Of source' := by
  obtain ⟨c, hc, rfl⟩ := cover_of_parse h
  obtain ⟨p, rfl, run⟩ := hc.run_of_tokenize hls
  obtain ⟨us, q, hus, -⟩ := tokenize_ok hls'
  rw [List.map_append] at hus
  obtain ⟨rfl, hend⟩ := List.append_inj' hus rfl
  have hrun : Run Grammar.cypher (c.relabel φ).own [Lexeme.ending q] [c.relabel φ] := by
    rw [c.own_relabel, ← hend]
    exact run.relabel hφ
  rw [List.map_append, hend, ← c.own_relabel φ] at hls'
  exact ⟨c, hc, rfl, parse_of_run hls' hrun, q, hls', hrun⟩

/-! ### Corresponding trees -/

namespace Cover

variable {M : Matching} {φ : Lexeme → Lexeme}

/-- That the node over some lexemes corresponds to that over those which replace them. -/
def Matches (M : Matching) (φ : Lexeme → Lexeme) (m : Cover) : Prop :=
  M.text m.tree.text (m.relabel φ).tree.text ∧
    M.node m.kind (Variable.ofTree m.tree) (Variable.ofTree (m.relabel φ).tree)

mutual

theorem alike_relabel : ∀ {c : Cover}, (∀ m ∈ c.nodes, m.Matches M φ) →
    Tree.Alike M c.tree (c.relabel φ).tree
  | ⟨_, _, _⟩, h =>
      have hself := h _ List.mem_cons_self
      .node hself.1 hself.2 (alike_relabelAll fun m hm => h m (List.mem_cons_of_mem _ hm))

theorem alike_relabelAll : ∀ {cs : List Cover}, (∀ m ∈ nodesAll cs, m.Matches M φ) →
    List.Forall₂ (Tree.Alike M) (trees cs) (trees (relabelAll φ cs))
  | [], _ => .nil
  | _ :: _, h =>
      .cons (alike_relabel fun m hm => h m (List.mem_append_left _ hm))
        (alike_relabelAll fun m hm => h m (List.mem_append_right _ hm))

end

end Cover

end BindCheck

import BindCheck.Proofs.Runs

/-!
# BindCheck.Proofs.Relabeling

**What is parsed depends on the terminals of lexemes alone.** Lexemes may be replaced, each by
one that the same terminals accept (`Lexeme.Keeps`): every run goes through on the new lexemes
as it did on the old ones, and its nodes are over the new lexemes in the places of the old
(`Run.relabel`). Places and names are such replacements; but for `count`, which is a terminal
of its own.
-/

namespace BindCheck

variable {φ : Lexeme → Lexeme}

/-- That the same terminals accept a lexeme and what replaces it. -/
def Lexeme.Keeps (φ : Lexeme → Lexeme) (l : Lexeme) : Prop :=
  ∀ t : Terminal, t.accepts (φ l).token = t.accepts l.token

/-! ### Lookaheads -/

namespace Lookahead

theorem nextIn_map {ls : List Lexeme} (h : ∀ l ∈ ls, l.Keeps φ) (ts : List Terminal) :
    nextIn ts (ls.map φ) = nextIn ts ls := by
  induction ts generalizing ls with
  | nil => cases ls <;> rfl
  | cons t ts ih =>
      cases ls with
      | nil => rfl
      | cons l ls =>
          obtain ⟨hl, hls⟩ := List.forall_mem_cons.mp h
          rw [List.map_cons, nextIn, nextIn, ih hls, hl t]

theorem callFollows_map {ls : List Lexeme} (h : ∀ l ∈ ls, l.Keeps φ) :
    callFollows (ls.map φ) = callFollows ls := by
  induction ls using callFollows.induct with
  | case1 => rfl
  | case2 l => exact h l List.mem_cons_self _
  | case3 l m ls hgo ih =>
      obtain ⟨hl, hm, hls⟩ : l.Keeps φ ∧ m.Keeps φ ∧ ∀ u ∈ ls, u.Keeps φ := by
        simpa only [List.forall_mem_cons] using h
      simp only [List.map_cons, callFollows, hl _, hm _, hgo, if_true]
      exact ih hls
  | case4 l m ls hstop =>
      obtain ⟨hl, hm, -⟩ : l.Keeps φ ∧ m.Keeps φ ∧ ∀ u ∈ ls, u.Keeps φ := by
        simpa only [List.forall_mem_cons] using h
      simp only [List.map_cons, callFollows, hl _, hm _, hstop, Bool.false_eq_true, if_false]

theorem holds_map {ls : List Lexeme} (h : ∀ l ∈ ls, l.Keeps φ) (l : Lookahead) :
    l.holds (ls.map φ) = l.holds ls := by
  cases l with
  | next ts => exact nextIn_map h ts
  | notNext t =>
      cases ls with
      | nil => rfl
      | cons u ls => exact congrArg (!·) (h u List.mem_cons_self t)
  | dottedCall =>
      cases ls with
      | nil => rfl
      | cons u ls =>
          obtain ⟨hu, hls⟩ := List.forall_mem_cons.mp h
          rw [List.map_cons, holds, holds, callFollows_map hls, hu _]

end Lookahead

/-! ### Covers -/

namespace Cover

mutual

/-- A cover whose nodes are over other lexemes. -/
def relabel (φ : Lexeme → Lexeme) : Cover → Cover
  | ⟨k, us, cs⟩ => ⟨k, us.map φ, relabelAll φ cs⟩

/-- Covers whose nodes are over other lexemes. -/
def relabelAll (φ : Lexeme → Lexeme) : List Cover → List Cover
  | [] => []
  | c :: cs => c.relabel φ :: relabelAll φ cs

end

theorem relabelAll_eq_map (cs : List Cover) : relabelAll φ cs = cs.map (relabel φ) := by
  induction cs with
  | nil => rfl
  | cons c cs ih => rw [relabelAll, ih, List.map_cons]

end Cover

theorem Shape.cover_relabel (s : Shape) (us : List Lexeme) (cs : List Cover) :
    (s.cover us cs).map (Cover.relabel φ) = s.cover (us.map φ) (cs.map (Cover.relabel φ)) := by
  cases s with
  | bare => rfl
  | node k => simp [cover, Cover.relabel, Cover.relabelAll_eq_map]
  | ifMany k =>
      by_cases h : 1 < cs.length <;> simp [cover, h, Cover.relabel, Cover.relabelAll_eq_map]

/-! ### Runs -/

/-- **A run goes through on the lexemes that replace its own.** -/
theorem Run.relabel {r : Rule} {us vs : List Lexeme} {cs : List Cover} (h : Run r us vs cs)
    (hφ : ∀ l ∈ us ++ vs, l.Keeps φ) :
    Run r (us.map φ) (vs.map φ) (cs.map (Cover.relabel φ)) := by
  -- a lookahead is asked about lexemes that are replaced all together
  have ask : ∀ {us vs : List Lexeme} {l : Lookahead} {b : Bool}, (∀ u ∈ us ++ vs, u.Keeps φ) →
      l.holds (us ++ vs) = b → l.holds (us.map φ ++ vs.map φ) = b := by
    intro us vs l b hφ hl
    rw [← List.map_append, Lookahead.holds_map hφ, hl]
  have askBehind : ∀ {us vs : List Lexeme} {l : Lookahead} {b : Bool},
      (∀ u ∈ us ++ vs, u.Keeps φ) → l.holds vs = b → l.holds (vs.map φ) = b := by
    intro us vs l b hφ hl
    rw [Lookahead.holds_map fun u hu => hφ u (List.mem_append_right us hu), hl]
  have right : ∀ {us us' vs : List Lexeme}, (∀ u ∈ us ++ us' ++ vs, u.Keeps φ) →
      (∀ u ∈ us ++ (us' ++ vs), u.Keeps φ) ∧ ∀ u ∈ us' ++ vs, u.Keeps φ := by
    intro us us' vs hφ
    rw [List.append_assoc] at hφ
    exact ⟨hφ, fun u hu => hφ u (List.mem_append_right us hu)⟩
  induction h with
  | empty => exact .empty
  | token accepts =>
      refine .token ?_
      rw [hφ _ (List.mem_append_left _ (List.mem_singleton_self _))]
      exact accepts
  | demand holds => exact .demand (askBehind hφ holds)
  | seq first second ih₁ ih₂ =>
      obtain ⟨h₁, h₂⟩ := right hφ
      rw [List.map_append, List.map_append]
      exact .seq (by simpa using ih₁ h₁) (ih₂ h₂)
  | yes holds run ih => exact .yes (ask hφ holds) (ih hφ)
  | no fails run ih => exact .no (ask hφ fails) (ih hφ)
  | done fails => exact .done (askBehind hφ fails)
  | step holds first more ih₁ ih₂ =>
      obtain ⟨h₁, h₂⟩ := right hφ
      rw [List.map_append, List.map_append]
      exact .step (by simpa using ask h₁ holds) (by simpa using ih₁ h₁) (ih₂ h₂)
  | sepBy first more ih₁ ih₂ =>
      obtain ⟨h₁, h₂⟩ := right hφ
      rw [List.map_append, List.map_append]
      exact .sepBy (by simpa using ih₁ h₁) (ih₂ h₂)
  | wrap run ih =>
      rw [Shape.cover_relabel]
      exact .wrap (ih hφ)
  | forkYes run holds more ih₁ ih₂ =>
      obtain ⟨h₁, h₂⟩ := right hφ
      rw [Shape.cover_relabel, List.map_append, List.map_append]
      exact .forkYes (by simpa using ih₁ h₁) (ask h₂ holds) (ih₂ h₂)
  | forkNo run fails more ih₁ ih₂ =>
      obtain ⟨h₁, h₂⟩ := right hφ
      rw [Shape.cover_relabel, List.map_append, List.map_append]
      exact .forkNo (by simpa using ih₁ h₁) (ask h₂ fails) (ih₂ h₂)
  | call run ih => exact .call (ih hφ)
  | attemptFirst run holds ih => exact .attemptFirst (ih hφ) (askBehind hφ holds)
  | attemptOther run ih => exact .attemptOther (ih hφ)

end BindCheck

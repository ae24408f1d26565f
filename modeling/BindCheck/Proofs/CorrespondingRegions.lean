import BindCheck.Proofs.Correspondence
import BindCheck.Proofs.ReadRegions

/-!
# BindCheck.Proofs.CorrespondingRegions

**Names are read at corresponding places of trees of one shape.** The regions of such trees
correspond one by one: their roots do, and the names that are bound there are texts of nodes that
correspond (`Tree.Correspondence.readRegions`). So the variables that are unresolved in the one tree
correspond to those in the other, if in corresponding regions the same nodes have the text of a
bound name (`Tree.Correspondence.unresolved`).

Where names are read and which are bound is said by functions on trees; there is one lemma for each
of them.
-/

namespace BindCheck

open Relator

namespace Tree

/-- The regions of a query. -/
def readRegions (t : Tree) : List Region :=
  match t.top with
  | .ok q => q.topRegions
  | .error _ => []

theorem unresolved_eq (t : Tree) : t.unresolved = t.readRegions.flatMap Region.unresolved := by
  unfold unresolved readRegions
  cases t.top <;> rfl

end Tree

/-- Regions with corresponding roots, where texts of corresponding nodes are bound. -/
structure Region.Corresponds (R : Tree → Tree → Prop) (r r' : Region) : Prop where
  root : R r.root r'.root
  names : List.Forall₂ (Tree.TextsOf R) r.names r'.names

/-- Nodes that correspond and stand below corresponding nodes. -/
structure Spot.Corresponds (R : Tree → Tree → Prop) (s s' : Spot) : Prop where
  node : R s.node s'.node
  above : List.Forall₂ R s.above s'.above

namespace Tree.Correspondence

variable {R : Tree → Tree → Prop} {t t' : Tree}

/-! ### Bound names -/

mutual

theorem steps (hR : Correspondence R) : ∀ {t t' : Tree}, R t t' → List.Forall₂ R t.steps t'.steps
  | ⟨k, x, p, cs⟩, ⟨k', x', p', cs'⟩, h => by
      obtain rfl : k = k' := hR.kind h
      have hfirst := stepsFirst hR (hR.children h)
      have hall := stepsAll hR (hR.children h)
      cases k
      case readingClause | updatingClause => exact hfirst
      case singlePartQuery | multiPartQuery => exact hall
      all_goals exact .cons h .nil

theorem stepsFirst (hR : Correspondence R) : ∀ {cs cs' : List Tree}, List.Forall₂ R cs cs' →
    List.Forall₂ R (Tree.stepsFirst cs) (Tree.stepsFirst cs')
  | [], _, .nil => .nil
  | _ :: _, _, .cons h _ => steps hR h

theorem stepsAll (hR : Correspondence R) : ∀ {cs cs' : List Tree}, List.Forall₂ R cs cs' →
    List.Forall₂ R (Tree.stepsAll cs) (Tree.stepsAll cs')
  | [], _, .nil => .nil
  | _ :: _, _, .cons h hs => List.rel_append (steps hR h) (stepsAll hR hs)

end

theorem columns (hR : Correspondence R) (h : R t t') :
    List.Forall₂ (NamesOf R) t.columns t'.columns := by
  unfold Tree.columns
  exact (hR.child? h .projectionItems).casesOn (fun hitems => hR.defining hitems) .nil

theorem bound (hR : Correspondence R) (h : R t t') :
    List.Forall₂ (NamesOf R) t.bound t'.bound := by
  unfold Tree.bound
  rw [← hR.kind h]
  cases t.kind
  case matchClause | createClause | unwindClause => exact hR.defining h
  case inQueryCall =>
    exact (hR.child? h .yieldItems).casesOn (fun hyield => hR.defining hyield) .nil
  case withClause | returnClause =>
    exact (hR.child? h .projectionBody).casesOn (fun hbody => hR.columns hbody) .nil
  all_goals exact .nil

theorem startsOver (hR : Correspondence R) (h : R t t') : t.startsOver = t'.startsOver := by
  unfold Tree.startsOver
  rw [← hR.kind h]
  split
  case h_1 | h_2 =>
    refine (hR.child? h .projectionBody).casesOn (fun hbody => ?_) rfl
    dsimp only
    refine (hR.child? hbody .projectionItems).casesOn (fun hitems => ?_) rfl
    simp only [bne, Bool.beq_eq_decide_eq, hR.star hitems]
  case h_3 => rfl

theorem sinceStart (hR : Correspondence R) {cs cs' : List Tree} (h : List.Forall₂ R cs cs') :
    cs.any Tree.startsOver = cs'.any Tree.startsOver ∧
      List.Forall₂ R (Tree.sinceStart cs) (Tree.sinceStart cs') := by
  induction h with
  | nil => exact ⟨rfl, .nil⟩
  | cons hc hcs ih =>
      obtain ⟨hany, hsince⟩ := ih
      refine ⟨by rw [List.any_cons, List.any_cons, hR.startsOver hc, hany], ?_⟩
      rw [Tree.sinceStart, Tree.sinceStart, ← hany]
      split
      · exact hsince
      · exact .cons hc hcs

theorem map_name {vs vs' : List Variable} (h : List.Forall₂ (NamesOf R) vs vs') :
    List.Forall₂ (TextsOf R) (vs.map Variable.name) (vs'.map Variable.name) :=
  List.forall₂_map_left_iff.mpr (List.forall₂_map_right_iff.mpr h)

/-- Behind corresponding clauses texts of corresponding nodes are bound. -/
theorem namesAfter (hR : Correspondence R) {cs cs' : List Tree} (h : List.Forall₂ R cs cs') :
    List.Forall₂ (TextsOf R) (Tree.namesAfter cs) (Tree.namesAfter cs') := by
  obtain ⟨hany, hsince⟩ := hR.sinceStart h
  have hbound : List.Forall₂ (NamesOf R) (Tree.leaves [] cs) (Tree.leaves [] cs') := by
    rw [Tree.leaves, Tree.leaves, ite_self, ite_self]
    exact List.rel_flatMap hsince fun _ _ hc => hR.bound hc
  exact map_name hbound

/-! ### Regions -/

section

variable {names names' : List String} (hnames : List.Forall₂ (TextsOf R) names names')

include hnames

theorem regionsAt {ts ts' : List Tree} (h : List.Forall₂ R ts ts') :
    List.Forall₂ (Region.Corresponds R) (ts.map (Region.mk · names))
      (ts'.map (Region.mk · names')) :=
  List.rel_map (fun _ _ ht => ⟨ht, hnames⟩) h

theorem regionsOfChild (hR : Correspondence R) (h : R t t') (k : NodeKind) :
    List.Forall₂ (Region.Corresponds R) ((t.child? k).toList.map (Region.mk · names))
      ((t'.child? k).toList.map (Region.mk · names')) :=
  (hR.child? h k).casesOn (fun hchild => regionsAt hnames (.cons hchild .nil)) .nil

theorem projectionRegions (hR : Correspondence R) (h : R t t') :
    List.Forall₂ (Region.Corresponds R) (t.projectionRegions names)
      (t'.projectionRegions names') := by
  have hcolumns : List.Forall₂ R t.columnExpressions t'.columnExpressions := by
    unfold Tree.columnExpressions
    refine (hR.child? h .projectionItems).casesOn (fun {items items'} hitems => ?_) .nil
    have hall : List.Forall₂ R (items.childrenOf .projectionItem)
        (items'.childrenOf .projectionItem) :=
      List.rel_filter (fun _ _ hi => by simp only [hR.is hi]) (hR.children hitems)
    have hexpression : ∀ i i', R i i' →
        Option.Rel R (i.child? .expression) (i'.child? .expression) :=
      fun _ _ hi => hR.child? hi .expression
    exact List.rel_filterMap hexpression hall
  have hmodifiers : List.Forall₂ R (t.children.filter isModifier) (t'.children.filter isModifier) :=
    List.rel_filter (fun _ _ ht => by simp only [isModifier, hR.is ht]) (hR.children h)
  have hvisible : List.Forall₂ (TextsOf R) (names ++ t.columns.map Variable.name)
      (names' ++ t'.columns.map Variable.name) :=
    List.rel_append hnames (map_name (hR.columns h))
  exact List.rel_append (regionsAt hnames hcolumns) (regionsAt hvisible hmodifiers)

theorem regions (hR : Correspondence R) (h : R t t') :
    List.Forall₂ (Region.Corresponds R) (t.regions names) (t'.regions names') := by
  unfold Tree.regions
  rw [← hR.kind h]
  cases t.kind
  case unwindClause | inQueryCall => exact regionsOfChild hnames hR h _
  case setClause | deleteClause | removeClause => exact .cons ⟨h, hnames⟩ .nil
  case withClause | returnClause =>
    exact (hR.child? h .projectionBody).casesOn
      (fun hbody => projectionRegions hnames hR hbody) .nil
  all_goals exact .nil

end

theorem regionsAll (hR : Correspondence R) {cs cs' : List Tree} (h : List.Forall₂ R cs cs')
    {before before' : List Tree} (hbefore : List.Forall₂ R before before') :
    List.Forall₂ (Region.Corresponds R) (Tree.regionsAll before cs)
      (Tree.regionsAll before' cs') := by
  induction h generalizing before before' with
  | nil => exact .nil
  | cons hc _ ih =>
      exact List.rel_append (regions (hR.namesAfter hbefore) hR hc)
        (ih (List.rel_append hbefore (.cons hc .nil)))

/-- **Names are read in corresponding regions.** -/
theorem readRegions (hR : Correspondence R) (h : R t t') :
    List.Forall₂ (Region.Corresponds R) t.readRegions t'.readRegions := by
  have htop := hR.top h
  unfold Tree.readRegions
  cases ht : t.top <;> cases ht' : t'.top <;> rw [ht, ht'] at htop
  · exact .nil
  · exact htop.elim
  · exact htop.elim
  · unfold topRegions
    simp only [← hR.is htop]
    split
    · exact regionsOfChild .nil hR htop _
    · exact hR.regionsAll (hR.stepsAll (hR.children htop)) .nil

/-! ### Unresolved variables -/

section

variable {P : Tree → Tree → Prop}

mutual

/-- What holds of corresponding nodes holds of them and of the nodes that they stand below. -/
theorem spotsBelow (hR : Correspondence R) : ∀ {t t' : Tree} {above above' : List Tree}, R t t' →
    (∀ m ∈ (t.preorder fun _ => true).zip (t'.preorder fun _ => true), P m.1 m.2) →
      List.Forall₂ P above above' →
        List.Forall₂ (Spot.Corresponds P) (t.spotsBelow above) (t'.spotsBelow above')
  | ⟨k, x, p, cs⟩, ⟨k', x', p', cs'⟩, above, above', h, hP, habove => by
      rw [Tree.preorder, Tree.preorder, if_pos rfl, if_pos rfl, List.zip_cons_cons] at hP
      obtain ⟨hroot, hbelow⟩ := List.forall_mem_cons.mp hP
      exact .cons ⟨hroot, habove⟩
        (spotsBelowAll hR (hR.children h) hbelow (.cons hroot habove))

theorem spotsBelowAll (hR : Correspondence R) : ∀ {cs cs' above above' : List Tree},
    List.Forall₂ R cs cs' →
      (∀ m ∈ (Tree.preorderAll (fun _ => true) cs).zip (Tree.preorderAll (fun _ => true) cs'),
        P m.1 m.2) → List.Forall₂ P above above' →
          List.Forall₂ (Spot.Corresponds P) (Tree.spotsBelowAll above cs)
            (Tree.spotsBelowAll above' cs')
  | [], _, _, _, .nil, _, _ => .nil
  | c :: cs, c' :: cs', _, _, .cons h hs, hP, habove => by
      have hlength : (c.preorder fun _ => true).length = (c'.preorder fun _ => true).length :=
        (hR.preorder (fun _ => rfl) h).length_eq
      rw [Tree.preorderAll, Tree.preorderAll, List.zip_append hlength] at hP
      exact List.rel_append
        (spotsBelow hR h (fun m hm => hP m (List.mem_append_left _ hm)) habove)
        (spotsBelowAll hR hs (fun m hm => hP m (List.mem_append_right _ hm)) habove)

end

end

end Tree.Correspondence

/-- That corresponding nodes of two regions which have a value or are variables both have the text
of a bound name or both have not. -/
def Region.SameBound (r r' : Region) (n n' : Tree) : Prop :=
  n.kind = n'.kind ∧ (n.kind.isExpression = true ∨ n.kind = .variableName →
    (n.text ∈ r.names ↔ n'.text ∈ r'.names))

/-- Nodes that correspond are unresolved together. -/
theorem Spot.Corresponds.unresolved_iff {r r' : Region} {s s' : Spot}
    (h : s.Corresponds (r.SameBound r') s') : s.Unresolved r.names ↔ s'.Unresolved r'.names := by
  have habove : ∀ {ns ns' : List Tree}, List.Forall₂ (r.SameBound r') ns ns' →
      ((∀ n ∈ ns, n.kind.isExpression = true → n.text ∉ r.names) ↔
        ∀ n ∈ ns', n.kind.isExpression = true → n.text ∉ r'.names) := by
    intro ns ns' hns
    induction hns with
    | nil => simp
    | cons hn _ ih =>
        rw [List.forall_mem_cons, List.forall_mem_cons, ih, ← hn.1]
        refine and_congr_left fun _ => forall_congr' fun hk => ?_
        rw [hn.2 (.inl hk)]
  obtain ⟨hkind, hbound⟩ := h.node
  rw [Unresolved, Unresolved, habove h.above, ← hkind]
  exact and_congr_right fun hk => by rw [hbound (.inr hk)]

/-- In two regions variables are unresolved together, if the same nodes have the text of a bound
name. -/
theorem Region.Corresponds.unresolved {R : Tree → Tree → Prop} {r r' : Region}
    (h : r.Corresponds R r') (hR : Tree.Correspondence R)
    (hbound : ∀ m ∈ r.nodes.zip r'.nodes, R m.1 m.2 → r.SameBound r' m.1 m.2) :
    List.Forall₂ R r.unresolved r'.unresolved := by
  have hnodes := List.forall₂_iff_zip.mp (hR.descendants h.root)
  have hspots : List.Forall₂ (Spot.Corresponds fun n n' => R n n' ∧ r.SameBound r' n n')
      r.root.spots r'.root.spots := by
    refine hR.spotsBelow h.root (fun m hm => ?_) .nil
    rw [← Tree.walk_eq_preorder, ← Tree.walk_eq_preorder] at hm
    have hm' := hnodes.2 hm
    exact ⟨hm', hbound m hm hm'⟩
  refine List.rel_map (fun s s' hs => hs.node.1) (List.rel_filter (fun s s' hs => ?_) hspots)
  have hsame : s.Corresponds (r.SameBound r') s' := ⟨hs.node.2, hs.above.imp fun _ _ hn => hn.2⟩
  simp only [decide_eq_true_eq]
  exact hsame.unresolved_iff

/-- **Variables are unresolved together**, if in corresponding regions the same nodes have the text
of a bound name. -/
theorem Tree.Correspondence.unresolved {R : Tree → Tree → Prop} (hR : Correspondence R)
    {t t' : Tree} (h : R t t')
    (hbound : ∀ r ∈ t.readRegions.zip t'.readRegions, r.1.Corresponds R r.2 →
      ∀ m ∈ r.1.nodes.zip r.2.nodes, R m.1 m.2 → r.1.SameBound r.2 m.1 m.2) :
    List.Forall₂ R t.unresolved t'.unresolved := by
  obtain ⟨hlength, hregions⟩ := List.forall₂_iff_zip.mp (hR.readRegions h)
  have hunresolved : List.Forall₂ (fun r r' => List.Forall₂ R r.unresolved r'.unresolved)
      t.readRegions t'.readRegions :=
    List.forall₂_iff_zip.mpr ⟨hlength, fun hr =>
      (hregions hr).unresolved hR (hbound _ hr (hregions hr))⟩
  rw [unresolved_eq, unresolved_eq]
  exact List.rel_flatMap hunresolved fun _ _ hr => hr

end BindCheck

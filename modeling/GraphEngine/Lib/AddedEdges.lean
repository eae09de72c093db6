import GraphEngine.Lib.Contraction

/-! Edges are added to a graph without a cycle. It stays without one if the targets of the added edges rise along every
path, in some strict order. -/

namespace GraphEngine.Lib
open Relation
variable {V : Type} {edge added before : V → V → Prop}

def WithEdges (edge added : V → V → Prop) (a b : V) : Prop := edge a b ∨ added a b

theorem WithEdges.of_path {a b : V} (path : TransGen edge a b) : TransGen (WithEdges edge added) a b :=
  TransGen.mono (fun _ _ => Or.inl) _ _ path

def Rises (edge added before : V → V → Prop) : Prop :=
  ∀ a b c d, added a b → ReflTransGen edge b c → added c d → before b d

theorem WithEdges.path_cases (transitive : ∀ a b c, before a b → before b c → before a c) (rises : Rises edge added before)
    {x y : V} (path : TransGen (WithEdges edge added) x y) :
    TransGen edge x y ∨ ∃ a b c d, ReflTransGen edge x a ∧ added a b ∧ added c d ∧ ReflTransGen edge d y ∧
      (b = d ∨ before b d) := by
  induction path with
  | single step =>
    rcases step with step | step
    · exact .inl (.single step)
    · exact .inr ⟨_,_,_,_,.refl,step,step,.refl,.inl rfl⟩
  | tail _ step ih =>
    rcases ih with old | ⟨a,b,c,d,toFirst,first,last,fromLast,order⟩
    · rcases step with step | step
      · exact .inl (old.tail step)
      · exact .inr ⟨_,_,_,_,old.to_reflTransGen,step,step,.refl,.inl rfl⟩
    · rcases step with step | step
      · exact .inr ⟨a,b,c,d,toFirst,first,last,fromLast.tail step,order⟩
      · refine .inr ⟨a,b,_,_,toFirst,first,step,.refl,.inr ?_⟩
        have rise := rises c d _ _ last fromLast step
        rcases order with rfl | order
        · exact rise
        · exact transitive _ _ _ order rise

theorem acyclic_of_rank (rank : V → Nat) (grows : ∀ a b, edge a b → rank a < rank b) : Acyclic edge := by
  have path : ∀ a b, TransGen edge a b → rank a < rank b := by
    intro a b walk
    induction walk with
    | single step => exact grows _ _ step
    | tail _ step ih => exact ih.trans (grows _ _ step)
  intro v cycle
  exact lt_irrefl _ (path v v cycle)

theorem Acyclic.withEdges (acyclic : Acyclic edge) (irreflexive : ∀ a, ¬before a a)
    (transitive : ∀ a b c, before a b → before b c → before a c) (rises : Rises edge added before) :
    Acyclic (WithEdges edge added) := by
  intro x cycle
  rcases WithEdges.path_cases transitive rises cycle with old | ⟨a,b,c,d,toFirst,first,last,fromLast,order⟩
  · exact acyclic x old
  · have around := rises c d a b last (fromLast.trans toFirst) first
    rcases order with rfl | order
    · exact irreflexive _ around
    · exact irreflexive _ (transitive _ _ _ order around)

end GraphEngine.Lib

import Mathlib.Logic.Relation

/-! A vertex is cut out of a graph. Paths between the other vertices stay exactly if each of its predecessors still reaches
each of its successors: around the vertex, or over one of the edges that were added for it. -/
namespace GraphEngine.Lib

open Relation (TransGen ReflTransGen)

variable {V : Type} {r s : V → V → Prop} {cut : V}

def Bypassed (r s : V → V → Prop) (cut : V) : Prop := ∀ a b, r a cut → r cut b → TransGen s a b

theorem Bypassed.path (bypassed : Bypassed r s cut) (noLoop : ¬ r cut cut)
    (kept : ∀ a b, a ≠ cut → b ≠ cut → r a b → s a b) {a b : V} (other : a ≠ cut) (bOther : b ≠ cut)
    (path : TransGen r a b) : TransGen s a b := by
  -- A path that begins at the vertex itself is replaced together with the edge into it.
  have both : (a ≠ cut → TransGen s a b) ∧ (a = cut → ∀ c, r c cut → TransGen s c b) := by
    clear other
    induction path using TransGen.head_induction_on with
    | single edge => exact ⟨fun other => .single (kept _ _ other bOther edge),fun same c into => bypassed c b into (same ▸ edge)⟩
    | @head a x edge _ ih =>
      by_cases through : x = cut
      · subst through
        exact ⟨fun _ => ih.2 rfl a edge,fun same => absurd (same ▸ edge) noLoop⟩
      · have rest := ih.1 through
        exact ⟨fun other => .head (kept _ _ other through edge) rest,
          fun same c into => (bypassed c x into (same ▸ edge)).trans rest⟩
  exact both.1 other

section Bridges
variable {joins : V → V → Prop} {a b : V}

/-- The edges between the other vertices. -/
def Around (r : V → V → Prop) (cut u v : V) : Prop := r u v ∧ u ≠ cut ∧ v ≠ cut

/-- A path around the vertex, or one over an added edge. -/
def Bridged (r joins : V → V → Prop) (cut a b : V) : Prop :=
  TransGen (Around r cut) a b ∨
    ∃ c d, joins c d ∧ ReflTransGen (Around r cut) a c ∧ ReflTransGen (Around r cut) d b

/-- A path over two added edges would close a cycle. -/
theorem bridged_iff_path (acyclic : ∀ v, ¬TransGen r v v) (ends : ∀ c d, joins c d → r c cut ∧ r cut d) :
    Bridged r joins cut a b ↔ TransGen (fun u v => Around r cut u v ∨ joins u v) a b := by
  constructor
  · rintro (path | ⟨c,d,joined,before,behind⟩)
    · exact TransGen.mono (fun _ _ => .inl) _ _ path
    · exact TransGen.trans_right (ReflTransGen.mono (fun _ _ => .inl) _ _ before)
        (.head' (.inr joined) (ReflTransGen.mono (fun _ _ => .inl) _ _ behind))
  · intro path
    induction path with
    | single step =>
      rcases step with edge | joined
      · exact .inl (.single edge)
      · exact .inr ⟨a,_,joined,.refl,.refl⟩
    | @tail v w _ step ih =>
      rcases step with edge | joined
      · rcases ih with path | ⟨c,d,joined,before,behind⟩
        · exact .inl (path.tail edge)
        · exact .inr ⟨c,d,joined,before,behind.tail edge⟩
      · rcases ih with path | ⟨c,d,first,-,between⟩
        · exact .inr ⟨v,w,joined,path.to_reflTransGen,.refl⟩
        · have back : ReflTransGen r d v := ReflTransGen.mono (fun _ _ edge => edge.1) _ _ between
          exact absurd (TransGen.head' (ends c d first).2 (back.tail (ends v w joined).1)) (acyclic cut)

/-- Paths are kept if and only if each predecessor of the vertex is bridged with each successor. -/
theorem paths_iff_bridged (acyclic : ∀ v, ¬TransGen r v v) (joined : ∀ c d, joins c d → r c cut ∧ r cut d) {old : V → Prop}
    (ends : ∀ a, r a cut ∨ r cut a → old a) (others : ∀ a, old a → a ≠ cut) :
    (∀ a b, old a → old b → (TransGen (fun u v => Around r cut u v ∨ joins u v) a b ↔ TransGen r a b)) ↔
      ∀ a b, r a cut → r cut b → Bridged r joins cut a b := by
  simp only [bridged_iff_path acyclic joined]
  refine ⟨fun paths a b into out => ?_,fun bypassed a b aOld bOld => ⟨fun path => TransGen.closed ?_ _ _ path,?_⟩⟩
  · exact (paths a b (ends a (.inl into)) (ends b (.inr out))).mpr (.tail (.single into) out)
  · rintro u v (edge | joins)
    · exact .single edge.1
    · exact .tail (.single (joined u v joins).1) (joined u v joins).2
  · exact Bypassed.path bypassed (fun loop => acyclic cut (.single loop))
      (fun u v uOther vOther edge => .inl ⟨edge,uOther,vOther⟩)
      (others a aOld) (others b bOld)

end Bridges

end GraphEngine.Lib

import Mathlib.Logic.Relation

/-! Reachability when the members of a set are connected with each other. -/

namespace GraphEngine.Lib
open Relation
variable {V : Type*} {r : V → V → Prop} {members : List V} {x y : V}

def WithClique (r : V → V → Prop) (members : List V) (a b : V) : Prop := r a b ∨ a ∈ members ∧ b ∈ members

theorem reach_withClique : ReflTransGen (WithClique r members) x y ↔
    ReflTransGen r x y ∨ ∃ s ∈ members, ∃ t ∈ members, ReflTransGen r x s ∧ ReflTransGen r t y := by
  constructor
  · intro path
    induction path with
    | refl => exact .inl .refl
    | @tail b c _ step ih =>
      rcases step with edge | ⟨leaves,enters⟩
      · rcases ih with direct | ⟨s,isS,t,isT,first,second⟩
        · exact .inl (direct.tail edge)
        · exact .inr ⟨s,isS,t,isT,first,second.tail edge⟩
      · rcases ih with direct | ⟨s,isS,_,_,first,_⟩
        · exact .inr ⟨b,leaves,c,enters,direct,.refl⟩
        · exact .inr ⟨s,isS,c,enters,first,.refl⟩
  · have keep : ∀ {a b}, ReflTransGen r a b → ReflTransGen (WithClique r members) a b :=
      fun path => ReflTransGen.mono (fun _ _ => Or.inl) _ _ path
    rintro (direct | ⟨s,isS,t,isT,first,second⟩)
    · exact keep direct
    · exact ((keep first).tail (.inr ⟨isS,isT⟩)).trans (keep second)

theorem reach_of_no_successor (none_ : ∀ b, ¬r x b) : ReflTransGen r x y ↔ x = y := by
  constructor
  · intro path
    rcases path.cases_head with same | ⟨b,step,_⟩
    · exact same
    · exact absurd step (none_ b)
  · rintro rfl
    exact .refl

theorem reach_of_no_predecessor (none_ : ∀ a, ¬r a y) : ReflTransGen r x y ↔ x = y := by
  constructor
  · intro path
    rcases path.cases_tail with same | ⟨a,_,step⟩
    · exact same.symm
    · exact absurd step (none_ a)
  · rintro rfl
    exact .refl

end GraphEngine.Lib

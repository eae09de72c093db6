import Mathlib.Data.Fintype.Order

/-! Contracting disjoint parts of an acyclic relation, each to one point. A cycle of the contraction leaves one
part and comes back to it, or goes around through several parts. -/
namespace GraphEngine.Lib

open Relation

def Acyclic {V : Type} (r : V → V → Prop) : Prop := ∀ v, ¬TransGen r v v

variable {V : Type} {r : V → V → Prop}

theorem Acyclic.wellFounded [Finite V] (acyclic : Acyclic r) : WellFounded (TransGen r) := by
  have : IsTrans V (TransGen r) := ⟨fun _ _ _ => .trans⟩
  have : Std.Irrefl (TransGen r) := ⟨acyclic⟩
  exact Finite.wellFounded_of_trans_of_irrefl _

theorem Acyclic.swap (acyclic : Acyclic r) : Acyclic (Function.swap r) := by
  intro v around
  exact acyclic v (transGen_swap.mp around)

def Contracted {V W : Type} (r : V → V → Prop) (image : V → W) (a b : W) : Prop :=
  a ≠ b ∧ ∃ u v, image u = a ∧ image v = b ∧ r u v

/-- The parts are the fibres over `inr`, every other point stays itself. -/
structure Parts {V I : Type} (image : V → V ⊕ I) : Prop where
  single : ∀ {u v}, image u = .inl v → u = v

section Contraction
variable {V I : Type} {r : V → V → Prop} {image : V → V ⊕ I}

def Leaves (r : V → V → Prop) (image : V → V ⊕ I) (a b : V ⊕ I) : Prop :=
  ∃ u p v, image u = a ∧ r u p ∧ image p ≠ a ∧ ReflTransGen r p v ∧ image v = b

def Between (r : V → V → Prop) (image : V → V ⊕ I) (i j : I) : Prop :=
  i ≠ j ∧ ∃ u v, image u = .inr i ∧ image v = .inr j ∧ ReflTransGen r u v

variable {a b : V ⊕ I} {v : V} {i : I}

theorem Contracted.leaves (step : Contracted r image a b) : Leaves r image a b := by
  obtain ⟨other,u,v,atA,atB,edge⟩ := step
  refine ⟨u,v,v,atA,edge,?_,.refl,atB⟩
  rw [atB]
  exact other.symm

theorem contracted_of_path {u : V} (path : ReflTransGen r u v) : ReflTransGen (Contracted r image) (image u) (image v) := by
  induction path with
  | refl => exact .refl
  | tail before edge ih =>
    rename_i v w
    by_cases same : image v = image w
    · rw [← same]
      exact ih
    · exact ih.tail ⟨same,v,w,rfl,rfl,edge⟩

theorem Leaves.contracted (leaves : Leaves r image a b) : TransGen (Contracted r image) a b := by
  obtain ⟨u,p,v,rfl,edge,away,path,rfl⟩ := leaves
  exact TransGen.head' ⟨away.symm,u,p,rfl,rfl,edge⟩ (contracted_of_path path)

theorem Between.contracted {j : I} (between : Between r image i j) : TransGen (Contracted r image) (.inr i) (.inr j) := by
  obtain ⟨other,u,v,atI,atJ,path⟩ := between
  have walk : ReflTransGen (Contracted r image) (image u) (image v) := contracted_of_path path
  rw [atI,atJ] at walk
  rcases reflTransGen_iff_eq_or_transGen.mp walk with same | walk
  · exact absurd (Sum.inr.inj same).symm other
  · exact walk

variable (parts : Parts image)
include parts

theorem walk_cut (walk : TransGen (Contracted r image) (.inr i) b) :
    ∃ j, ReflTransGen (fun i j => Leaves r image (.inr i) (.inr j)) i j ∧ Leaves r image (.inr j) b := by
  induction walk with
  | single step => exact ⟨i,.refl,step.leaves⟩
  | tail before step ih =>
    rename_i b c
    obtain ⟨j,visited,leaves⟩ := ih
    cases b with
    | inl v =>
      obtain ⟨u,p,v,atA,edge,away,path,atB⟩ := leaves
      obtain ⟨-,v',w,atB',atC,next⟩ := step
      obtain rfl : v = v' := (parts.single atB).trans (parts.single atB').symm
      exact ⟨j,visited,u,p,w,atA,edge,away,path.tail next,atC⟩
    | inr k => exact ⟨k,visited.tail leaves,step.leaves⟩

theorem walk_single (walk : TransGen (Contracted r image) (.inl v) b) :
    (∃ i, ReflTransGen (Contracted r image) (.inl v) (.inr i) ∧ ReflTransGen (Contracted r image) (.inr i) b) ∨
      ∃ w, b = image w ∧ TransGen r v w := by
  induction walk with
  | single step =>
    obtain ⟨-,u,w,atV,rfl,edge⟩ := step
    rw [parts.single atV] at edge
    exact .inr ⟨w,rfl,.single edge⟩
  | tail before step ih =>
    rename_i b c
    rcases ih with ⟨i,enter,leave⟩ | ⟨w,isW,path⟩
    · exact .inl ⟨i,enter,leave.tail step⟩
    · cases b with
      | inr i => exact .inl ⟨i,before.to_reflTransGen,.single step⟩
      | inl x =>
        obtain ⟨-,u,y,atX,rfl,edge⟩ := step
        have atW : w = x := parts.single isW.symm
        rw [parts.single atX,← atW] at edge
        exact .inr ⟨y,rfl,path.tail edge⟩

/-- The contraction of an acyclic relation is acyclic exactly if no path leaves a part and comes back to it, and no
paths go around through several parts. -/
theorem contracted_acyclic_iff (acyclic : Acyclic r) :
    Acyclic (Contracted r image) ↔ (∀ i, ¬Leaves r image (.inr i) (.inr i)) ∧ Acyclic (Between r image) := by
  constructor
  · intro none
    refine ⟨fun i leaves => none _ leaves.contracted,?_⟩
    intro i around
    have walk : ∀ {j}, TransGen (Between r image) i j → TransGen (Contracted r image) (.inr i) (.inr j) := by
      intro j path
      induction path with
      | single step => exact step.contracted
      | tail before step ih => exact ih.trans step.contracted
    exact none _ (walk around)
  · rintro ⟨convex,around⟩
    have noPart : ∀ i, ¬TransGen (Contracted r image) (.inr i) (.inr i) := by
      intro i walk
      obtain ⟨j,visited,back⟩ := walk_cut parts walk
      have closed : TransGen (fun i j => Leaves r image (.inr i) (.inr j)) i i := TransGen.tail' visited back
      refine around i (TransGen.mono ?_ _ _ closed)
      rintro j k ⟨u,p,v,atJ,edge,away,path,atK⟩
      refine ⟨?_,u,v,atJ,atK,.head edge path⟩
      rintro rfl
      exact convex j ⟨u,p,v,atJ,edge,away,path,atK⟩
    intro a walk
    cases a with
    | inr i => exact noPart i walk
    | inl v =>
      rcases walk_single parts walk with ⟨i,enter,leave⟩ | ⟨w,isV,path⟩
      · rcases reflTransGen_iff_eq_or_transGen.mp leave with same | leave
        · cases same
        · exact noPart i (leave.trans_left enter)
      · rw [parts.single isV.symm] at path
        exact acyclic v path

end Contraction
end GraphEngine.Lib

import Mathlib.Data.List.Induction
import Mathlib.Data.List.Nodup
import Mathlib.Data.Nat.Basic

/-! The output list of a fast graph. A node keeps the positions of its entries; a removed entry leaves a hole, so that
positions do not move. -/
namespace GraphEngine.FastGraph

open List

variable {Node : Type} [DecidableEq Node]

structure GraphOutputs (Node : Type) where
  outputNodes : List (Option (Node × Int))
  outputIndex : Node → List Nat

namespace GraphOutputs

def empty : GraphOutputs Node := ⟨[],fun _ => []⟩

section Calls
variable (outputs : GraphOutputs Node)

/-- The test compares the index of the entry with its position, not with the index that is added. -/
def alreadyHave (node : Node) : Bool :=
  (outputs.outputIndex node).any fun item => outputs.outputNodes[item]? = some (some (node,(item : Int)))

def addOutputNodeByIndex (node : Node) (index : Int) : GraphOutputs Node :=
  if outputs.alreadyHave node then outputs
  else
    { outputNodes := outputs.outputNodes ++ [some (node,index)]
      outputIndex := Function.update outputs.outputIndex node (outputs.outputIndex node ++ [outputs.outputNodes.length]) }

def holds (outputNodes : List (Option (Node × Int))) (node : Node) (item : Nat) : Bool :=
  (outputNodes[item]?.join.map Prod.fst) = some node

/-- The loop of `RemoveOutputNode`: the positions that stay and the list. -/
def removeLoop (node : Node) : List Nat → List (Option (Node × Int)) → List Nat × List (Option (Node × Int))
  | [],outputNodes => ([],outputNodes)
  | item :: rest,outputNodes =>
    if holds outputNodes node item then removeLoop node rest (outputNodes.set item none)
    else
      let result := removeLoop node rest outputNodes
      (item :: result.1,result.2)

def removeOutputNode (node : Node) : GraphOutputs Node :=
  let result := removeLoop node (outputs.outputIndex node) outputs.outputNodes
  ⟨result.2,Function.update outputs.outputIndex node result.1⟩

inductive Call (Node : Type) where
  | add (node : Node) (index : Int)
  | remove (node : Node)
  deriving DecidableEq, Repr

def exec : Call Node → GraphOutputs Node
  | .add node index => outputs.addOutputNodeByIndex node index
  | .remove node => outputs.removeOutputNode node

def run (calls : List (Call Node)) : GraphOutputs Node := calls.foldl exec empty

def entries : List (Node × Int) := outputs.outputNodes.filterMap id

def Added (calls : List (Call Node)) (entry : Node × Int) : Prop :=
  ∃ before after, calls = before ++ .add entry.1 entry.2 :: after ∧ .remove entry.1 ∉ after

structure Exact (calls : List (Call Node)) : Prop where
  once : (run calls).entries.Nodup
  added : ∀ entry, entry ∈ (run calls).entries ↔ Added calls entry

def Tested (node : Node) (index : Int) : Prop :=
  outputs.alreadyHave node ↔ (node,index) ∈ outputs.entries

structure Positions : Prop where
  held : ∀ node item, item ∈ outputs.outputIndex node ↔ holds outputs.outputNodes node item
  nodup : ∀ node, (outputs.outputIndex node).Nodup

end Calls

variable {outputNodes : List (Option (Node × Int))} {node : Node} {item : Nat} {outputs : GraphOutputs Node}
  {done : List (Call Node)}

theorem holds_append {other : Node} {index : Int} : holds (outputNodes ++ [some (other,index)]) node item ↔
      holds outputNodes node item ∨ (item = outputNodes.length ∧ node = other) := by
  rcases lt_trichotomy item outputNodes.length with inside | rfl | outside
  · simp [holds,getElem?_append_left inside,Nat.ne_of_lt inside]
  · simp [holds,eq_comm]
  · have past : (outputNodes ++ [some (other,index)])[item]? = none := by
      rw [List.getElem?_eq_none_iff,length_append]
      exact outside
    simp [holds,getElem?_eq_none (le_of_lt outside),past,Nat.ne_of_gt outside]

theorem holds_lt (there : holds outputNodes node item) : item < outputNodes.length := by
  rcases lt_or_ge item outputNodes.length with inside | outside
  · exact inside
  · simp [holds,getElem?_eq_none outside] at there

theorem holds_set {other : Nat} :
    holds (outputNodes.set item none) node other ↔ holds outputNodes node other ∧ other ≠ item := by
  rw [holds,getElem?_set]
  split
  · rename_i same
    subst same
    split <;> simp
  · rename_i different
    simp [holds,Ne.symm different]

theorem removeLoop_spec {items : List Nat} (held : ∀ item ∈ items, holds outputNodes node item) (nodup : items.Nodup) :
    (removeLoop node items outputNodes).1 = [] ∧ ∀ i, (removeLoop node items outputNodes).2[i]? =
      if i ∈ items then some none else outputNodes[i]? := by
  induction items generalizing outputNodes with
  | nil => exact ⟨rfl,fun i => by simp [removeLoop]⟩
  | cons item rest ih =>
    obtain ⟨fresh,nodup⟩ := nodup_cons.mp nodup
    have here := held item mem_cons_self
    have later : ∀ other ∈ rest, holds (outputNodes.set item none) node other := by
      intro other there
      refine holds_set.mpr ⟨held other (mem_cons_of_mem _ there),?_⟩
      intro same
      exact fresh (same ▸ there)
    obtain ⟨gone,slots⟩ := ih later nodup
    rw [removeLoop,if_pos here]
    refine ⟨gone,?_⟩
    intro i
    have inside := holds_lt here
    rw [slots,getElem?_set]
    rcases eq_or_ne item i with rfl | different
    · simp [fresh,inside]
    · simp [different,Ne.symm different]

section

variable (positions : Positions outputs)
include positions

theorem removeOutputNode_slots (node : Node) : (outputs.removeOutputNode node).outputIndex node = [] ∧
      (outputs.removeOutputNode node).outputNodes = outputs.outputNodes.map (Option.filter (·.1 ≠ node)) := by
  obtain ⟨gone,slots⟩ := removeLoop_spec (fun item there => (positions.held node item).mp there) (positions.nodup node)
  refine ⟨by simp [removeOutputNode,gone],?_⟩
  apply ext_getElem?
  intro i
  rw [removeOutputNode,slots,getElem?_map]
  simp only [positions.held]
  cases entry : outputs.outputNodes[i]? with
  | none => simp [holds,entry]
  | some entry' =>
    cases entry' with
    | none => simp [holds,entry]
    | some pair =>
      rcases eq_or_ne pair.1 node with same | different
      · simp [holds,entry,same,Option.filter]
      · simp [holds,entry,different,Option.filter]

theorem Positions.add (node : Node) (index : Int) : Positions (outputs.addOutputNodeByIndex node index) := by
  rw [addOutputNodeByIndex]
  split
  · exact positions
  · refine ⟨?_,?_⟩
    · intro other item
      rw [holds_append,← positions.held]
      rcases eq_or_ne other node with rfl | different
      · simp
      · simp [different]
    · intro other
      rcases eq_or_ne other node with rfl | different
      · have fresh : outputs.outputNodes.length ∉ outputs.outputIndex other := by
          intro there
          exact absurd (holds_lt ((positions.held _ _).mp there)) (lt_irrefl _)
        simpa only [Function.update_self,concat_eq_append] using (positions.nodup other).concat fresh
      · simpa [different] using positions.nodup other

theorem Positions.remove (node : Node) : Positions (outputs.removeOutputNode node) := by
  obtain ⟨gone,slots⟩ := removeOutputNode_slots positions node
  have others {other : Node} (different : other ≠ node) :
      (outputs.removeOutputNode node).outputIndex other = outputs.outputIndex other :=
    Function.update_of_ne different _ _
  refine ⟨?_,?_⟩
  · intro other item
    have kept : holds (outputs.removeOutputNode node).outputNodes other item ↔
        holds outputs.outputNodes other item ∧ other ≠ node := by
      rw [slots,holds,holds,getElem?_map]
      rcases outputs.outputNodes[item]? with _ | _ | pair
      · simp
      · simp
      · rcases eq_or_ne pair.1 node with same | different
        · simp [Option.filter,same,eq_comm]
        · simp only [Option.filter,different,Option.map_some,ne_eq,not_false_eq_true,decide_true,if_true,Option.join_some,
            Option.some.injEq,decide_eq_true_eq]
          exact ⟨fun same => ⟨same,same ▸ different⟩,And.left⟩
    rw [kept,← positions.held]
    rcases eq_or_ne other node with rfl | different
    · simp [gone]
    · simp [others different,different]
  · intro other
    rcases eq_or_ne other node with rfl | different
    · rw [gone]
      exact nodup_nil
    · rw [others different]
      exact positions.nodup other

end

theorem run_snoc (done : List (Call Node)) (call : Call Node) : run (done ++ [call]) = (run done).exec call := by
  rw [run,foldl_append]
  rfl

theorem positions_run (calls : List (Call Node)) : Positions (run calls) := by
  induction calls using List.reverseRecOn with
  | nil => exact ⟨fun node item => by simp [run,empty,holds],fun _ => nodup_nil⟩
  | append_singleton done call ih =>
    rw [run_snoc]
    cases call with
    | add node index => exact ih.add node index
    | remove node => exact ih.remove node

omit [DecidableEq Node] in
theorem added_add (done : List (Call Node)) (node : Node) (index : Int) (entry : Node × Int) :
    Added (done ++ [.add node index]) entry ↔ entry = (node,index) ∨ Added done entry := by
  refine ⟨?_,?_⟩
  · intro ⟨before,after,split,kept⟩
    rcases eq_nil_or_concat' after with rfl | ⟨after,last,rfl⟩
    · obtain ⟨-,same⟩ := append_inj' split rfl
      injection same with same
      injection same with first second
      exact Or.inl (Prod.ext first.symm second.symm)
    · rw [← cons_append,← append_assoc] at split
      obtain ⟨same,-⟩ := append_inj' split rfl
      exact Or.inr ⟨before,after,same,fun there => kept (mem_append_left _ there)⟩
  · intro either
    rcases either with rfl | ⟨before,after,rfl,kept⟩
    · exact ⟨done,[],rfl,not_mem_nil⟩
    · exact ⟨before,after ++ [.add node index],by simp,by simpa using kept⟩

omit [DecidableEq Node] in
theorem added_remove (done : List (Call Node)) (node : Node) (entry : Node × Int) :
    Added (done ++ [.remove node]) entry ↔ Added done entry ∧ entry.1 ≠ node := by
  refine ⟨?_,?_⟩
  · intro ⟨before,after,split,kept⟩
    rcases eq_nil_or_concat' after with rfl | ⟨after,last,rfl⟩
    · obtain ⟨-,same⟩ := append_inj' split rfl
      injection same with same
      injection same
    · rw [← cons_append,← append_assoc] at split
      obtain ⟨same,tail⟩ := append_inj' split rfl
      injection tail with tail
      subst tail
      refine ⟨⟨before,after,same,fun there => kept (mem_append_left _ there)⟩,?_⟩
      intro removed
      exact kept (by simp [removed])
  · intro ⟨⟨before,after,split,kept⟩,different⟩
    exact ⟨before,after ++ [.remove node],by simp [split],by simpa [kept] using different⟩

theorem Exact.remove (exact : Exact done) (node : Node) : Exact (done ++ [.remove node]) := by
  have entries : (run (done ++ [.remove node])).entries = (run done).entries.filter (·.1 ≠ node) := by
    rw [run_snoc]
    change (removeOutputNode ..).entries = _
    rw [entries,entries,(removeOutputNode_slots (positions_run done) node).2]
    simp [filterMap_map,filter_filterMap]
  refine ⟨?_,?_⟩
  · rw [entries]
    exact exact.once.filter _
  · intro entry
    rw [entries,added_remove,mem_filter,exact.added,decide_eq_true_eq]

theorem Exact.add_iff (exact : Exact done) (node : Node) (index : Int) :
    Exact (done ++ [.add node index]) ↔ Tested (run done) node index := by
  have entries : (run (done ++ [.add node index])).entries =
      if (run done).alreadyHave node then (run done).entries else (run done).entries ++ [(node,index)] := by
    rw [run_snoc]
    change (addOutputNodeByIndex ..).entries = _
    rw [addOutputNodeByIndex]
    split
    · rfl
    · simp [entries]
  rw [Tested]
  refine ⟨?_,?_⟩
  · intro ⟨once,added⟩
    have there := (added (node,index)).mpr ((added_add done node index _).mpr (Or.inl rfl))
    rw [entries] at once there
    split at once
    · rename_i have_
      rw [if_pos have_] at there
      exact ⟨fun _ => there,fun _ => have_⟩
    · rename_i none
      refine ⟨fun have_ => absurd have_ none,?_⟩
      intro before
      exact absurd rfl ((nodup_append.mp once).2.2 _ before _ (mem_singleton.mpr rfl))
  · intro tested
    cases have_ : (run done).alreadyHave node with
    | true =>
      have there := tested.mp have_
      rw [have_,if_pos rfl] at entries
      refine ⟨by rw [entries]; exact exact.once,?_⟩
      intro entry
      rw [entries,added_add,← exact.added]
      exact ⟨Or.inr,fun either => either.elim (fun same => same ▸ there) id⟩
    | false =>
      have fresh : (node,index) ∉ (run done).entries := by
        intro there
        exact absurd (tested.mpr there) (by simp [have_])
      rw [have_,if_neg (by simp)] at entries
      refine ⟨?_,?_⟩
      · rw [entries,← concat_eq_append]
        exact exact.once.concat fresh
      · intro entry
        rw [entries,added_add,← exact.added,mem_append,mem_singleton,or_comm]

/-- After every call the outputs are those added since the last removal of their node, each once, if and only if every
addition takes its node for known just when the same entry is there. -/
theorem outputs_exact_iff (calls : List (Call Node)) : (∀ done rest, calls = done ++ rest → Exact done) ↔
    ∀ done node index rest, calls = done ++ .add node index :: rest → Tested (run done) node index := by
  refine ⟨?_,?_⟩
  · intro exact done node index rest split
    have now : Exact (done ++ [.add node index]) := exact _ rest (by simp [split])
    exact ((exact done _ split).add_iff node index).mp now
  · intro tested done
    induction done using List.reverseRecOn with
    | nil => exact fun _ _ => ⟨nodup_nil,fun entry => by simp [run,empty,entries,Added]⟩
    | append_singleton done call ih =>
      intro rest split
      rw [append_assoc,singleton_append] at split
      have before := ih _ split
      cases call with
      | add node index => exact (before.add_iff node index).mpr (tested done node index rest split)
      | remove node => exact before.remove node

/-- The first entry has index and position zero: the next index of the node is taken for it. -/
theorem second_index_lost : ¬Exact [Call.add 'n' 0,Call.add 'n' 1] := by
  intro exact
  have there := (exact.added ('n',1)).mpr ⟨[.add 'n' 0],[],rfl,not_mem_nil⟩
  exact absurd there (by decide)

end GraphOutputs
end GraphEngine.FastGraph

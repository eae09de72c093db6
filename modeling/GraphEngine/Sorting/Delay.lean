import GraphEngine.Sorting.Counting

/-! The delay step. A block of nodes moves in front of the first consumer of its last node. A block is only moved on
if the nodes before its last one have all their consumers in the block. -/

namespace GraphEngine.Sorting
open Lib List Option
open Prod (snd)
variable {Node : Type} [DecidableEq Node] {graph : ComputeGraph Node}

section Ids

theorem foldl_setId (nodes : List Node) (offset : Nat) (ids : Node → Nat) (nodup : nodes.Nodup) (node : Node) :
    (nodes.zipIdx offset).foldl (fun ids entry => Function.update ids entry.1 entry.2) ids node =
      if node ∈ nodes then offset + nodes.idxOf node else ids node := by
  induction nodes generalizing offset ids with
  | nil => simp
  | cons first nodes ih =>
    obtain ⟨fresh,nodup⟩ := nodup_cons.mp nodup
    rw [zipIdx_cons,foldl_cons,ih _ _ nodup]
    by_cases here : node = first
    · subst here
      simp [fresh]
    · simp only [mem_cons,here,false_or,idxOf_cons_ne nodes (Ne.symm here),Function.update_of_ne here]
      split
      · omega
      · rfl

theorem setIds_eq {nodes : List Node} {ids : Node → Nat} (nodup : nodes.Nodup) {i : Nat} {node : Node}
    (atI : nodes[i]? = some node) : setIds nodes ids node = i := by
  have known : node ∈ nodes := mem_iff_getElem?.mpr ⟨i,atI⟩
  have position : nodes.idxOf node = i := by
    obtain ⟨less,isNode⟩ := List.getElem?_eq_some_iff.mp atI
    rw [← isNode]
    exact nodup.idxOf_getElem i less
  rw [setIds,foldl_setId nodes 0 ids nodup,if_pos known,position]
  omega

theorem setIds_inj {nodes : List Node} {ids : Node → Nat} (nodup : nodes.Nodup) (all : ∀ node, node ∈ nodes) (u v : Node)
    (same : setIds nodes ids u = setIds nodes ids v) : u = v := by
  obtain ⟨i,atI⟩ := mem_iff_getElem?.mp (all u)
  obtain ⟨j,atJ⟩ := mem_iff_getElem?.mp (all v)
  rw [setIds_eq nodup atI,setIds_eq nodup atJ] at same
  rw [same,atJ] at atI
  exact (some.inj atI).symm

end Ids

section Least
variable {ids : Node → Nat}

omit [DecidableEq Node] in
theorem least_from {outs : List Node} (positive : ∀ out ∈ outs, 0 < ids out) {start : Nat} (nonzero : 0 < start) :
    (outs.foldl (fun minIndex out => if minIndex = 0 ∨ ids out < minIndex then ids out else minIndex) start ≤ start) ∧
      (∀ out ∈ outs, outs.foldl (fun minIndex out => if minIndex = 0 ∨ ids out < minIndex then ids out else minIndex) start ≤
        ids out) := by
  induction outs generalizing start with
  | nil => simp
  | cons out outs ih =>
    have isPositive := positive out (.head _)
    have later : ∀ other ∈ outs, 0 < ids other := fun other inside => positive other (.tail _ inside)
    have next : 0 < (if start = 0 ∨ ids out < start then ids out else start) := by
      split
      · exact isPositive
      · exact nonzero
    obtain ⟨below,all⟩ := ih later next
    have smaller : (if start = 0 ∨ ids out < start then ids out else start) ≤ start ∧
        (if start = 0 ∨ ids out < start then ids out else start) ≤ ids out := by
      split
      · omega
      · omega
    rw [foldl_cons]
    exact ⟨below.trans smaller.1,forall_mem_cons.mpr ⟨below.trans smaller.2,all⟩⟩

/-- The index is the smallest id of a consumer. Zero stands for no index yet, so the ids have to be positive. -/
theorem getOutNodeIndex_spec {front : List Node} {node : Node} {delayTo outCount : Nat}
    (positive : ∀ out ∈ graph.outAllNodes node, 0 < ids out)
    (found : getOutNodeIndex graph ids (front ++ [node]) = some (delayTo,outCount)) :
    outCount = (graph.outAllNodes node).length ∧ (∀ out ∈ graph.outAllNodes node, delayTo ≤ ids out) ∧
      (∀ out, graph.outAllNodes node = [out] → delayTo = ids out) := by
  unfold getOutNodeIndex at found
  rw [getLast?_concat] at found
  split at found
  · rename_i first last isFirst isLast
    cases isLast
    split at found
    · cases found
    · split at found
      · cases found
      · dsimp only at found
        split at found
        · cases found
        · cases found
          refine ⟨rfl,?_,?_⟩
          · intro out inside
            cases shape : graph.outAllNodes node with
            | nil =>
              rw [shape] at inside
              cases inside
            | cons first outs =>
              rw [shape] at inside positive
              rw [foldl_cons,if_pos (.inl rfl)]
              obtain ⟨below,all⟩ := least_from (fun other inside => positive other (.tail _ inside)) (positive first (.head _))
              rcases mem_cons.mp inside with same | later
              · rw [same]
                exact below
              · exact all out later
          · intro out single
            rw [single]
            simp
  · cases found

end Least

structure Delayed (graph : ComputeGraph Node) (nodes : List Node) (i : Nat) (slots : DelayNodes Node) : Prop where
  perm : (slots.flatMap Prod.snd).Perm nodes
  forward : ∀ u v, graph.Followed u v → Precedes (slots.flatMap Prod.snd) u v
  /-- A node that is still to come ends its block; if the block may move, the others feed only nodes of the block. -/
  own : ∀ j node, nodes[j]? = some node → i ≤ j → ∃ canDelay front, slots[j]? = some (canDelay,front ++ [node]) ∧
    (canDelay = true → ∀ x ∈ front, ∀ y, graph.Followed x y → y ∈ front ++ [node])

section Step
variable {nodes : List Node} {ids : Node → Nat} {i : Nat} {slots : DelayNodes Node}

theorem Delayed.skip (delayed : Delayed graph nodes i slots) : Delayed graph nodes (i + 1) slots :=
  ⟨delayed.perm,delayed.forward,fun j node atJ later => delayed.own j node atJ (Nat.le_of_succ_le later)⟩

theorem split_two {α : Type} {items : List α} {i d : Nat} {a b : α} (less : i < d) (atI : items[i]? = some a)
    (atD : items[d]? = some b) : ∃ pre mid post, items = pre ++ a :: (mid ++ b :: post) ∧ pre.length = i ∧
      i + 1 + mid.length = d := by
  obtain ⟨lessI,isA⟩ := List.getElem?_eq_some_iff.mp atI
  have first : items = items.take i ++ a :: items.drop (i + 1) := by
    rw [← isA,getElem_cons_drop,take_append_drop]
  have atRest : (items.drop (i + 1))[d - (i + 1)]? = some b := by
    rw [getElem?_drop]
    rw [show i + 1 + (d - (i + 1)) = d by omega]
    exact atD
  obtain ⟨lessD,isB⟩ := List.getElem?_eq_some_iff.mp atRest
  refine ⟨items.take i,(items.drop (i + 1)).take (d - (i + 1)),(items.drop (i + 1)).drop (d - (i + 1) + 1),?_,?_,?_⟩
  · rw [← isB,getElem_cons_drop,take_append_drop]
    exact first
  all_goals
    rw [length_take]
    omega

theorem Delayed.move (nodup : nodes.Nodup) (all : ∀ node, node ∈ nodes)
    (positions : ∀ j node, nodes[j]? = some node → ids node = j) (delayed : Delayed graph nodes i slots) {node : Node}
    {front others : List Node} {canDelay : Bool} {d : Nat} (atI : nodes[i]? = some node)
    (slotI : slots[i]? = some (true,front ++ [node])) (slotD : slots[d]? = some (canDelay,others)) (less : i < d)
    (consumers : ∀ out, graph.Followed node out → d ≤ ids out) {mayDelay : Bool}
    (feeds : mayDelay = true → canDelay = true ∧ ∀ out, graph.Followed node out → ids out = d) :
    Delayed graph nodes (i + 1) ((slots.set d (mayDelay,(front ++ [node]) ++ others)).set i (true,[])) := by
  obtain ⟨pre,mid,post,shape,lengthPre,lengthMid⟩ := split_two less slotI slotD
  have moved : (slots.set d (mayDelay,(front ++ [node]) ++ others)).set i (true,[]) =
      pre ++ (true,[]) :: (mid ++ (mayDelay,(front ++ [node]) ++ others) :: post) := by
    subst lengthPre
    subst lengthMid
    rw [shape,set_append_right _ _ (by omega),show pre.length + 1 + mid.length - pre.length = mid.length + 1 by omega,
      set_cons_succ,set_append_right _ _ (by omega),Nat.sub_self,set_cons_zero,
      set_append_right _ _ (by omega),Nat.sub_self,set_cons_zero]
  have flatOld : slots.flatMap snd = pre.flatMap snd ++ ((front ++ [node]) ++ (mid.flatMap snd ++
      (others ++ post.flatMap snd))) := by
    rw [shape]
    simp [flatMap_append,flatMap_cons]
  have flatNew : ((slots.set d (mayDelay,(front ++ [node]) ++ others)).set i (true,[])).flatMap snd =
      pre.flatMap snd ++ (mid.flatMap snd ++ ((front ++ [node]) ++ (others ++ post.flatMap snd))) := by
    rw [moved]
    simp [flatMap_append,flatMap_cons]
  have once := delayed.perm.nodup_iff.mpr nodup
  rw [flatOld] at once
  have afterI := once.of_append_right
  obtain ⟨canMove,_,slotI',feedsI⟩ := delayed.own i node atI le_rfl
  rw [slotI] at slotI'
  obtain ⟨rfl,sameFront⟩ := Prod.mk.inj (some.inj slotI')
  rw [← append_cancel_right sameFront] at feedsI
  -- no node of the block feeds a node that it passes
  have apart : ∀ u v, graph.Followed u v → ¬(u ∈ front ++ [node] ∧ v ∈ mid.flatMap snd) := by
    intro u v edge both
    obtain ⟨inBlock,passed⟩ := both
    rcases mem_append.mp inBlock with inFront | isNode
    · have stays := feedsI rfl u inFront v edge
      exact disjoint_of_nodup_append afterI stays (mem_append_left _ passed)
    · rw [mem_singleton.mp isNode] at edge
      obtain ⟨k,atK⟩ := mem_iff_getElem?.mp (all v)
      have far := consumers v edge
      rw [positions k v atK] at far
      obtain ⟨canK,frontK,slotK,-⟩ := delayed.own k v atK (by omega)
      have behind : v ∈ others ++ post.flatMap snd := by
        have known : (canK,frontK ++ [v]) ∈ (canDelay,others) :: post := by
          apply mem_iff_getElem?.mpr
          refine ⟨k - d,?_⟩
          rw [shape,getElem?_append_right (by omega),getElem?_cons,if_neg (by omega),
            getElem?_append_right (by omega)] at slotK
          rw [← slotK]
          congr 1
          omega
        have inside : v ∈ ((canDelay,others) :: post).flatMap snd :=
          mem_flatMap.mpr ⟨_,known,by simp⟩
        simpa using inside
      exact disjoint_of_nodup_append afterI.of_append_right passed behind
  refine ⟨?_,?_,?_⟩
  · apply List.Perm.trans _ delayed.perm
    rw [flatNew,flatOld]
    apply List.Perm.append_left
    rw [← append_assoc,← append_assoc (front ++ [node])]
    exact perm_append_comm.append_right _
  · intro u v edge
    rw [flatNew]
    have before := delayed.forward u v edge
    rw [flatOld] at before
    exact before.swap_blocks (apart u v edge)
  · intro j other atJ later
    obtain ⟨canJ,frontJ,slotJ,feedsJ⟩ := delayed.own j other atJ (by omega)
    by_cases here : j = d
    · subst here
      rw [slotD] at slotJ
      obtain ⟨rfl,rfl⟩ := Prod.mk.inj (some.inj slotJ)
      refine ⟨mayDelay,(front ++ [node]) ++ frontJ,?_,?_⟩
      · have inRange : j < slots.length := (List.getElem?_eq_some_iff.mp slotD).1
        rw [getElem?_set_ne (by omega),getElem?_set_self inRange,← append_assoc]
      · intro may x inside y edge
        obtain ⟨can,only⟩ := feeds may
        rw [append_assoc]
        rcases mem_append.mp inside with inBlock | inFrontJ
        · rcases mem_append.mp inBlock with inFront | isNode
          · exact mem_append_left _ (feedsI rfl x inFront y edge)
          · rw [mem_singleton.mp isNode] at edge
            obtain ⟨k,atK⟩ := mem_iff_getElem?.mp (all y)
            have target := only y edge
            rw [positions k y atK] at target
            rw [target,atJ] at atK
            rw [← some.inj atK]
            simp
        · exact mem_append_right _ (feedsJ can x inFrontJ y edge)
    · refine ⟨canJ,frontJ,?_,feedsJ⟩
      rw [getElem?_set_ne (by omega),getElem?_set_ne (Ne.symm here)]
      exact slotJ

variable (extension : LinearExtension graph graph.outAllNodes nodes)
include extension

theorem Delayed.step (positions : ∀ j node, nodes[j]? = some node → ids node = j)
    {count : Nat} (delayed : Delayed graph nodes i slots) (inRange : i < nodes.length) :
    Delayed graph nodes (i + 1) (delayNode graph ids (slots,count) i).1 := by
  have nodup : nodes.Nodup := extension.perm.nodup_iff.mpr graph.nodup
  have all : ∀ node, node ∈ nodes := fun node => extension.perm.mem_iff.mpr (graph.all node)
  have later : ∀ {u v}, graph.Followed u v → ids u < ids v := by
    intro u v edge
    obtain ⟨j,k,less,atJ,atK⟩ := (extension.forward u v edge).indices
    rw [positions j u atJ,positions k v atK]
    exact less
  unfold delayNode
  split
  · rename_i block slotI
    split
    · rename_i d outCount found
      split
      · rename_i canDelay others slotD
        split
        · rename_i far
          obtain ⟨node,atI⟩ : ∃ node, nodes[i]? = some node := ⟨_,getElem?_eq_getElem inRange⟩
          obtain ⟨_,front,ownSlot,-⟩ := delayed.own i node atI le_rfl
          rw [ownSlot] at slotI
          obtain ⟨rfl,rfl⟩ := Prod.mk.inj (some.inj slotI)
          have positive : ∀ out ∈ graph.outAllNodes node, 0 < ids out := fun out inside => (Nat.zero_le _).trans_lt (later inside)
          obtain ⟨isCount,least,single⟩ := getOutNodeIndex_spec positive found
          refine delayed.move nodup all positions atI ownSlot slotD (by omega) least ?_
          intro may
          split at may
          · cases may
          · refine ⟨may,?_⟩
            intro out edge
            have inside : out ∈ graph.outAllNodes node := edge
            have one : (graph.outAllNodes node).length = 1 := by
              have some_ := length_pos_of_mem inside
              omega
            obtain ⟨only,isOnly⟩ := length_eq_one_iff.mp one
            rw [isOnly,mem_singleton] at inside
            rw [inside]
            exact (single only isOnly).symm
        · exact delayed.skip
      · exact delayed.skip
    · exact delayed.skip
  · exact delayed.skip

theorem delayed_start : Delayed graph nodes 0 (nodes.map fun node => (true,[node])) := by
  have flat : (nodes.map fun node => (true,[node])).flatMap snd = nodes := by
    rw [flatMap_map]
    exact flatMap_singleton' nodes
  refine ⟨by rw [flat],by rw [flat]; exact extension.forward,?_⟩
  intro j node atJ _
  exact ⟨true,[],by simp [atJ],fun _ x inside => by cases inside⟩

theorem delayed_run (positions : ∀ j node, nodes[j]? = some node → ids node = j) (n : Nat) (inRange : n ≤ nodes.length) :
    Delayed graph nodes n ((range n).foldl (delayNode graph ids) (nodes.map fun node => (true,[node]),0)).1 := by
  induction n with
  | zero => exact delayed_start extension
  | succ n ih =>
    rw [range_succ,foldl_append]
    exact (ih (by omega)).step extension positions (by omega)

theorem delayTopoSort_extends (ids : Node → Nat) : LinearExtension graph graph.outAllNodes (delayTopoSort graph ids nodes).1 := by
  have nodup : nodes.Nodup := extension.perm.nodup_iff.mpr graph.nodup
  have positions : ∀ j node, nodes[j]? = some node → setIds nodes ids node = j := fun j node atJ => setIds_eq nodup atJ
  have delayed := delayed_run extension positions nodes.length le_rfl
  simp only [delayTopoSort]
  split
  · exact ⟨delayed.perm.trans extension.perm,delayed.forward⟩
  · exact extension

end Step
end GraphEngine.Sorting

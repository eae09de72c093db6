import GraphEngine.Prefetch.Ring

/-! What a run of the allocation leaves behind, if it succeeds: the offsets of the layout, and the control edges of the
groups that wait and of the prefetch nodes one after the other. -/

namespace GraphEngine.Prefetch
open Lib List
variable {Node : Type} {graph : Graph Node} {pool : BufferPool Node}

/-- The control edges that the layout asks for. -/
def Links (graph : Graph Node) (slots : List (Slot Node)) (a b : Node) : Prop :=
  ∃ slot ∈ slots, slot.node = b ∧ Joins graph a b ∧
    (slot.pre = some a ∨ slot.visit.isFirst = true ∧ awaited slots slot = some a)

structure Rendered (graph : Graph Node) (pool : BufferPool Node) (slots : List (Slot Node)) (members : Members Node) : Prop where
  arranged : Arranged pool.poolSize slots
  offsets : members.bufferNodeLogicalOffset = slots.map Slot.space
  edges : ∀ a b, (a,b) ∈ members.controlEdges ↔ Links graph slots a b

structure Laid (graph : Graph Node) (pool : BufferPool Node) (slots : List (Slot Node)) (placing : Placing Node) : Prop where
  rendered : Rendered graph pool slots placing.members
  next : placing.nextStart = lastStop slots
  pre : placing.preBufferPoolNode = lastNode slots
  queued : 0 < pool.poolSize →
    Queued pool.poolSize slots (lastRound slots) (lastStop slots) (lastReach slots) placing.nodeMemRangeInPool

section Step
variable {slots : List (Slot Node)} {slot other : Slot Node} {start : Int} {dependent : Option Node} {a b : Node}
  {queue items : List (BufferPoolNodeItem Node)} {poolSize : Int}

theorem awaited_concat (later : other.round ≤ slot.round) : awaited (slots ++ [slot]) other = awaited slots other := by
  have apart : slot.round + 1 ≠ other.round := by omega
  simp [awaited,blocker,filter_append,apart]

theorem links_concat (arranged : Arranged poolSize (slots ++ [slot])) : Links graph (slots ++ [slot]) a b ↔
    Links graph slots a b ∨ slot.node = b ∧ Joins graph a b ∧
      (slot.pre = some a ∨ slot.visit.isFirst = true ∧ awaited (slots ++ [slot]) slot = some a) := by
  have same : ∀ other ∈ slots, awaited (slots ++ [slot]) other = awaited slots other := by
    intro other known
    have last := arranged.frontier other (mem_append_left _ known)
    rw [lastRound_concat] at last
    exact awaited_concat (by omega)
  constructor
  · rintro ⟨other,inside,isNode,joins,edge⟩
    rcases mem_append.mp inside with old | new
    · rw [same other old] at edge
      exact .inl ⟨other,old,isNode,joins,edge⟩
    · cases mem_singleton.mp new
      exact .inr ⟨isNode,joins,edge⟩
  · rintro (⟨other,old,isNode,joins,edge⟩ | ⟨isNode,joins,edge⟩)
    · rw [← same other old] at edge
      exact ⟨other,mem_append_left _ old,isNode,joins,edge⟩
    · exact ⟨slot,by simp,isNode,joins,edge⟩

theorem nextSlot_place (slots : List (Slot Node)) (visit : Visit Node) {slot : Slot Node}
    (isNext : slot = nextSlot graph poolSize slots visit) :
    slot.visit = visit ∧ slot.pre = lastNode slots ∧ slot.size = visit.size graph ∧ slot.need = visit.need graph ∧
      (poolSize < lastStop slots + slot.need ∧ slot.round = lastRound slots + 1 ∧ slot.start = 0 ∨
        lastStop slots + slot.need ≤ poolSize ∧ slot.round = lastRound slots ∧ slot.start = lastStop slots) := by
  unfold nextSlot at isNext
  split at isNext
  · rename_i full
    subst isNext
    exact ⟨rfl,rfl,rfl,rfl,.inl ⟨full,rfl,rfl⟩⟩
  · rename_i fits
    subst isNext
    exact ⟨rfl,rfl,rfl,rfl,.inr ⟨not_lt.mp fits,rfl,rfl⟩⟩

/-- One request moves the queue as the layout says, and finds the reader of the blocker. -/
theorem Queued.step (queued : Queued pool.poolSize slots (lastRound slots) (lastStop slots) (lastReach slots) items)
    (arranged : Arranged pool.poolSize slots) (below : lastStop slots ≤ pool.poolSize) (positive : 0 < slot.size)
    (within : slot.size ≤ slot.need) (capacity : slot.need ≤ pool.poolSize)
    (place : pool.poolSize < lastStop slots + slot.need ∧ slot.round = lastRound slots + 1 ∧ slot.start = 0 ∨
      lastStop slots + slot.need ≤ pool.poolSize ∧ slot.round = lastRound slots ∧ slot.start = lastStop slots)
    (group : slot.visit.isFirst = true ∧ lastReach slots = lastStop slots ∨
      slot.visit.isFirst = false ∧ slots ≠ [] ∧ lastReach slots = lastStop slots + slot.need)
    (reads : ∀ other ∈ slots, pool.bufferNodeToCalc other.node = some other.visit.reader)
    (ok : getOffsetAndDependency (lastStop slots) (if slot.visit.isFirst then slot.need else slot.size) pool items =
      .ok (start,dependent,queue)) :
    start = slot.start ∧ Queued pool.poolSize (slots ++ [slot]) slot.round slot.stop slot.reach (queue ++ [slot.item]) ∧
      (slot.visit.isFirst = true → dependent = awaited (slots ++ [slot]) slot) := by
  rcases group with ⟨first,reach⟩ | ⟨more,some_,reach⟩
  · rw [if_pos first] at ok
    obtain ⟨moved,isDependent⟩ := queued.claim below (by omega) capacity (by omega) ok
    obtain ⟨isStart,moved⟩ : start = slot.start ∧ Queued pool.poolSize slots slot.round slot.start slot.reach queue := by
      rcases moved with ⟨full,rfl,moved⟩ | ⟨fits,rfl,moved⟩
      · rcases place with ⟨-,isRound,isStart⟩ | ⟨fits,-⟩
        · rw [Slot.reach,isRound,isStart]
          exact ⟨rfl,moved⟩
        · omega
      · rcases place with ⟨full,-⟩ | ⟨-,isRound,isStart⟩
        · omega
        · rw [Slot.reach,isRound,isStart]
          exact ⟨rfl,moved⟩
    refine ⟨isStart,moved.push rfl rfl positive,fun _ => ?_⟩
    rw [isDependent,awaited_concat le_rfl]
    exact moved.awaited_eq reads
  · have fits := arranged.lastReach_le some_
    rw [if_neg (by simp [more])] at ok
    obtain ⟨rfl,rfl⟩ := queued.stay (by omega) fits ok
    obtain ⟨-,isRound,isStart⟩ : lastStop slots + slot.need ≤ pool.poolSize ∧ slot.round = lastRound slots ∧
        slot.start = lastStop slots := by
      omega
    refine ⟨isStart.symm,?_,fun first => absurd first (by simp [more])⟩
    have isReach : slot.reach = lastReach slots := by
      rw [Slot.reach]
      omega
    rw [isReach,isRound]
    exact queued.push isRound isStart positive

end Step

/-- Between two groups the room is used up; inside one the last slot has asked for the rest of it. -/
theorem layout_group (graph : Graph Node) (poolSize : Int) {done rest : List (Visit Node)} {visit : Visit Node}
    (trails : Trails [] (done ++ visit :: rest) []) :
    visit.isFirst = true ∧ lastReach (layout graph poolSize done) = lastStop (layout graph poolSize done) ∨
      visit.isFirst = false ∧ layout graph poolSize done ≠ [] ∧
        lastReach (layout graph poolSize done) = lastStop (layout graph poolSize done) + visit.need graph := by
  obtain ⟨pending,front,isPending,-⟩ := trails.split
  have reach : lastReach (layout graph poolSize done) = lastStop (layout graph poolSize done) + roomFor graph pending :=
    layout_reach front
  cases first : visit.isFirst with
  | true =>
    rw [first,if_pos rfl] at isPending
    rw [isPending] at reach
    exact .inl ⟨rfl,reach.trans (add_zero _)⟩
  | false =>
    rw [first,if_neg Bool.false_ne_true] at isPending
    rw [isPending] at reach front
    refine .inr ⟨rfl,fun none => ?_,reach⟩
    have visits : (layout graph poolSize done).map Slot.visit = done := layout_visits done
    rw [none] at visits
    rw [← visits] at front
    cases front

section Run
variable {calcNodes : List Node} {peer : Node → List (List Node)} (sized : Sized graph)
  (reads : ∀ visit ∈ visits calcNodes peer, pool.bufferNodeToCalc visit.node = some visit.reader)
include sized reads

theorem laid_kept : Kept graph pool (visits calcNodes peer) fun done => Laid graph pool (layout graph pool.poolSize done) := by
  intro done visit rest placing placing' groupTotal split laid measured ok
  obtain ⟨start,dependent,queue,middle,edges,steps⟩ := allocateSpaceForBufferPoolNode_steps ok
  obtain ⟨positive,capacity⟩ := measured.fits sized
  obtain ⟨sizePositive,restPositive⟩ := forall_mem_cons.mp positive
  have arranged := laid.rendered.arranged
  have trails : Trails [] (done ++ visit :: rest) [] := split ▸ visits_trails
  have group := layout_group graph pool.poolSize trails
  obtain ⟨slot,isNext⟩ : ∃ slot, slot = nextSlot graph pool.poolSize (layout graph pool.poolSize done) visit := ⟨_,rfl⟩
  obtain ⟨rfl,isPre,isSize,isNeed,place⟩ := nextSlot_place _ _ isNext
  have sizes : 0 < slot.size ∧ slot.size ≤ slot.need := by
    have restRoom := roomFor_nonneg restPositive
    rw [isSize,isNeed,Visit.need,roomFor_cons]
    exact ⟨sizePositive,by simpa [Visit.size] using restRoom⟩
  rw [← isNeed] at capacity group
  have below : lastStop (layout graph pool.poolSize done) ≤ pool.poolSize := by
    rcases eq_or_ne (layout graph pool.poolSize done) [] with none | some_
    · rw [none]
      exact (by omega : (0 : Int) ≤ pool.poolSize)
    · obtain ⟨last,known,-,stop,-⟩ := lastRound_mem some_
      have bounds := arranged.inside last known
      omega
  have request : (if slot.visit.isFirst then groupTotal else slot.visit.size graph) =
      if slot.visit.isFirst then slot.need else slot.size := by
    split
    · rename_i first
      rw [measured.total first,isNeed]
    · exact isSize.symm
  have readsDone : ∀ other ∈ layout graph pool.poolSize done, pool.bufferNodeToCalc other.node = some other.visit.reader := by
    intro other known
    have inside : other.visit ∈ (layout graph pool.poolSize done).map Slot.visit := mem_map_of_mem known
    rw [layout_visits] at inside
    exact reads other.visit (split ▸ mem_append_left _ inside)
  have asked := steps.place
  rw [laid.next,request] at asked
  obtain ⟨rfl,queued,waits⟩ :=
    (laid.queued (by omega)).step arranged below sizes.1 sizes.2 capacity place group readsDone asked
  have arranged' := arranged.concat sizes.1 sizes.2 capacity isPre place (group.imp And.left And.right)
  rw [layout_concat,← isNext]
  refine ⟨⟨arranged',?_,fun a b => ?_⟩,?_,?_,fun _ => ?_⟩
  · rw [steps.offsets,laid.rendered.offsets,map_append,isSize.symm]
    rfl
  · rw [steps.mem_edges,laid.rendered.edges,links_concat arranged',laid.pre,← isPre]
    refine or_congr_right (and_congr eq_comm (and_congr_right fun _ => or_congr_right (and_congr_right fun first => ?_)))
    rw [waits first]
  · rw [steps.placed,lastStop_concat,Slot.stop,isSize]
  · rw [steps.placed,lastNode_concat]
  · rw [steps.placed,lastRound_concat,lastStop_concat,lastReach_concat,laid.pre,← isPre,← isSize]
    exact queued

/-- A run that succeeds leaves what the layout says. -/
theorem allocateSpaceInBufferPool_rendered {logicEventNum : Nat} {members : Members Node}
    (ok : allocateSpaceInBufferPool graph pool peer calcNodes (.start logicEventNum) = .ok members) :
    Rendered graph pool (layout graph pool.poolSize (visits calcNodes peer)) members := by
  have start : Laid graph pool [] (.start pool.poolSize (.start logicEventNum)) := by
    refine ⟨⟨⟨Pairwise.nil,?_,?_,?_,?_,.nil,?_⟩,rfl,fun a b => ?_⟩,rfl,rfl,fun capacity => ?_⟩
    iterate 5 exact forall_mem_nil _
    · simp [Members.start,Placing.start,Links]
    · exact ⟨⟨[],_,[],rfl,rfl,forall_mem_nil _,capacity.le⟩,⟨rfl,capacity,rfl⟩,rfl,forall_mem_nil _⟩
  obtain ⟨placing,rfl,laid⟩ := allocateSpaceInBufferPool_run (laid_kept sized reads) start ok
  exact laid.rendered

end Run
end GraphEngine.Prefetch

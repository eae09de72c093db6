import GraphEngine.Prefetch.Visits

/-! Where the ring puts the tensors, from the size of the pool, the sizes of the tensors and the lists alone. A group stays
together: if the room for the whole of it does not fit behind the last tensor, a new round begins at the start of the pool. -/

namespace GraphEngine.Prefetch
open Lib List
variable {Node : Type} {graph : Graph Node} {poolSize : Int}

structure Slot (Node : Type) where
  visit : Visit Node
  /-- The prefetch node placed before it. -/
  pre : Option Node
  round : Nat
  start : Int
  size : Int
  need : Int
  deriving DecidableEq

namespace Slot

abbrev node (slot : Slot Node) : Node := slot.visit.node

def stop (slot : Slot Node) : Int := slot.start + slot.size

/-- The end of the room for its group. -/
def reach (slot : Slot Node) : Int := slot.start + slot.need

def space (slot : Slot Node) : LogicalOffset Node := ⟨slot.node,slot.size,slot.start⟩

end Slot

section
variable (slots : List (Slot Node))

def lastRound : Nat := slots.getLast?.elim 0 Slot.round

def lastStop : Int := slots.getLast?.elim 0 Slot.stop

def lastReach : Int := slots.getLast?.elim 0 Slot.reach

def lastNode : Option Node := slots.getLast?.map Slot.node

end

def nextSlot (graph : Graph Node) (poolSize : Int) (slots : List (Slot Node)) (visit : Visit Node) : Slot Node :=
  if poolSize < lastStop slots + visit.need graph then
    ⟨visit,lastNode slots,lastRound slots + 1,0,visit.size graph,visit.need graph⟩
  else ⟨visit,lastNode slots,lastRound slots,lastStop slots,visit.size graph,visit.need graph⟩

def layout (graph : Graph Node) (poolSize : Int) (visits : List (Visit Node)) : List (Slot Node) :=
  visits.foldl (fun slots visit => slots ++ [nextSlot graph poolSize slots visit]) []

/-- What stands in the way of a group: of the round before, the first tensor that reaches the end of the room, or else the
last one. -/
def blocker (slots : List (Slot Node)) (slot : Slot Node) : Option (Slot Node) :=
  let before := slots.filter fun other => other.round + 1 = slot.round
  (before.find? fun other => slot.reach ≤ other.stop).or before.getLast?

/-- The node that the group waits for. -/
def awaited (slots : List (Slot Node)) (slot : Slot Node) : Option Node :=
  (blocker slots slot).map fun other => other.visit.reader

section Frontier
variable {slots : List (Slot Node)} {slot : Slot Node} {visit : Visit Node} {done : List (Visit Node)}

@[simp] theorem lastRound_concat : lastRound (slots ++ [slot]) = slot.round := by simp [lastRound]

@[simp] theorem lastStop_concat : lastStop (slots ++ [slot]) = slot.stop := by simp [lastStop]

@[simp] theorem lastReach_concat : lastReach (slots ++ [slot]) = slot.reach := by simp [lastReach]

@[simp] theorem lastNode_concat : lastNode (slots ++ [slot]) = some slot.node := by simp [lastNode]

theorem layout_concat : layout graph poolSize (done ++ [visit]) =
    layout graph poolSize done ++ [nextSlot graph poolSize (layout graph poolSize done) visit] := by
  simp [layout]

/-- What a visit leaves open is the room behind the last tensor. -/
theorem layout_reach {pending : List Node} (trails : Trails [] done pending) :
    lastReach (layout graph poolSize done) = lastStop (layout graph poolSize done) + roomFor graph pending := by
  rcases eq_nil_or_concat done with rfl | ⟨front,visit,rfl⟩
  · cases trails
    rfl
  · rw [concat_eq_append] at trails ⊢
    obtain ⟨middle,-,-,rfl⟩ := trails.split
    rw [layout_concat,lastReach_concat,lastStop_concat,Slot.reach,Slot.stop]
    unfold nextSlot
    split
    all_goals
      simp only [Visit.need,Visit.size,roomFor_cons]
      omega

theorem nextSlot_visit : (nextSlot graph poolSize slots visit).visit = visit := by
  unfold nextSlot
  split <;> rfl

theorem layout_visits (visits : List (Visit Node)) : (layout graph poolSize visits).map Slot.visit = visits := by
  induction visits using reverseRecOn with
  | nil => rfl
  | append_singleton done visit ih => rw [layout_concat,map_append,ih,map_singleton,nextSlot_visit]

end Frontier

def Before (earlier later : Slot Node) : Prop :=
  earlier.round < later.round ∨ earlier.round = later.round ∧ earlier.stop ≤ later.start

structure Arranged (poolSize : Int) (slots : List (Slot Node)) : Prop where
  order : slots.Pairwise Before
  inside : ∀ slot ∈ slots, 0 ≤ slot.start ∧ 0 < slot.size ∧ slot.stop ≤ slot.reach ∧ slot.reach ≤ poolSize
  frontier : ∀ slot ∈ slots, slot.round < lastRound slots ∨ slot.round = lastRound slots ∧ slot.stop ≤ lastStop slots
  /-- No round is left out. -/
  started : ∀ slot ∈ slots, 0 < slot.round → ∃ other ∈ slots, other.round + 1 = slot.round
  /-- A group has its room in one round. -/
  opened : ∀ slot ∈ slots, ∃ first ∈ slots, first.visit.isFirst = true ∧ first.round = slot.round ∧
    first.reach = slot.reach ∧ (first = slot ∨ Precedes slots first slot)
  joined : slots.IsChain fun slot next => next.visit.isFirst = false → next.round = slot.round
  chained : ∀ slot ∈ slots, ∀ node, slot.pre = some node → ∃ other, other.node = node ∧ Precedes slots other slot

section Arranging
variable {slots : List (Slot Node)} {visit : Visit Node} {done : List (Visit Node)}

theorem lastRound_mem (some_ : slots ≠ []) : ∃ last ∈ slots, last.round = lastRound slots ∧ last.stop = lastStop slots ∧
    last.reach = lastReach slots := by
  obtain ⟨front,last,rfl⟩ := (eq_nil_or_concat slots).resolve_left some_
  rw [concat_eq_append]
  exact ⟨last,by simp,by simp,by simp,by simp⟩

variable (arranged : Arranged poolSize slots)
include arranged

theorem Arranged.lastStop_nonneg : 0 ≤ lastStop slots := by
  rcases eq_nil_or_concat slots with rfl | ⟨front,last,rfl⟩
  · exact le_rfl
  · rw [concat_eq_append] at arranged ⊢
    obtain ⟨start,size,-⟩ := arranged.inside last (by simp)
    rw [lastStop_concat,Slot.stop]
    omega

theorem Arranged.lastReach_le (some_ : slots ≠ []) : lastReach slots ≤ poolSize := by
  obtain ⟨last,known,-,-,reach⟩ := lastRound_mem some_
  exact reach ▸ (arranged.inside last known).2.2.2

/-- The next slot continues the round, or begins one at the start of the pool. -/
theorem Arranged.concat {slot : Slot Node} (sizePositive : 0 < slot.size) (within : slot.size ≤ slot.need)
    (capacity : slot.need ≤ poolSize) (isPre : slot.pre = lastNode slots)
    (place : poolSize < lastStop slots + slot.need ∧ slot.round = lastRound slots + 1 ∧ slot.start = 0 ∨
      lastStop slots + slot.need ≤ poolSize ∧ slot.round = lastRound slots ∧ slot.start = lastStop slots)
    (group : slot.visit.isFirst = true ∨ slots ≠ [] ∧ lastReach slots = lastStop slots + slot.need) :
    Arranged poolSize (slots ++ [slot]) := by
  have nonneg := arranged.lastStop_nonneg
  have before : ∀ other ∈ slots, Before other slot := by
    intro other known
    have last := arranged.frontier other known
    unfold Before
    omega
  have here : 0 ≤ slot.start ∧ 0 < slot.size ∧ slot.stop ≤ slot.reach ∧ slot.reach ≤ poolSize := by
    unfold Slot.stop Slot.reach
    omega
  refine ⟨?_,?_,?_,?_,?_,?_,?_⟩
  · exact pairwise_append.mpr ⟨arranged.order,pairwise_singleton _ _,fun other known _ isSlot =>
      mem_singleton.mp isSlot ▸ before other known⟩
  · exact forall_mem_append.mpr ⟨arranged.inside,forall_mem_singleton.mpr here⟩
  · rw [lastRound_concat,lastStop_concat]
    refine forall_mem_append.mpr ⟨fun other known => ?_,forall_mem_singleton.mpr (.inr ⟨rfl,le_rfl⟩)⟩
    have order := before other known
    unfold Before at order
    have stop : slot.start ≤ slot.stop := by
      unfold Slot.stop
      omega
    omega
  · refine forall_mem_append.mpr ⟨fun other known later => ?_,forall_mem_singleton.mpr fun later => ?_⟩
    · obtain ⟨earlier,inside,round⟩ := arranged.started other known later
      exact ⟨earlier,mem_append_left _ inside,round⟩
    · have some_ : slots ≠ [] := by
        rintro rfl
        have none : lastStop ([] : List (Slot Node)) = 0 ∧ lastRound ([] : List (Slot Node)) = 0 := ⟨rfl,rfl⟩
        omega
      obtain ⟨last,known,isRound,-⟩ := lastRound_mem some_
      rcases place with ⟨-,round,-⟩ | ⟨-,round,-⟩
      · exact ⟨last,mem_append_left _ known,by omega⟩
      · obtain ⟨earlier,inside,same⟩ := arranged.started last known (by omega)
        exact ⟨earlier,mem_append_left _ inside,by omega⟩
  · refine forall_mem_append.mpr ⟨fun other known => ?_,forall_mem_singleton.mpr ?_⟩
    · obtain ⟨first,inside,isFirst,round,reach,order⟩ := arranged.opened other known
      exact ⟨first,mem_append_left _ inside,isFirst,round,reach,order.imp_right (·.append_right _)⟩
    · rcases group with isFirst | ⟨some_,reach⟩
      · exact ⟨slot,by simp,isFirst,rfl,rfl,.inl rfl⟩
      · -- the room of the group is what the last slot asked for
        have fits := arranged.lastReach_le some_
        obtain ⟨last,known,isRound,-,isReach⟩ := lastRound_mem some_
        obtain ⟨first,inside,isFirst,round,same,-⟩ := arranged.opened last known
        refine ⟨first,mem_append_left _ inside,isFirst,by omega,?_,.inr (.across inside (by simp))⟩
        rw [same,isReach,reach,Slot.reach]
        omega
  · refine isChain_append.mpr ⟨arranged.joined,isChain_singleton _,fun last isLast _ isSlot more => ?_⟩
    cases isSlot
    obtain ⟨some_,reach⟩ := group.resolve_left (by simp [more])
    have fits := arranged.lastReach_le some_
    have round : lastRound slots = last.round := by rw [lastRound,Option.mem_def.mp isLast]; rfl
    omega
  · refine forall_mem_append.mpr ⟨fun other known node pre => ?_,forall_mem_singleton.mpr fun node pre => ?_⟩
    · obtain ⟨earlier,isNode,order⟩ := arranged.chained other known node pre
      exact ⟨earlier,isNode,order.append_right _⟩
    · rw [isPre,lastNode] at pre
      obtain ⟨last,isLast,rfl⟩ := Option.map_eq_some_iff.mp pre
      exact ⟨last,rfl,.across (mem_of_getLast? isLast) (by simp)⟩

theorem Arranged.before {earlier later : Slot Node} (order : Precedes slots earlier later) : Before earlier later :=
  pairwise_iff_forall_sublist.mp arranged.order order

theorem Arranged.precedes {earlier later : Slot Node} (left : earlier ∈ slots) (right : later ∈ slots)
    (rounds : earlier.round < later.round) : Precedes slots earlier later := by
  rcases Precedes.total left right with rfl | order | order
  · exact absurd rounds (lt_irrefl _)
  · exact order
  · have back := arranged.before order
    unfold Before at back
    omega

end Arranging

section Blockers
variable {slots : List (Slot Node)} {slot other earlier : Slot Node}

theorem blocker_congr (round : other.round = slot.round) (reach : other.reach = slot.reach) :
    blocker slots other = blocker slots slot := by
  rw [blocker,blocker,round,reach]

theorem mem_blocker (isBlocker : blocker slots slot = some other) : other ∈ slots ∧ other.round + 1 = slot.round := by
  have inside : other ∈ slots.filter fun other => other.round + 1 = slot.round := by
    rcases Option.or_eq_some_iff.mp isBlocker with found | ⟨-,last⟩
    · exact mem_of_find?_eq_some found
    · exact mem_of_getLast? last
  simpa using inside

/-- A tensor that a slot takes over is the blocker or lies before it. -/
theorem Arranged.blocker_covers (arranged : Arranged poolSize slots) (order : Precedes slots earlier slot)
    (meets : earlier.start < slot.stop ∧ slot.start < earlier.stop) :
    ∃ other, blocker slots slot = some other ∧ (earlier = other ∨ Precedes slots earlier other) := by
  have room := arranged.inside slot order.right
  have rounds : earlier.round < slot.round := by
    have before := arranged.before order
    unfold Before at before
    omega
  obtain ⟨other,isBlocker⟩ : ∃ other, blocker slots slot = some other := by
    obtain ⟨other,inside,round⟩ := arranged.started slot order.right (by omega)
    have known : other ∈ slots.filter fun other => other.round + 1 = slot.round :=
      mem_filter.mpr ⟨inside,decide_eq_true round⟩
    have last := getLast?_isSome.mpr (ne_nil_of_mem known)
    exact Option.isSome_iff_exists.mp (by rw [blocker,Option.isSome_or,last,Bool.or_true])
  obtain ⟨inside,round⟩ := mem_blocker isBlocker
  refine ⟨other,isBlocker,?_⟩
  rcases Nat.lt_or_ge earlier.round other.round with older | same
  · exact .inr (arranged.precedes order.left inside older)
  rcases Option.or_eq_some_iff.mp isBlocker with found | ⟨-,last⟩
  · -- behind the first tensor that reaches the end of the room nothing is taken over
    have reaches : slot.reach ≤ other.stop := by simpa using find?_some found
    refine (Precedes.total order.left inside).imp_right (Or.resolve_right · fun after => ?_)
    have before := arranged.before after
    unfold Before at before
    omega
  · obtain ⟨front,isLast⟩ := getLast?_eq_some_iff.mp last
    have known : earlier ∈ slots.filter fun other => other.round + 1 = slot.round :=
      mem_filter.mpr ⟨order.left,decide_eq_true (by omega)⟩
    rw [isLast] at known
    rcases mem_append.mp known with inFront | isOther
    · have part : (front ++ [other]).Sublist slots := isLast ▸ filter_sublist
      exact .inr ((Precedes.across inFront (by simp)).mono part)
    · exact .inl (mem_singleton.mp isOther)

end Blockers
end GraphEngine.Prefetch

import GraphEngine.Lib.Tiling
import GraphEngine.Prefetch.Layout

/-! The queue of the buffer pool against the layout. It holds the tensors of the round before from the blocker on, the last of
them up to the end of the pool, and behind them those of this round. -/

namespace GraphEngine.Prefetch
open Lib List
variable {Node : Type} {graph : Graph Node} {pool : BufferPool Node} {poolSize next limit need start : Int} {round : Nat}
  {slots : List (Slot Node)} {slot : Slot Node} {items cur old queue : List (BufferPoolNodeItem Node)} {dependent : Option Node}

abbrev ItemTiles (a : Int) (items : List (BufferPoolNodeItem Node)) (b : Int) : Prop :=
  Tiles BufferPoolNodeItem.offsetStart BufferPoolNodeItem.offsetEnd a items b

def Slot.item (slot : Slot Node) : BufferPoolNodeItem Node :=
  ⟨some slot.node,some slot.visit.calcNode,slot.pre,slot.size,slot.start,slot.stop,slot.visit.isLast,slot.visit.isFirst⟩

def roundItems (slots : List (Slot Node)) (round : Nat) : List (BufferPoolNodeItem Node) :=
  (slots.filter fun slot => slot.round = round).map Slot.item

/-- The round before. Before the first one the whole pool is free. -/
def previousItems (poolSize : Int) (slots : List (Slot Node)) : Nat → List (BufferPoolNodeItem Node)
  | 0 => [⟨none,none,none,0,0,poolSize,true,true⟩]
  | round + 1 => takeUpTheRest poolSize (roundItems slots round)

structure Queued (poolSize : Int) (slots : List (Slot Node)) (round : Nat) (next limit : Int)
    (items : List (BufferPoolNodeItem Node)) : Prop where
  kept : ∃ passed head rest, previousItems poolSize slots round = passed ++ head :: rest ∧
    items = head :: rest ++ roundItems slots round ∧ (∀ item ∈ passed, item.offsetEnd < limit) ∧ limit ≤ head.offsetEnd
  before : ItemTiles 0 (previousItems poolSize slots round) poolSize
  now : ItemTiles 0 (roundItems slots round) next
  rounds : ∀ slot ∈ slots, slot.round ≤ round

theorem takeUpTheRest_append (nonempty : cur ≠ []) :
    takeUpTheRest poolSize (old ++ cur) = old ++ takeUpTheRest poolSize cur := by
  induction old with
  | nil => rfl
  | cons item old ih =>
    obtain ⟨next,rest,shape⟩ := exists_cons_of_ne_nil (append_ne_nil_of_right_ne_nil old nonempty)
    rw [cons_append,shape,takeUpTheRest,← shape,ih,cons_append]

theorem takeUpTheRest_tiles {a : Int} (tiles : ItemTiles a cur next) (nonempty : cur ≠ []) (below : next ≤ poolSize) :
    ItemTiles a (takeUpTheRest poolSize cur) poolSize := by
  induction cur generalizing a with
  | nil => exact absurd rfl nonempty
  | cons item rest ih =>
    obtain ⟨start,positive,more⟩ := tiles
    cases rest with
    | nil =>
      cases more
      exact ⟨start,positive.trans_le below,rfl⟩
    | cons next rest => exact ⟨start,positive,ih more (by simp)⟩

/-- The first item that reaches the point is that of the blocker. -/
theorem takeUpTheRest_head {shown : List (Slot Node)} {passed rest : List (BufferPoolNodeItem Node)}
    {head : BufferPoolNodeItem Node} {point : Int} (isHead : takeUpTheRest poolSize (shown.map Slot.item) = passed ++ head :: rest)
    (behind : ∀ item ∈ passed, item.offsetEnd < point) (reaches : point ≤ head.offsetEnd) :
    ((shown.find? fun slot => point ≤ slot.stop).or shown.getLast?).map Slot.node = head.node := by
  induction shown generalizing passed with
  | nil => cases passed <;> cases isHead
  | cons slot shown ih =>
    cases shown with
    | nil =>
      cases passed with
      | nil =>
        cases isHead
        rw [find?_singleton]
        split <;> rfl
      | cons first passed =>
        injection isHead with _ impossible
        cases passed <;> cases impossible
    | cons other shown =>
      cases passed with
      | nil =>
        injection isHead with same
        subst same
        rw [find?_cons_of_pos (by simpa [Slot.item] using reaches)]
        rfl
      | cons first passed =>
        injection isHead with same more
        subst same
        have short := behind _ (.head _)
        rw [find?_cons_of_neg (by simpa [Slot.item] using short),getLast?_cons_cons]
        exact ih more fun item inside => behind item (.tail _ inside)

namespace Queued

theorem turn (queued : Queued poolSize slots round next limit items) (some_ : 0 < next) (below : next ≤ poolSize) :
    turnBack poolSize items = previousItems poolSize slots (round + 1) ∧
      Queued poolSize slots (round + 1) 0 0 (previousItems poolSize slots (round + 1)) := by
  obtain ⟨passed,head,rest,isPrevious,rfl,-⟩ := queued.kept
  have nonempty : roundItems slots round ≠ [] := by
    intro none
    have now := queued.now
    rw [none] at now
    exact some_.ne now
  have tiles : ItemTiles 0 (previousItems poolSize slots (round + 1)) poolSize :=
    takeUpTheRest_tiles queued.now nonempty below
  obtain ⟨first,others,shape⟩ : ∃ first others, previousItems poolSize slots (round + 1) = first :: others := by
    cases same : previousItems poolSize slots (round + 1) with
    | nil =>
      rw [same] at tiles
      exact absurd tiles (some_.trans_le below).ne
    | cons first others => exact ⟨first,others,rfl⟩
  have empty : roundItems slots (round + 1) = [] := by
    rw [roundItems,map_eq_nil_iff,filter_eq_nil_iff]
    intro slot inside
    have bound := queued.rounds slot inside
    simp only [decide_eq_true_eq]
    omega
  constructor
  · have before := queued.before
    rw [isPrevious] at before
    obtain ⟨b,front,start,positive,later⟩ := before.of_append
    have nonneg := front.le
    rw [turnBack,takeUpTheRest_append nonempty,cons_append,drop_one,tail_cons,later.dropWhile_origin (by omega)]
    change dropWhile _ (previousItems poolSize slots (round + 1)) = _
    rw [shape] at tiles ⊢
    rw [dropWhile_cons_of_neg (by simpa using tiles.1)]
  · refine ⟨⟨[],first,others,shape,?_,forall_mem_nil _,?_⟩,tiles,?_,fun slot inside => ?_⟩
    · rw [empty,append_nil,shape]
    · rw [shape] at tiles
      have bounds := tiles.bounds (.head _)
      omega
    · rw [empty]
      rfl
    · exact (queued.rounds slot inside).trans (Nat.le_succ _)

theorem pass (queued : Queued poolSize slots round next limit items) (point : Int) (ready : limit ≤ point)
    (below : point ≤ poolSize) :
    Queued poolSize slots round next point (items.dropWhile fun item => decide (¬point ≤ item.offsetEnd)) := by
  obtain ⟨passed,head,rest,isPrevious,rfl,behind,-⟩ := queued.kept
  have before := queued.before
  rw [isPrevious] at before
  obtain ⟨b,-,tiles⟩ := before.of_append
  obtain ⟨more,first,others,split,short,reaches,drops⟩ := tiles.dropWhile_reaches (cons_ne_nil _ _) point below
  rw [drops]
  refine ⟨⟨passed ++ more,first,others,?_,rfl,?_,reaches⟩,queued.before,queued.now,queued.rounds⟩
  · rw [isPrevious,split,append_assoc]
  · exact forall_mem_append.mpr ⟨fun item inside => (behind item inside).trans_le ready,short⟩

theorem push (queued : Queued poolSize slots round start limit items) (isRound : slot.round = round)
    (isStart : slot.start = start) (positive : 0 < slot.size) :
    Queued poolSize (slots ++ [slot]) round slot.stop limit (items ++ [slot.item]) := by
  obtain ⟨passed,head,rest,isPrevious,rfl,facts⟩ := queued.kept
  have current : roundItems (slots ++ [slot]) round = roundItems slots round ++ [slot.item] := by
    simp [roundItems,filter_append,isRound]
  have same : previousItems poolSize (slots ++ [slot]) round = previousItems poolSize slots round := by
    cases round with
    | zero => rfl
    | succ round => simp [previousItems,roundItems,filter_append,isRound]
  refine ⟨⟨passed,head,rest,same.trans isPrevious,?_,facts⟩,same ▸ queued.before,?_,?_⟩
  · rw [current,append_assoc]
  · rw [current]
    refine queued.now.append ⟨isStart,?_,rfl⟩
    change start < slot.start + slot.size
    omega
  · exact forall_mem_append.mpr ⟨queued.rounds,forall_mem_singleton.mpr isRound.le⟩

theorem awaited_eq (queued : Queued poolSize slots slot.round next slot.reach items)
    (reads : ∀ other ∈ slots, pool.bufferNodeToCalc other.node = some other.visit.reader) : (do
      let item ← items.head?
      let poolNode ← item.node
      pool.bufferNodeToCalc poolNode) = awaited slots slot := by
  obtain ⟨passed,head,rest,isPrevious,rfl,behind,reaches⟩ := queued.kept
  have isNode : (blocker slots slot).map Slot.node = head.node := by
    unfold blocker
    cases round : slot.round with
    | zero =>
      rw [round] at isPrevious
      cases passed with
      | nil =>
        cases isPrevious
        simp
      | cons first passed =>
        injection isPrevious with _ impossible
        cases passed <;> cases impossible
    | succ before =>
      rw [round] at isPrevious
      simp only [Nat.add_right_cancel_iff]
      exact takeUpTheRest_head isPrevious behind reaches
  rw [cons_append,head?_cons]
  change head.node.bind pool.bufferNodeToCalc = _
  rw [← isNode,awaited]
  cases found : blocker slots slot with
  | none => rfl
  | some other => exact reads other (mem_blocker found).1

/-- A request for a whole group. -/
theorem claim (queued : Queued pool.poolSize slots round next limit items) (below : next ≤ pool.poolSize)
    (positive : 0 < need) (capacity : need ≤ pool.poolSize) (ready : limit ≤ next + need)
    (ok : getOffsetAndDependency next need pool items = .ok (start,dependent,queue)) :
    (pool.poolSize < next + need ∧ start = 0 ∧ Queued pool.poolSize slots (round + 1) start (start + need) queue ∨
      next + need ≤ pool.poolSize ∧ start = next ∧ Queued pool.poolSize slots round start (start + need) queue) ∧
      dependent = (do
        let item ← queue.head?
        let poolNode ← item.node
        pool.bufferNodeToCalc poolNode) := by
  rw [getOffsetAndDependency] at ok
  obtain ⟨-,ok⟩ := check_ok ok
  by_cases full : pool.poolSize < next + need
  · obtain ⟨shape,turned⟩ := queued.turn (by omega) below
    rw [if_pos full,shape] at ok
    cases ok
    exact ⟨.inl ⟨full,rfl,turned.pass (0 + need) (by omega) (by omega)⟩,rfl⟩
  · rw [if_neg full] at ok
    cases ok
    exact ⟨.inr ⟨by omega,rfl,queued.pass _ ready (by omega)⟩,rfl⟩

/-- Inside a group the room is there. -/
theorem stay (queued : Queued pool.poolSize slots round next limit items) (room : next + need ≤ limit)
    (capacity : limit ≤ pool.poolSize) (ok : getOffsetAndDependency next need pool items = .ok (start,dependent,queue)) :
    start = next ∧ queue = items := by
  obtain ⟨passed,head,rest,-,rfl,-,reaches⟩ := queued.kept
  rw [getOffsetAndDependency] at ok
  obtain ⟨-,ok⟩ := check_ok ok
  have fits : ¬pool.poolSize < next + need := by omega
  rw [if_neg fits] at ok
  simp only [cons_append] at ok
  rw [dropWhile_cons_of_neg (by simp; omega)] at ok
  cases ok
  exact ⟨rfl,rfl⟩

end Queued
end GraphEngine.Prefetch

import GraphEngine.Lib.Countdown

/-! What an executor asks of its ready queue, and the ring that serves it in the order of arrival. -/
namespace GraphEngine.Executor
open GraphEngine.Lib List

abbrev KernelStatus := UInt32

def kStatusFailed : KernelStatus := 0xFFFFFFFF
def kStatusQueueFull : KernelStatus := 1
def kStatusSuccess : KernelStatus := 0

structure QueueOps (κ ν : Type) where
  isQueueEmpty : κ → Bool
  popQueue : κ → Option ν × κ
  pushQueue : κ → ν → KernelStatus × κ

/-- The operations keep to a discipline on the items that a queue holds, up to its capacity. -/
structure Serves {κ ν : Type} (ops : QueueOps κ ν) (order : Discipline ν) (capacity : Nat)
    (holds : κ → List ν → Prop) : Prop where
  bounded : ∀ {queue items}, holds queue items → items.length ≤ capacity
  isQueueEmpty : ∀ {queue items}, holds queue items → (ops.isQueueEmpty queue = true ↔ items = [])
  popEmpty : ∀ {queue items}, holds queue items → order.dequeue items = none → ops.popQueue queue = (none,queue)
  pop : ∀ {queue items item rest}, holds queue items → order.dequeue items = some (item,rest) →
    ∃ queue', ops.popQueue queue = (some item,queue') ∧ holds queue' rest
  push : ∀ {queue items} item, holds queue items → items.length < capacity →
    ∃ queue', ops.pushQueue queue item = (kStatusSuccess,queue') ∧ holds queue' (order.enqueue items item)

structure RingQueue (ν : Type) where
  cap : Nat
  front : Nat
  back : Nat
  data : Nat → Option ν
  front_lt : front < cap
  back_lt : back < cap

namespace RingQueue
variable {ν : Type}

def createRingQueue (cap : Nat) : RingQueue ν where
  cap := cap + 1
  front := 0
  back := 0
  data _ := none
  front_lt := Nat.succ_pos cap
  back_lt := Nat.succ_pos cap

def isQueueEmpty (que : RingQueue ν) : Bool := que.front == que.back

def after (que : RingQueue ν) (slot : Nat) : Nat := if slot + 1 = que.cap then 0 else slot + 1

theorem after_lt (que : RingQueue ν) {slot : Nat} (inside : slot < que.cap) : que.after slot < que.cap := by
  unfold after
  split <;> omega

def popQueue (que : RingQueue ν) : Option ν × RingQueue ν :=
  if que.isQueueEmpty then (none,que)
  else (que.data que.front,{que with front := que.after que.front, front_lt := que.after_lt que.front_lt})

def pushQueue (que : RingQueue ν) (element : ν) : KernelStatus × RingQueue ν :=
  if que.after que.back = que.front then (kStatusQueueFull,que)
  else (kStatusSuccess,{que with
    data := Function.update que.data que.back (some element)
    back := que.after que.back
    back_lt := que.after_lt que.back_lt})

def ops (ν : Type) : QueueOps (RingQueue ν) ν := ⟨isQueueEmpty,popQueue,pushQueue⟩

/-- The slot of the item that leaves after `i` others. -/
def slot (que : RingQueue ν) (i : Nat) : Nat :=
  if que.front + i < que.cap then que.front + i else que.front + i - que.cap

structure Holds (capacity : Nat) (que : RingQueue ν) (items : List ν) : Prop where
  cap : que.cap = capacity + 1
  fits : items.length ≤ capacity
  back : que.back = que.slot items.length
  data : ∀ i, i < items.length → que.data (que.slot i) = items[i]?

variable {capacity : Nat} {que : RingQueue ν} {items : List ν}

theorem holds_createRingQueue (capacity : Nat) : Holds capacity (createRingQueue capacity : RingQueue ν) [] where
  cap := rfl
  fits := Nat.zero_le _
  back := by simp [createRingQueue,slot]
  data i inside := absurd inside (Nat.not_lt_zero i)

theorem Holds.isQueueEmpty_iff (holds : Holds capacity que items) : que.isQueueEmpty = true ↔ items = [] := by
  have cap := holds.cap
  have fits := holds.fits
  have back := holds.back
  have inside := que.front_lt
  rw [isQueueEmpty,beq_iff_eq,← length_eq_zero_iff]
  unfold slot at back
  split at back <;> omega

theorem Holds.popQueue {item : ν} {rest : List ν} (holds : Holds capacity que (item :: rest)) :
    ∃ que', que.popQueue = (some item,que') ∧ Holds capacity que' rest := by
  have cap := holds.cap
  have fits := holds.fits
  have back := holds.back
  have inside := que.front_lt
  rw [length_cons] at fits back
  have filled : que.isQueueEmpty = false := by
    rw [Bool.eq_false_iff,ne_eq,holds.isQueueEmpty_iff]
    simp
  have first : que.data que.front = some item := by
    have found := holds.data 0 (by simp)
    simpa [slot,inside] using found
  -- the slots keep their items; each is one step nearer to the front
  have nearer : ∀ i, i ≤ capacity → (if que.after que.front + i < que.cap then que.after que.front + i
      else que.after que.front + i - que.cap) = que.slot (i + 1) := by
    intro i small
    unfold slot after
    split_ifs <;> omega
  refine ⟨{que with front := que.after que.front, front_lt := que.after_lt que.front_lt},?_,cap,by omega,?_,?_⟩
  · simp [RingQueue.popQueue,filled,first]
  · exact back.trans (nearer rest.length (by omega)).symm
  · intro i small
    have found := holds.data (i + 1) (by simpa using small)
    rw [← nearer i (by omega)] at found
    exact found

theorem Holds.pushQueue (holds : Holds capacity que items) (room : items.length < capacity) (item : ν) :
    ∃ que', que.pushQueue item = (kStatusSuccess,que') ∧ Holds capacity que' (items ++ [item]) := by
  have cap := holds.cap
  have back := holds.back
  have inside := que.front_lt
  have next : que.after que.back = que.slot (items.length + 1) := by
    rw [back]
    unfold slot after
    split_ifs <;> omega
  have open_ : que.after que.back ≠ que.front := by
    rw [next]
    unfold slot
    split_ifs <;> omega
  have pushed : que.pushQueue item = (kStatusSuccess,_) := if_neg open_
  refine ⟨_,pushed,cap,?_,?_,?_⟩
  · rw [length_append,length_singleton]
    exact room
  · rw [length_append,length_singleton]
    exact next
  · intro i small
    rw [length_append,length_singleton] at small
    change Function.update que.data que.back (some item) (que.slot i) = _
    by_cases last : i = items.length
    · subst last
      rw [back]
      simp
    · have apart : que.slot i ≠ que.back := by
        rw [back]
        unfold slot
        split_ifs <;> omega
      rw [Function.update_of_ne apart,holds.data i (by omega),getElem?_append_left (by omega)]

theorem serves (ν : Type) (capacity : Nat) : Serves (ops ν) (.fifo ν) capacity (Holds capacity) where
  bounded holds := holds.fits
  isQueueEmpty holds := holds.isQueueEmpty_iff
  popEmpty {queue items} holds taken := by
    cases items with
    | nil =>
      have empty := holds.isQueueEmpty_iff.mpr rfl
      simp [ops,popQueue,empty]
    | cons item items => cases taken
  pop {queue items item rest} holds taken := by
    cases items with
    | nil => cases taken
    | cons item items =>
      cases taken
      exact holds.popQueue
  push item holds room := holds.pushQueue room item

end RingQueue

end GraphEngine.Executor

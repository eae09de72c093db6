import GraphEngine.Executor.ReadyQueue

/-! The queue that serves the node of least priority first: a binary heap whose positions count from
one, as in the source. The list holds the live slots, position one first. -/
namespace GraphEngine.Executor
open GraphEngine.Lib List

namespace PriorityQueue
variable {ν : Type}

section Sift
variable (priority : ν → Int)

def priorityAt (data : List ν) (pos : Nat) : Int := (data[pos - 1]?).elim 0 priority

def swap (data : List ν) (pos1 pos2 : Nat) : List ν :=
  match data[pos1 - 1]?,data[pos2 - 1]? with
  | some first,some second => (data.set (pos1 - 1) second).set (pos2 - 1) first
  | _,_ => data

def siftUp : Nat → List ν → Nat → List ν
  | 0,data,_ => data
  | fuel + 1,data,elementPos =>
    if 1 < elementPos then
      let parentPos := elementPos / 2
      if priorityAt priority data parentPos ≤ priorityAt priority data elementPos then data
      else siftUp fuel (swap data elementPos parentPos) parentPos
    else data

def childPos (data : List ν) (elementPos : Nat) : Nat :=
  if elementPos * 2 < data.length ∧
      priorityAt priority data (elementPos * 2 + 1) < priorityAt priority data (elementPos * 2)
  then elementPos * 2 + 1 else elementPos * 2

def siftDown : Nat → List ν → Nat → List ν
  | 0,data,_ => data
  | fuel + 1,data,elementPos =>
    if elementPos * 2 ≤ data.length then
      let child := childPos priority data elementPos
      if priorityAt priority data elementPos ≤ priorityAt priority data child then data
      else siftDown fuel (swap data elementPos child) child
    else data

def moveLast (rest : List ν) : List ν :=
  match rest.getLast? with
  | none => []
  | some last => last :: rest.dropLast

def Ordered (data : List ν) : Prop :=
  ∀ pos, 2 ≤ pos → pos ≤ data.length → priorityAt priority data (pos / 2) ≤ priorityAt priority data pos

end Sift

theorem swap_perm (data : List ν) (pos1 pos2 : Nat) : (swap data pos1 pos2).Perm data := by
  unfold swap
  split
  next first second found found' =>
    obtain ⟨inside,rfl⟩ := List.getElem?_eq_some_iff.mp found
    obtain ⟨inside',rfl⟩ := List.getElem?_eq_some_iff.mp found'
    exact set_set_perm inside inside'
  next => exact .refl _

theorem siftUp_perm (priority : ν → Int) (fuel : Nat) (data : List ν) (pos : Nat) :
    (siftUp priority fuel data pos).Perm data := by
  induction fuel generalizing data pos with
  | zero => exact .refl _
  | succ fuel ih =>
    simp only [siftUp]
    split
    · split
      · exact .refl _
      · exact (ih _ _).trans (swap_perm _ _ _)
    · exact .refl _

theorem siftDown_perm (priority : ν → Int) (fuel : Nat) (data : List ν) (pos : Nat) :
    (siftDown priority fuel data pos).Perm data := by
  induction fuel generalizing data pos with
  | zero => exact .refl _
  | succ fuel ih =>
    simp only [siftDown]
    split
    · split
      · exact .refl _
      · exact (ih _ _).trans (swap_perm _ _ _)
    · exact .refl _

theorem moveLast_perm (rest : List ν) : (moveLast rest).Perm rest := by
  unfold moveLast
  cases last : rest.getLast? with
  | none => rw [getLast?_eq_none_iff.mp last]
  | some item =>
    obtain ⟨front,rfl⟩ := getLast?_eq_some_iff.mp last
    rw [dropLast_concat]
    exact (perm_append_singleton item front).symm

section Order
variable {priority : ν → Int} {data : List ν} {hole pos : Nat}

theorem swap_length (data : List ν) (pos1 pos2 : Nat) : (swap data pos1 pos2).length = data.length :=
  (swap_perm data pos1 pos2).length_eq

theorem priorityAt_swap {pos1 pos2 : Nat} (low1 : 1 ≤ pos1) (high1 : pos1 ≤ data.length) (low2 : 1 ≤ pos2)
    (high2 : pos2 ≤ data.length) (low : 1 ≤ pos) : priorityAt priority (swap data pos1 pos2) pos =
      priorityAt priority data (if pos = pos1 then pos2 else if pos = pos2 then pos1 else pos) := by
  have found1 : data[pos1 - 1]? = some (data.get ⟨pos1 - 1,by omega⟩) := by simp
  have found2 : data[pos2 - 1]? = some (data.get ⟨pos2 - 1,by omega⟩) := by simp
  have swapped : swap data pos1 pos2 =
      (data.set (pos1 - 1) (data.get ⟨pos2 - 1,by omega⟩)).set (pos2 - 1) (data.get ⟨pos1 - 1,by omega⟩) := by
    rw [swap,found1,found2]
  have slot : (swap data pos1 pos2)[pos - 1]? =
      data[(if pos = pos1 then pos2 else if pos = pos2 then pos1 else pos) - 1]? := by
    rw [swapped]
    grind
  rw [priorityAt,priorityAt,slot]

structure Rising (priority : ν → Int) (data : List ν) (hole : Nat) : Prop where
  except : ∀ pos, 2 ≤ pos → pos ≤ data.length → pos ≠ hole →
    priorityAt priority data (pos / 2) ≤ priorityAt priority data pos
  grand : ∀ pos, pos ≤ data.length → pos / 2 = hole → 2 ≤ hole →
    priorityAt priority data (hole / 2) ≤ priorityAt priority data pos

structure Falling (priority : ν → Int) (data : List ν) (hole : Nat) : Prop where
  except : ∀ pos, 2 ≤ pos → pos ≤ data.length → pos / 2 ≠ hole →
    priorityAt priority data (pos / 2) ≤ priorityAt priority data pos
  grand : ∀ pos, pos ≤ data.length → pos / 2 = hole → 2 ≤ hole →
    priorityAt priority data (hole / 2) ≤ priorityAt priority data pos

theorem Rising.step (rising : Rising priority data hole) (low : 2 ≤ hole) (high : hole ≤ data.length)
    (smaller : priorityAt priority data hole < priorityAt priority data (hole / 2)) :
    Rising priority (swap data hole (hole / 2)) (hole / 2) := by
  have moved : ∀ pos, 1 ≤ pos → priorityAt priority (swap data hole (hole / 2)) pos =
      priorityAt priority data (if pos = hole then hole / 2 else if pos = hole / 2 then hole else pos) :=
    fun pos least => priorityAt_swap (by omega) high (by omega) (by omega) least
  constructor
  · intro pos least most away
    rw [swap_length] at most
    rw [moved pos (by omega),moved (pos / 2) (by omega)]
    by_cases here : pos = hole
    · subst here
      rw [if_pos rfl,if_neg (by omega),if_pos rfl]
      exact smaller.le
    · rw [if_neg here,if_neg away]
      by_cases below : pos / 2 = hole
      · rw [if_pos below]
        exact rising.grand pos most below low
      · rw [if_neg below]
        have before := rising.except pos least most here
        by_cases beside : pos / 2 = hole / 2
        · rw [if_pos beside]
          rw [beside] at before
          exact smaller.le.trans before
        · rw [if_neg beside]
          exact before
  · intro pos most below least
    rw [swap_length] at most
    have above := rising.except (hole / 2) least (by omega) (by omega)
    rw [moved pos (by omega),moved (hole / 2 / 2) (by omega),if_neg (by omega),if_neg (by omega)]
    by_cases here : pos = hole
    · rw [if_pos here]
      exact above
    · rw [if_neg here,if_neg (by omega)]
      have before := rising.except pos (by omega) most here
      rw [below] at before
      exact above.trans before

theorem siftUp_ordered {fuel : Nat} (rising : Rising priority data hole) (low : 1 ≤ hole) (high : hole ≤ data.length)
    (enough : hole ≤ fuel) : Ordered priority (siftUp priority fuel data hole) := by
  induction fuel generalizing data hole with
  | zero => omega
  | succ fuel ih =>
    simp only [siftUp]
    split
    next inner =>
      split
      next settled =>
        intro pos least most
        by_cases here : pos = hole
        · rw [here]
          exact settled
        · exact rising.except pos least most here
      next smaller =>
        apply ih (rising.step inner high (by omega)) (by omega) _ (by omega)
        rw [swap_length]
        omega
    next top =>
      intro pos least most
      exact rising.except pos least most (by omega)

theorem childPos_spec (priority : ν → Int) (inside : hole * 2 ≤ data.length) : childPos priority data hole / 2 = hole ∧
    childPos priority data hole ≤ data.length ∧ ∀ pos, pos ≤ data.length → pos / 2 = hole →
      priorityAt priority data (childPos priority data hole) ≤ priorityAt priority data pos := by
  unfold childPos
  split
  next right =>
    refine ⟨by omega,by omega,fun pos most below => ?_⟩
    rcases (show pos = hole * 2 ∨ pos = hole * 2 + 1 by omega) with rfl | rfl
    · exact right.2.le
    · exact le_rfl
  next left =>
    refine ⟨by omega,inside,fun pos most below => ?_⟩
    rcases (show pos = hole * 2 ∨ pos = hole * 2 + 1 by omega) with rfl | rfl
    · exact le_rfl
    · by_contra smaller
      exact left ⟨by omega,by omega⟩

theorem Falling.step {child : Nat} (falling : Falling priority data hole) (low : 1 ≤ hole) (below : child / 2 = hole)
    (high : child ≤ data.length)
    (least : ∀ pos, pos ≤ data.length → pos / 2 = hole → priorityAt priority data child ≤ priorityAt priority data pos)
    (smaller : priorityAt priority data child < priorityAt priority data hole) :
    Falling priority (swap data hole child) child := by
  have moved : ∀ pos, 1 ≤ pos → priorityAt priority (swap data hole child) pos =
      priorityAt priority data (if pos = hole then child else if pos = child then hole else pos) :=
    fun pos first => priorityAt_swap low (by omega) (by omega) high first
  constructor
  · intro pos first most away
    rw [swap_length] at most
    rw [moved pos (by omega),moved (pos / 2) (by omega)]
    by_cases here : pos = hole
    · subst here
      rw [if_pos rfl,if_neg (by omega),if_neg (by omega)]
      exact falling.grand child high below first
    · rw [if_neg here]
      by_cases under : pos / 2 = hole
      · rw [if_pos under]
        by_cases same : pos = child
        · rw [if_pos same]
          exact smaller.le
        · rw [if_neg same]
          exact least pos most under
      · rw [if_neg under,if_neg away,if_neg (by rintro rfl; exact under below)]
        exact falling.except pos first most under
  · intro pos most under first
    rw [swap_length] at most
    rw [moved pos (by omega),below,moved hole low,if_pos rfl,if_neg (by omega),if_neg (by omega)]
    have before := falling.except pos (by omega) most (by omega)
    rw [under] at before
    exact before

theorem siftDown_ordered {fuel : Nat} (falling : Falling priority data hole) (low : 1 ≤ hole)
    (enough : data.length < hole + fuel) : Ordered priority (siftDown priority fuel data hole) := by
  induction fuel generalizing data hole with
  | zero =>
    intro pos least most
    exact falling.except pos least most (by simp only [siftDown] at most; omega)
  | succ fuel ih =>
    simp only [siftDown]
    split
    next inside =>
      obtain ⟨below,high,least⟩ := childPos_spec priority inside
      split
      next settled =>
        intro pos first most
        by_cases under : pos / 2 = hole
        · rw [under]
          exact settled.trans (least pos most under)
        · exact falling.except pos first most under
      next smaller =>
        apply ih (falling.step low below high least (by omega)) (by omega)
        rw [swap_length]
        omega
    next leaf =>
      intro pos first most
      exact falling.except pos first most (by omega)

theorem Ordered.push (ordered : Ordered priority data) (item : ν) :
    Ordered priority (siftUp priority (data.length + 1) (data ++ [item]) (data.length + 1)) := by
  have same : ∀ pos, 1 ≤ pos → pos ≤ data.length →
      priorityAt priority (data ++ [item]) pos = priorityAt priority data pos := by
    intro pos low high
    rw [priorityAt,getElem?_append_left (by omega),priorityAt]
  apply siftUp_ordered _ (by omega) (by simp) le_rfl
  constructor
  · intro pos least most away
    rw [length_append,length_singleton] at most
    rw [same pos (by omega) (by omega),same (pos / 2) (by omega) (by omega)]
    exact ordered pos least (by omega)
  · intro pos most below least
    rw [length_append,length_singleton] at most
    omega

theorem Ordered.pop {first : ν} {rest : List ν} (ordered : Ordered priority (first :: rest)) :
    Ordered priority (siftDown priority rest.length (moveLast rest) 1) := by
  have length : (moveLast rest).length = rest.length := (moveLast_perm rest).length_eq
  have same : ∀ pos, 2 ≤ pos → pos ≤ rest.length →
      priorityAt priority (moveLast rest) pos = priorityAt priority (first :: rest) pos := by
    intro pos low high
    obtain ⟨last,final⟩ : ∃ last, rest.getLast? = some last := by
      cases final : rest.getLast? with
      | none => rw [getLast?_eq_none_iff.mp final] at high; simp at high; omega
      | some last => exact ⟨last,rfl⟩
    rw [priorityAt,priorityAt,moveLast,final]
    have position : pos - 1 = (pos - 2) + 1 := by omega
    simp only [position,getElem?_cons_succ]
    rw [getElem?_dropLast,if_pos (by omega)]
  apply siftDown_ordered _ le_rfl (by omega)
  constructor
  · intro pos least most away
    rw [length] at most
    rw [same pos least most,same (pos / 2) (by omega) (by omega)]
    exact ordered pos least (by simp only [length_cons]; omega)
  · intro pos most below least
    omega

theorem Ordered.least (ordered : Ordered priority data) (low : 1 ≤ pos) (high : pos ≤ data.length) :
    priorityAt priority data 1 ≤ priorityAt priority data pos := by
  induction pos using Nat.strong_induction_on with
  | _ pos ih =>
    rcases (show pos = 1 ∨ 2 ≤ pos by omega) with rfl | inner
    · exact le_rfl
    · exact (ih (pos / 2) (by omega) (by omega) (by omega)).trans (ordered pos inner high)

end Order

end PriorityQueue

structure PriorityQueue {ν : Type} (priority : ν → Int) where
  cap : Nat
  data : List ν
  ordered : PriorityQueue.Ordered priority data

namespace PriorityQueue
variable {ν : Type} {priority : ν → Int}

def createPriorityQueue (capacity : Nat) : PriorityQueue priority where
  cap := capacity
  data := []
  ordered pos _ most := by simp only [List.length_nil] at most; omega

def isQueueEmpty (que : PriorityQueue priority) : Bool := que.data.length == 0

def popQueue (que : PriorityQueue priority) : Option ν × PriorityQueue priority :=
  match que with
  | ⟨_,[],_⟩ => (none,que)
  | ⟨cap,first :: rest,ordered⟩ => (some first,⟨cap,siftDown priority rest.length (moveLast rest) 1,ordered.pop⟩)

def pushQueue (que : PriorityQueue priority) (element : ν) : KernelStatus × PriorityQueue priority :=
  if que.data.length ≥ que.cap then (kStatusQueueFull,que)
  else (kStatusSuccess,⟨que.cap,siftUp priority (que.data.length + 1) (que.data ++ [element]) (que.data.length + 1),
    que.ordered.push element⟩)

def ops (priority : ν → Int) : QueueOps (PriorityQueue priority) ν := ⟨isQueueEmpty,popQueue,pushQueue⟩

theorem popQueue_least {que que' : PriorityQueue priority} {item : ν} (popped : que.popQueue = (some item,que')) :
    ∀ other ∈ que.data, priority item ≤ priority other := by
  intro other member
  obtain ⟨cap,data,ordered⟩ := que
  cases data with
  | nil => cases member
  | cons first rest =>
    cases popped
    obtain ⟨i,inside,rfl⟩ := getElem_of_mem (show other ∈ item :: rest from member)
    have least := ordered.least (show 1 ≤ i + 1 by omega) inside
    simpa [priorityAt,getElem?_eq_getElem inside] using least

def discipline (priority : ν → Int) : Discipline ν where
  enqueue items item := siftUp priority (items.length + 1) (items ++ [item]) (items.length + 1)
  dequeue
    | [] => none
    | first :: rest => some (first,siftDown priority rest.length (moveLast rest) 1)
  enqueue_perm items item := (siftUp_perm ..).trans (List.perm_append_singleton item items)
  dequeue_nil := rfl
  dequeue_cons first rest :=
    ⟨first,_,rfl,.cons first ((siftDown_perm ..).trans (moveLast_perm rest)).symm⟩

def Holds (capacity : Nat) (que : PriorityQueue priority) (items : List ν) : Prop :=
  que.cap = capacity ∧ que.data = items ∧ items.length ≤ capacity

theorem holds_createPriorityQueue (capacity : Nat) :
    Holds capacity (createPriorityQueue capacity : PriorityQueue priority) [] := ⟨rfl,rfl,Nat.zero_le _⟩

theorem serves (priority : ν → Int) (capacity : Nat) :
    Serves (ops priority) (discipline priority) capacity (Holds capacity) where
  bounded holds := holds.2.2
  isQueueEmpty := by
    rintro que items ⟨-,rfl,-⟩
    simp [ops,isQueueEmpty]
  popEmpty := by
    rintro ⟨cap,data,ordered⟩ items ⟨-,rfl,-⟩ taken
    cases data with
    | nil => rfl
    | cons first rest => cases taken
  pop := by
    rintro ⟨cap,data,ordered⟩ items item rest ⟨rfl,rfl,fits⟩ taken
    cases data with
    | nil => cases taken
    | cons first rest =>
      cases taken
      refine ⟨_,rfl,rfl,rfl,?_⟩
      rw [((siftDown_perm ..).trans (moveLast_perm rest)).length_eq]
      exact Nat.le_of_succ_le fits
  push := by
    rintro que items item ⟨rfl,rfl,fits⟩ room
    refine ⟨_,if_neg (by omega),rfl,rfl,?_⟩
    rw [((discipline priority).enqueue_perm que.data item).length_eq]
    exact room

end PriorityQueue

end GraphEngine.Executor

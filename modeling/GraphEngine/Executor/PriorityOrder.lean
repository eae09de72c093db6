import GraphEngine.Executor.Rerun

/-! The priority-topological executor runs, at each moment, a node of least priority among those that are ready; the queue
behind it gives back what was put in, a least element first. -/
namespace GraphEngine.Executor
open GraphEngine.Lib List PriorityQueue

namespace PriorityQueue
variable {ν : Type} {priority : ν → Int}

inductive History (priority : ν → Int) (capacity : Nat) : List ν → List ν → PriorityQueue priority → Prop where
  | create : History priority capacity [] [] (createPriorityQueue capacity)
  | push {pushed popped que que'} (item : ν) (status : KernelStatus) : History priority capacity pushed popped que →
      que.data.length < capacity → que.pushQueue item = (status,que') → History priority capacity (item :: pushed) popped que'
  | pop {pushed popped que que'} (item : ν) : History priority capacity pushed popped que →
      que.popQueue = (some item,que') → History priority capacity pushed (item :: popped) que'

structure Sound (priority : ν → Int) (capacity : Nat) (pushed popped : List ν) (que : PriorityQueue priority) : Prop where
  ordered : Ordered priority que.data
  contents : (popped ++ que.data).Perm pushed
  bounded : que.data.length ≤ capacity
  accepts : ∀ item, que.data.length < capacity → (que.pushQueue item).1 = kStatusSuccess
  empties : que.popQueue.1 = none ↔ que.data = []
  least : ∀ item que', que.popQueue = (some item,que') → item ∈ que.data ∧ ∀ other ∈ que.data, priority item ≤ priority other

variable {que que' : PriorityQueue priority} {item : ν} {capacity : Nat} {pushed popped : List ν}

theorem popQueue_perm (popped : que.popQueue = (some item,que')) :
    que.data.Perm (item :: que'.data) ∧ que'.cap = que.cap := by
  obtain ⟨cap,data,ordered⟩ := que
  cases data with
  | nil => cases popped
  | cons first rest =>
    cases popped
    exact ⟨.cons item ((siftDown_perm ..).trans (moveLast_perm rest)).symm,rfl⟩

theorem History.contents (history : History priority capacity pushed popped que) :
    que.cap = capacity ∧ (popped ++ que.data).Perm pushed ∧ que.data.length ≤ capacity := by
  induction history with
  | create => exact ⟨rfl,.refl _,Nat.zero_le _⟩
  | @push pushed popped que que' item status _ room done_ ih =>
    obtain ⟨cap,contents,_⟩ := ih
    rw [pushQueue,if_neg (by omega)] at done_
    cases done_
    have perm := (discipline priority).enqueue_perm que.data item
    refine ⟨cap,?_,?_⟩
    · exact ((perm.append_left popped).trans perm_middle).trans (contents.cons item)
    · exact perm.length_eq.trans_le room
  | @pop pushed popped que que' item _ done_ ih =>
    obtain ⟨cap,contents,bounded⟩ := ih
    obtain ⟨perm,cap'⟩ := popQueue_perm done_
    refine ⟨cap'.trans cap,?_,?_⟩
    · exact (perm_middle.symm.trans (perm.symm.append_left popped)).trans contents
    · have shorter := perm.length_eq
      rw [length_cons] at shorter
      omega

theorem History.sound
    (history : History priority capacity pushed popped que) : Sound priority capacity pushed popped que := by
  obtain ⟨cap,contents,bounded⟩ := history.contents
  refine ⟨que.ordered,contents,bounded,?_,?_,?_⟩
  · intro item room
    rw [pushQueue,if_neg (by omega)]
  · obtain ⟨_,data,_⟩ := que
    cases data <;> simp [popQueue]
  · intro item que' popped
    exact ⟨(popQueue_perm popped).1.mem_iff.mpr mem_cons_self,popQueue_least popped⟩

theorem prefers [DecidableEq ν] [Fintype ν] (priority : ν → Int) :
    Countdown.Prefers (discipline priority) (Ordered priority) fun item other => priority item ≤ priority other where
  enqueue items item ordered := ordered.push item
  dequeue items item rest ordered taken := by
    cases items with
    | nil => cases taken
    | cons first others =>
      cases taken
      exact ⟨ordered.pop,popQueue_least (show popQueue ⟨0,item :: others,ordered⟩ = (some item,_) from rfl)⟩

end PriorityQueue

section Runs
variable {n : Nat} {σ : Type} {d : TopologicalExecutionData n σ} (wellFormed : WellFormed d)
include wellFormed

theorem schedule_preferred : Countdown.Preferred d.nodeWatchers (fun node other => d.priority node ≤ d.priority other)
      (schedule d (discipline d.priority)).reverse := by
  have kept := Countdown.kept_start (discipline d.priority) wellFormed.indegree wellFormed.start
    wellFormed.startOnce
  have prefers := prefers d.priority
  have empty : PriorityQueue.Ordered d.priority [] := (createPriorityQueue 0).ordered
  have preferred := kept.visit_preferred prefers n (prefers.enqueueAll empty d.startNodes) trivial
  rwa [append_nil] at preferred

theorem executed_suffix {s s' : ExecState n σ (PriorityQueue d.priority)} {call : Call n σ} {status : KernelStatus}
    (session : Session d (createPriorityQueue (n + 1)) (Call.priorityTopological d) s)
    (subscribed : call.notify?.isSome) (done_ : Call.priorityTopological d call s = some (status,s')) :
    s'.executed.map Prod.fst <:+ (schedule d (discipline d.priority)).reverse := by
  have heap : Call.priorityTopological d = Call.perform (ops d.priority) d := by
    funext call
    cases call <;> rfl
  rw [heap] at session done_
  obtain ⟨notify,told⟩ := Option.isSome_iff_exists.mp subscribed
  have serves := serves d.priority (n + 1)
  obtain ⟨⟨items,queue⟩,restored⟩ := session_between serves (Nat.le_succ n) le_rfl wellFormed
    (holds_createPriorityQueue (n + 1)) session
  obtain ⟨status',s'',done',ends⟩ := execute_spec serves (Nat.le_succ n) le_rfl wellFormed queue restored
  rw [Call.perform_of_some (ops d.priority) d told,done'] at done_
  cases done_
  obtain ⟨ran,first,calls,_⟩ := story_calls d notify (schedule d (discipline d.priority))
    (notify .kModelStart none kStatusSuccess s.world) []
  rw [← ends.story] at calls
  simp only [map_nil,append_nil] at calls
  rw [calls]
  exact reverse_suffix.mpr first

/-- In every run after any others, failing ones included, each node was ready when it was called and of least priority among the
ready ones. -/
def RunsLeastReady (d : TopologicalExecutionData n σ) : Prop :=
  ∀ s call status s', Session d (PriorityQueue.createPriorityQueue (n + 1)) (Call.priorityTopological d) s →
    call.notify?.isSome → Call.priorityTopological d call s = some (status,s') →
    ∀ newer node older, s'.executed.map Prod.fst = newer ++ node :: older →
      Countdown.Ready d.nodeWatchers older node ∧
      ∀ other, Countdown.Ready d.nodeWatchers older other → d.priority node ≤ d.priority other

theorem runsLeastReady : RunsLeastReady d := by
  intro s call status s' session subscribed done_ newer node older executed
  obtain ⟨once,sequenced,_⟩ := schedule_spec (discipline d.priority) wellFormed
  obtain ⟨later,whole⟩ := executed_suffix wellFormed session subscribed done_
  rw [executed,← append_assoc] at whole
  have preferred := schedule_preferred wellFormed
  rw [← nodup_reverse] at once
  rw [← whole] at once sequenced preferred
  have fresh : node ∉ older := (nodup_cons.mp once.of_append_right).1
  exact ⟨⟨fresh,fun source edge => sequenced.before edge⟩,preferred.chosen⟩

end Runs

/-- The executor serves a least ready node in every run; every queue in use is in heap order and holds what was pushed and
not popped. -/
theorem priority_order {n : Nat} {σ : Type} (d : TopologicalExecutionData n σ) (wellFormed : WellFormed d) :
    RunsLeastReady d ∧ ∀ (ν : Type) (priority : ν → Int) capacity pushed popped que,
      PriorityQueue.History priority capacity pushed popped que → PriorityQueue.Sound priority capacity pushed popped que :=
  ⟨runsLeastReady wellFormed,fun _ _ _ _ _ _ history => history.sound⟩

theorem priority_order_diamond : WellFormed diamond ∧ RunsLeastReady diamond := by
  have wellFormed : WellFormed diamond := ⟨by decide,by decide,by decide,acyclic_of_rank (·.val) (by decide)⟩
  exact ⟨wellFormed,(priority_order diamond wellFormed).1⟩

end GraphEngine.Executor

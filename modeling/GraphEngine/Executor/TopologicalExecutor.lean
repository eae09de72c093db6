import GraphEngine.Executor.PriorityQueue

/-! The topological and the priority-topological executor. Both run the nodes as their in-degree
counters reach zero and wind the counters up again on the way; they differ in the ready queue. -/
namespace GraphEngine.Executor
open GraphEngine.Lib Function List
open Countdown (visit)

/-- The part of the execution data that no run changes. A node is named by its id, its index in
`nodes`; what the node functions read and write is one state. -/
structure TopologicalExecutionData (n : Nat) (σ : Type) where
  func : Fin n → σ → KernelStatus × σ
  priority : Fin n → Int
  startNodes : List (Fin n)
  nodeWatchers : Fin n → List (Fin n)
  nodeIndegreesBackup : Fin n → Int

/-- The part that runs change, with the node functions called, newest first, and what `PushQueue` answered, which the source
ignores. -/
structure ExecState (n : Nat) (σ κ : Type) where
  readyQueue : κ
  nodeIndegrees : Fin n → Int
  world : σ
  executed : List (Fin n × KernelStatus)
  pushed : List KernelStatus

inductive ExecutorEvent where
  | kExecuteStart
  | kExecuteEnd
  | kModelStart
  | kModelEnd
  | kExecuteEventEnd

abbrev Notify (n : Nat) (σ : Type) := ExecutorEvent → Option (Fin n) → KernelStatus → σ → σ

structure ExecutorSubscriber (n : Nat) (σ : Type) where
  callback : Option (Int → Notify n σ)

section Execute
variable {n : Nat} {σ κ : Type} (ops : QueueOps κ (Fin n)) (d : TopologicalExecutionData n σ) (notify : Notify n σ)

/-- `none` when the fuel does not last until the queue is empty. -/
def clear : Nat → κ → Option (Nat × κ)
  | 0,_ => none
  | fuel + 1,queue =>
    match ops.popQueue queue with
    | (none,queue) => some (0,queue)
    | (some _,queue) => (clear fuel queue).map fun (popCount,queue) => (popCount + 1,queue)

def recoverNodeInDegrees (s : ExecState n σ κ) : ExecState n σ κ := {s with nodeIndegrees := d.nodeIndegreesBackup}

def push (s : ExecState n σ κ) (node : Fin n) : ExecState n σ κ :=
  let (status,queue) := ops.pushQueue s.readyQueue node
  {s with readyQueue := queue, pushed := status :: s.pushed}

def pushStart : List (Fin n) → ExecState n σ κ → ExecState n σ κ
  | [],s => s
  | node :: nodes,s => pushStart nodes (push ops s node)

def wakeWatcher (s : ExecState n σ κ) (nodeId : Fin n) : ExecState n σ κ :=
  let counted := {s with nodeIndegrees := Function.update s.nodeIndegrees nodeId (s.nodeIndegrees nodeId - 1)}
  if s.nodeIndegrees nodeId - 1 = 0 then
    let queued := push ops counted nodeId
    {queued with nodeIndegrees := Function.update queued.nodeIndegrees nodeId (d.nodeIndegreesBackup nodeId)}
  else counted

def wakeWatchers : List (Fin n) → ExecState n σ κ → ExecState n σ κ
  | [],s => s
  | nodeId :: nodeIds,s => wakeWatchers nodeIds (wakeWatcher ops d s nodeId)

/-- The loop over the ready nodes. `none` when the fuel does not last. -/
def loop : Nat → ExecState n σ κ → Option (KernelStatus × ExecState n σ κ)
  | 0,_ => none
  | fuel + 1,s =>
    match ops.popQueue s.readyQueue with
    | (none,queue) =>
      some (kStatusSuccess,{s with
        readyQueue := queue
        world := notify .kModelEnd none kStatusSuccess s.world})
    | (some node,queue) =>
      let (ret,world) := d.func node (notify .kExecuteStart (some node) kStatusSuccess s.world)
      let ran := {s with
        readyQueue := queue
        world := notify .kExecuteEnd (some node) ret world
        executed := (node,ret) :: s.executed}
      if ret ≠ kStatusSuccess then some (ret,recoverNodeInDegrees d ran)
      else loop fuel (wakeWatchers ops d (d.nodeWatchers node) ran)

def execute (s : ExecState n σ κ) : Option (KernelStatus × ExecState n σ κ) :=
  match clear ops (n + 2) s.readyQueue with
  | none => none
  | some (_,queue) =>
    let started := pushStart ops d.startNodes {s with readyQueue := queue, executed := [], pushed := []}
    loop ops d notify (n + 1) {started with world := notify .kModelStart none kStatusSuccess started.world}

def executeWithCallback (subGraphType : Int) (es : Option (ExecutorSubscriber n σ)) (s : ExecState n σ κ) :
    Option (KernelStatus × ExecState n σ κ) :=
  match es with
  | some ⟨some callback⟩ => execute ops d (callback subGraphType) s
  | _ => some (kStatusFailed,s)

end Execute

section Executors
variable {n : Nat} {σ : Type} (d : TopologicalExecutionData n σ)

def topologicalExecute (s : ExecState n σ (RingQueue (Fin n))) :
    Option (KernelStatus × ExecState n σ (RingQueue (Fin n))) :=
  execute (RingQueue.ops (Fin n)) d (fun _ _ _ world => world) s

def topologicalExecuteWithCallback (subGraphType : Int) (es : Option (ExecutorSubscriber n σ))
    (s : ExecState n σ (RingQueue (Fin n))) : Option (KernelStatus × ExecState n σ (RingQueue (Fin n))) :=
  executeWithCallback (RingQueue.ops (Fin n)) d subGraphType es s

def priorityTopologicalExecute (s : ExecState n σ (PriorityQueue d.priority)) :
    Option (KernelStatus × ExecState n σ (PriorityQueue d.priority)) :=
  execute (PriorityQueue.ops d.priority) d (fun _ _ _ world => world) s

def priorityTopologicalExecuteWithCallback (subGraphType : Int) (es : Option (ExecutorSubscriber n σ))
    (s : ExecState n σ (PriorityQueue d.priority)) : Option (KernelStatus × ExecState n σ (PriorityQueue d.priority)) :=
  executeWithCallback (PriorityQueue.ops d.priority) d subGraphType es s

end Executors

section Story
variable {n : Nat} {σ : Type} (d : TopologicalExecutionData n σ) (notify : Notify n σ)

def story : List (Fin n) → σ → List (Fin n × KernelStatus) → KernelStatus × σ × List (Fin n × KernelStatus)
  | [],world,executed => (kStatusSuccess,notify .kModelEnd none kStatusSuccess world,executed)
  | node :: nodes,world,executed =>
    let (ret,after) := d.func node (notify .kExecuteStart (some node) kStatusSuccess world)
    let ended := notify .kExecuteEnd (some node) ret after
    if ret ≠ kStatusSuccess then (ret,ended,(node,ret) :: executed) else story nodes ended ((node,ret) :: executed)

def schedule (order : Discipline (Fin n)) : List (Fin n) :=
  Countdown.visit order d.nodeIndegreesBackup d.nodeWatchers n
    ⟨order.enqueueAll [] d.startNodes,d.nodeIndegreesBackup⟩

end Story

structure WellFormed {n : Nat} {σ : Type} (d : TopologicalExecutionData n σ) : Prop where
  indegree : ∀ node, d.nodeIndegreesBackup node = (∑ source, (d.nodeWatchers source).count node : Nat)
  start : ∀ node, node ∈ d.startNodes ↔ d.nodeIndegreesBackup node = 0
  startOnce : d.startNodes.Nodup
  acyclic : ∀ node, ¬ Relation.TransGen (fun source target => target ∈ d.nodeWatchers source) node node

section Refinement
variable {n : Nat} {σ κ : Type} {ops : QueueOps κ (Fin n)} {d : TopologicalExecutionData n σ} {notify : Notify n σ}
  {order : Discipline (Fin n)} {capacity : Nat} {holds : κ → List (Fin n) → Prop}
  {s s' : ExecState n σ κ} {pace : Countdown.Pace (Fin n)} {done : List (Fin n)}

structure Tracks (holds : κ → List (Fin n) → Prop) (s : ExecState n σ κ) (pace : Countdown.Pace (Fin n)) : Prop where
  queue : holds s.readyQueue pace.ready
  indegrees : s.nodeIndegrees = pace.left
  accepted : ∀ status ∈ s.pushed, status = kStatusSuccess

structure SameStory (s s' : ExecState n σ κ) : Prop where
  world : s'.world = s.world
  executed : s'.executed = s.executed

variable {fuel : Nat} {items nodes : List (Fin n)}

theorem clear_spec (serves : Serves ops order capacity holds) {queue : κ}
    (held : holds queue items) (enough : items.length < fuel) :
    ∃ popCount queue', clear ops fuel queue = some (popCount,queue') ∧ holds queue' [] := by
  induction fuel generalizing queue items with
  | zero => omega
  | succ fuel ih =>
    cases taken : order.dequeue items with
    | none =>
      have popped := serves.popEmpty held taken
      have empty := order.dequeue_eq_none taken
      exact ⟨0,queue,by simp [clear,popped],empty ▸ held⟩
    | some next =>
      obtain ⟨queue₁,popped,held₁⟩ := serves.pop held taken
      have shorter := (order.dequeue_perm taken).length_eq
      rw [length_cons] at shorter
      obtain ⟨popCount,queue₂,cleared,empty⟩ := ih held₁ (by omega)
      exact ⟨popCount + 1,queue₂,by simp [clear,popped,cleared],empty⟩

theorem Tracks.push (serves : Serves ops order capacity holds) (tracks : Tracks holds s pace)
    (room : pace.ready.length < capacity) (node : Fin n) :
    Tracks holds (push ops s node) ⟨order.enqueue pace.ready node,pace.left⟩ ∧ SameStory s (push ops s node) := by
  obtain ⟨queue,pushed,held⟩ := serves.push node tracks.queue room
  have result : Executor.push ops s node = {s with readyQueue := queue, pushed := kStatusSuccess :: s.pushed} := by
    simp [Executor.push,pushed]
  rw [result]
  exact ⟨⟨held,tracks.indegrees,forall_mem_cons.mpr ⟨rfl,tracks.accepted⟩⟩,rfl,rfl⟩

theorem SameStory.trans {s'' : ExecState n σ κ} (first : SameStory s s') (second : SameStory s' s'') : SameStory s s'' :=
  ⟨second.world.trans first.world,second.executed.trans first.executed⟩

variable (serves : Serves ops order capacity holds)
include serves

variable (tracks : Tracks holds s pace)
include tracks

theorem Tracks.pushStart (room : pace.ready.length + nodes.length ≤ capacity) :
    Tracks holds (pushStart ops nodes s) ⟨order.enqueueAll pace.ready nodes,pace.left⟩ ∧
      SameStory s (pushStart ops nodes s) := by
  induction nodes generalizing s pace with
  | nil => exact ⟨tracks,rfl,rfl⟩
  | cons node nodes ih =>
    rw [length_cons] at room
    obtain ⟨pushed,same⟩ := tracks.push serves (by omega) node
    have longer := (order.enqueue_perm pace.ready node).length_eq
    rw [length_cons] at longer
    obtain ⟨rest,same'⟩ := ih pushed (by dsimp only; omega)
    exact ⟨rest,same.trans same'⟩

theorem Tracks.wakeWatcher (room : pace.ready.length < capacity) (node : Fin n) :
    Tracks holds (wakeWatcher ops d s node) (Countdown.touch order d.nodeIndegreesBackup pace node) ∧
      SameStory s (wakeWatcher ops d s node) := by
  have left := tracks.indegrees
  unfold Executor.wakeWatcher Countdown.touch
  rw [← left]
  split
  next last =>
    have counted : Tracks holds {s with nodeIndegrees := update s.nodeIndegrees node (s.nodeIndegrees node - 1)}
        ⟨pace.ready,update s.nodeIndegrees node (s.nodeIndegrees node - 1)⟩ :=
      ⟨tracks.queue,rfl,tracks.accepted⟩
    obtain ⟨pushed,same⟩ := counted.push serves room node
    refine ⟨⟨pushed.queue,?_,pushed.accepted⟩,same.world,same.executed⟩
    dsimp only
    rw [pushed.indegrees,update_idem]
  next => exact ⟨⟨tracks.queue,rfl,tracks.accepted⟩,rfl,rfl⟩

theorem Tracks.wakeWatchers (roomy : n ≤ capacity) {owed : Fin n → Nat}
    (kept : Countdown.Kept d.nodeIndegreesBackup done (fun i => owed i + nodes.count i) pace) :
    Tracks holds (wakeWatchers ops d nodes s) (Countdown.settle order d.nodeIndegreesBackup pace nodes) ∧
      SameStory s (wakeWatchers ops d nodes s) := by
  induction nodes generalizing s pace with
  | nil => exact ⟨tracks,rfl,rfl⟩
  | cons node nodes ih =>
    obtain ⟨more,fewer⟩ := kept.first
    have room := kept.room more
    rw [Fintype.card_fin] at room
    obtain ⟨woken,same⟩ := tracks.wakeWatcher serves (by omega) node
    obtain ⟨rest,same'⟩ := ih woken fewer
    exact ⟨rest,same.trans same'⟩

structure Ends (ops : QueueOps κ (Fin n)) (d : TopologicalExecutionData n σ) (holds : κ → List (Fin n) → Prop)
    (told : KernelStatus × σ × List (Fin n × KernelStatus)) (status : KernelStatus) (s : ExecState n σ κ) : Prop where
  story : (status,s.world,s.executed) = told
  queue : ∃ items, holds s.readyQueue items
  restored : s.nodeIndegrees = d.nodeIndegreesBackup
  accepted : ∀ status ∈ s.pushed, status = kStatusSuccess
  emptied : status = kStatusSuccess → ops.isQueueEmpty s.readyQueue = true

variable (kept : Countdown.Kept d.nodeIndegreesBackup done (Countdown.outstanding d.nodeWatchers done) pace)
  (wellFormed : WellFormed d)
include kept wellFormed

theorem loop_empty (fuel : Nat) (empty : pace.ready = []) : ∃ status s', loop ops d notify (fuel + 1) s = some (status,s') ∧
      Ends ops d holds (story d notify [] s.world s.executed) status s' := by
  have all := kept.finished wellFormed.acyclic empty
  have popped := serves.popEmpty tracks.queue (by rw [empty,order.dequeue_nil])
  have result : loop ops d notify (fuel + 1) s =
      some (kStatusSuccess,{s with world := notify .kModelEnd none kStatusSuccess s.world}) := by
    simp only [loop,popped]
  refine ⟨_,_,result,rfl,⟨_,tracks.queue⟩,?_,tracks.accepted,fun _ => (serves.isQueueEmpty tracks.queue).mpr empty⟩
  funext node
  exact (congrFun tracks.indegrees node).trans (kept.settled node (mem_append_left _ (all node))).2

theorem loop_spec (roomy : n ≤ capacity) (enough : n ≤ done.length + fuel) :
    ∃ status s', loop ops d notify (fuel + 1) s = some (status,s') ∧ Ends ops d holds (story d notify
      (visit order d.nodeIndegreesBackup d.nodeWatchers fuel pace) s.world s.executed) status s' := by
  induction fuel generalizing s pace done with
  | zero =>
    have bound := kept.length_le
    rw [Fintype.card_fin] at bound
    exact loop_empty serves tracks kept wellFormed 0 (length_eq_zero_iff.mp (by omega))
  | succ fuel ih =>
    cases taken : order.dequeue pace.ready with
    | none =>
      rw [visit,taken]
      exact loop_empty serves tracks kept wellFormed (fuel + 1) (order.dequeue_eq_none taken)
    | some next =>
      obtain ⟨node,rest⟩ := next
      obtain ⟨queue,popped,held⟩ := serves.pop tracks.queue taken
      obtain ⟨-,after⟩ := kept.next taken
      rw [loop,popped]
      simp only [visit,taken,story]
      split
      next failed => exact ⟨_,_,rfl,rfl,⟨rest,held⟩,rfl,tracks.accepted,fun success => absurd success failed⟩
      next =>
        have ran : Tracks holds {s with
            readyQueue := queue
            world := notify .kExecuteEnd (some node)
              (d.func node (notify .kExecuteStart (some node) kStatusSuccess s.world)).1
              (d.func node (notify .kExecuteStart (some node) kStatusSuccess s.world)).2
            executed := (node,(d.func node (notify .kExecuteStart (some node) kStatusSuccess s.world)).1) :: s.executed}
            ⟨rest,pace.left⟩ := ⟨held,tracks.indegrees,tracks.accepted⟩
        obtain ⟨woken,same⟩ := ran.wakeWatchers serves roomy after
        obtain ⟨status,s',done_,ends⟩ := ih woken after.settle (by simp only [length_cons]; omega)
        rw [same.world,same.executed] at ends
        exact ⟨status,s',done_,ends⟩

omit tracks kept wellFormed in
/-- From any state between two runs: the queue is emptied first, and the run tells the story of the
schedule. -/
theorem execute_spec (roomy : n ≤ capacity) (tight : capacity ≤ n + 1)
    (wellFormed : WellFormed d) (held : holds s.readyQueue items) (restored : s.nodeIndegrees = d.nodeIndegreesBackup) :
    ∃ status s', execute ops d notify s = some (status,s') ∧ Ends ops d holds
      (story d notify (schedule d order) (notify .kModelStart none kStatusSuccess s.world) []) status s' := by
  have bound := serves.bounded held
  obtain ⟨popCount,queue,cleared,empty⟩ := clear_spec serves held (show items.length < n + 2 by omega)
  have fresh : Tracks holds {s with readyQueue := queue, executed := [], pushed := []} ⟨[],d.nodeIndegreesBackup⟩ :=
    ⟨empty,restored,by simp⟩
  have few := wellFormed.startOnce.length_le_card
  rw [Fintype.card_fin] at few
  have room : ([] : List (Fin n)).length + d.startNodes.length ≤ capacity := by simp only [length_nil]; omega
  obtain ⟨tracks,same⟩ := fresh.pushStart serves room
  have kept := Countdown.kept_start order wellFormed.indegree wellFormed.start wellFormed.startOnce
  have begun : Tracks holds {pushStart ops d.startNodes {s with readyQueue := queue, executed := [], pushed := []} with
      world := notify .kModelStart none kStatusSuccess s.world}
      ⟨order.enqueueAll [] d.startNodes,d.nodeIndegreesBackup⟩ := ⟨tracks.queue,tracks.indegrees,tracks.accepted⟩
  have enough : n ≤ ([] : List (Fin n)).length + n := by simp
  obtain ⟨status,s',done_,ends⟩ := loop_spec serves begun kept wellFormed roomy enough
  refine ⟨status,s',?_,?_⟩
  · rw [execute,cleared]
    simpa only [same.world] using done_
  · simpa only [schedule,same.executed] using ends

end Refinement

end GraphEngine.Executor

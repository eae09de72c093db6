import GraphEngine.Lib.AddedEdges
import GraphEngine.Executor.TopologicalExecutor

/-! Sessions of an executor: any number of runs one after the other, with or without a subscriber,
some of which may fail. -/
namespace GraphEngine.Executor
open GraphEngine.Lib List PriorityQueue

section Story
variable {n : Nat} {σ : Type} (d : TopologicalExecutionData n σ) (notify : Notify n σ)

theorem story_calls (nodes : List (Fin n)) (world : σ) (executed : List (Fin n × KernelStatus)) :
    ∃ ran, ran <+: nodes ∧ (story d notify nodes world executed).2.2.map Prod.fst = ran.reverse ++ executed.map Prod.fst ∧
      ((story d notify nodes world executed).1 = kStatusSuccess → ran = nodes) := by
  induction nodes generalizing world executed with
  | nil => exact ⟨[],prefix_rfl,by simp [story],fun _ => rfl⟩
  | cons node nodes ih =>
    simp only [story]
    split
    next failed =>
      exact ⟨[node],⟨nodes,rfl⟩,by simp,fun success => absurd success failed⟩
    next =>
      obtain ⟨ran,⟨rest,split_⟩,calls,all⟩ := ih (notify .kExecuteEnd (some node)
        (d.func node (notify .kExecuteStart (some node) kStatusSuccess world)).1
        (d.func node (notify .kExecuteStart (some node) kStatusSuccess world)).2)
        ((node,(d.func node (notify .kExecuteStart (some node) kStatusSuccess world)).1) :: executed)
      exact ⟨node :: ran,⟨rest,by rw [cons_append,split_]⟩,by simp [calls],fun success => by rw [all success]⟩

theorem story_status (nodes : List (Fin n)) (world : σ) (executed : List (Fin n × KernelStatus)) :
    (∀ run ∈ (story d notify nodes world executed).2.2, run.2 = kStatusSuccess) ↔
      (story d notify nodes world executed).1 = kStatusSuccess ∧ ∀ run ∈ executed, run.2 = kStatusSuccess := by
  induction nodes generalizing world executed with
  | nil => simp [story]
  | cons node nodes ih =>
    simp only [story]
    split
    next failed => simp [failed]
    next success =>
      rw [ih]
      simp only [mem_cons,forall_eq_or_imp]
      rw [ne_eq,not_not] at success
      simp [success]

structure Unobserved {ω : Type} (view : σ → ω) : Prop where
  callback : ∀ event node status world, view (notify event node status world) = view world
  func : ∀ node world world', view world = view world' → (d.func node world).1 = (d.func node world').1 ∧
    view (d.func node world).2 = view (d.func node world').2

variable {d notify}

theorem Unobserved.story {ω : Type} {view : σ → ω} {notify' : Notify n σ} (first : Unobserved d notify view)
    (second : Unobserved d notify' view) (nodes : List (Fin n)) {world world' : σ} (same : view world = view world')
    (executed : List (Fin n × KernelStatus)) :
    (story d notify nodes world executed).1 = (story d notify' nodes world' executed).1 ∧
      (story d notify nodes world executed).2.2 = (story d notify' nodes world' executed).2.2 := by
  induction nodes generalizing world world' executed with
  | nil => exact ⟨rfl,rfl⟩
  | cons node nodes ih =>
    have before : view (notify .kExecuteStart (some node) kStatusSuccess world) =
        view (notify' .kExecuteStart (some node) kStatusSuccess world') := by
      rw [first.callback,second.callback,same]
    obtain ⟨status,after⟩ := first.func node _ _ before
    simp only [Executor.story,← status]
    split
    · exact ⟨rfl,rfl⟩
    · apply ih
      rw [first.callback,second.callback,after]

end Story

inductive Call (n : Nat) (σ : Type) where
  | execute
  | executeWithCallback (subGraphType : Int) (es : Option (ExecutorSubscriber n σ))

namespace Call
variable {n : Nat} {σ : Type}

def notify? : Call n σ → Option (Notify n σ)
  | .execute => some fun _ _ _ world => world
  | .executeWithCallback subGraphType (some ⟨some callback⟩) => some (callback subGraphType)
  | .executeWithCallback _ _ => none

section Perform
variable {κ : Type} (ops : QueueOps κ (Fin n)) (d : TopologicalExecutionData n σ)

def perform : Call n σ → ExecState n σ κ → Option (KernelStatus × ExecState n σ κ)
  | .execute => Executor.execute ops d fun _ _ _ world => world
  | .executeWithCallback subGraphType es => Executor.executeWithCallback ops d subGraphType es

theorem perform_of_some {call : Call n σ} {notify : Notify n σ} (told : call.notify? = some notify) :
    call.perform ops d = Executor.execute ops d notify := by
  cases call with
  | execute =>
    cases told
    rfl
  | executeWithCallback subGraphType es =>
    match es,told with
    | some ⟨some callback⟩,rfl => rfl

theorem perform_of_none {call : Call n σ} (untold : call.notify? = none) (s : ExecState n σ κ) :
    call.perform ops d s = some (kStatusFailed,s) := by
  cases call with
  | execute => cases untold
  | executeWithCallback subGraphType es =>
    match es,untold with
    | none,_ => rfl
    | some ⟨none⟩,_ => rfl

end Perform

def topological (d : TopologicalExecutionData n σ) : Call n σ → ExecState n σ (RingQueue (Fin n)) →
    Option (KernelStatus × ExecState n σ (RingQueue (Fin n)))
  | .execute => topologicalExecute d
  | .executeWithCallback subGraphType es => topologicalExecuteWithCallback d subGraphType es

def priorityTopological (d : TopologicalExecutionData n σ) : Call n σ → ExecState n σ (PriorityQueue d.priority) →
    Option (KernelStatus × ExecState n σ (PriorityQueue d.priority))
  | .execute => priorityTopologicalExecute d
  | .executeWithCallback subGraphType es => priorityTopologicalExecuteWithCallback d subGraphType es

end Call

section Session
variable {n : Nat} {σ κ : Type}

/-- The states between the runs of an executor. Its callers change the world as they like. -/
inductive Session (d : TopologicalExecutionData n σ) (created : κ)
    (perform : Call n σ → ExecState n σ κ → Option (KernelStatus × ExecState n σ κ)) : ExecState n σ κ → Prop where
  | start (world : σ) : Session d created perform ⟨created,d.nodeIndegreesBackup,world,[],[]⟩
  | change {s} (world : σ) : Session d created perform s → Session d created perform {s with world := world}
  | next {s call status s'} : Session d created perform s → perform call s = some (status,s') →
      Session d created perform s'

structure Correct (d : TopologicalExecutionData n σ) (isQueueEmpty : κ → Bool) (status : KernelStatus)
    (s : ExecState n σ κ) : Prop where
  accepted : ∀ status ∈ s.pushed, status = kStatusSuccess
  once : (s.executed.map Prod.fst).Nodup
  ordered : ∀ newer node older, s.executed.map Prod.fst = newer ++ node :: older →
    ∀ source, node ∈ d.nodeWatchers source → source ∈ older
  restored : s.nodeIndegrees = d.nodeIndegreesBackup
  succeeds : (∀ run ∈ s.executed, run.2 = kStatusSuccess) ↔ status = kStatusSuccess
  complete : status = kStatusSuccess → (∀ node, node ∈ s.executed.map Prod.fst) ∧ isQueueEmpty s.readyQueue = true

structure Rerunnable (d : TopologicalExecutionData n σ) (created : κ) (isQueueEmpty : κ → Bool)
    (perform : Call n σ → ExecState n σ κ → Option (KernelStatus × ExecState n σ κ)) : Prop where
  correct : ∀ s call, Session d created perform s → call.notify?.isSome →
    ∃ status s', perform call s = some (status,s') ∧ Correct d isQueueEmpty status s'
  unsubscribed : ∀ s call, call.notify? = none → perform call s = some (kStatusFailed,s)
  sameSequence : ∀ s₁ s₂ call₁ call₂ status₁ status₂ s₁' s₂', Session d created perform s₁ →
    Session d created perform s₂ → call₁.notify?.isSome → call₂.notify?.isSome →
    perform call₁ s₁ = some (status₁,s₁') → perform call₂ s₂ = some (status₂,s₂') →
      (s₁'.executed.map Prod.fst <:+ s₂'.executed.map Prod.fst ∨ s₂'.executed.map Prod.fst <:+ s₁'.executed.map Prod.fst) ∧
      (status₁ = kStatusSuccess → status₂ = kStatusSuccess → s₁'.executed.map Prod.fst = s₂'.executed.map Prod.fst)
  sameOutcome : ∀ (ω : Type) (view : σ → ω) s₁ s₂ call₁ call₂ notify₁ notify₂ status₁ status₂ s₁' s₂',
    Session d created perform s₁ → Session d created perform s₂ → call₁.notify? = some notify₁ →
    call₂.notify? = some notify₂ → Unobserved d notify₁ view → Unobserved d notify₂ view → view s₁.world = view s₂.world →
    perform call₁ s₁ = some (status₁,s₁') → perform call₂ s₂ = some (status₂,s₂') →
      status₁ = status₂ ∧ s₁'.executed = s₂'.executed

end Session

section Correctness
variable {n : Nat} {σ κ : Type} {ops : QueueOps κ (Fin n)} {d : TopologicalExecutionData n σ}
  {order : Discipline (Fin n)} {capacity : Nat} {holds : κ → List (Fin n) → Prop} {created : κ} {s : ExecState n σ κ}

theorem schedule_spec (order : Discipline (Fin n)) (wellFormed : WellFormed d) :
    (schedule d order).Nodup ∧ Countdown.Sequenced d.nodeWatchers (schedule d order).reverse ∧
      ∀ node, node ∈ schedule d order := by
  have kept := Countdown.kept_start order wellFormed.indegree wellFormed.start wellFormed.startOnce
  obtain ⟨once,sequenced,all⟩ := kept.visit wellFormed.acyclic n (by simp) trivial
  simp only [append_nil,nodup_reverse,mem_reverse] at once sequenced all
  exact ⟨once,sequenced,all⟩

theorem Ends.correct (wellFormed : WellFormed d) {notify : Notify n σ} {world : σ} {status : KernelStatus}
    (ends : Ends ops d holds (Executor.story d notify (schedule d order) world []) status s) :
    Correct d ops.isQueueEmpty status s := by
  obtain ⟨once,sequenced,all⟩ := schedule_spec order wellFormed
  obtain ⟨ran,⟨rest,split_⟩,calls,finished⟩ := story_calls d notify (schedule d order) world []
  have status_ := story_status d notify (schedule d order) world []
  rw [← ends.story] at calls finished status_
  simp only [map_nil,append_nil,not_mem_nil,false_implies,implies_true,and_true] at calls status_
  rw [← split_,reverse_append] at sequenced
  rw [← split_] at once
  refine ⟨ends.accepted,?_,?_,ends.restored,status_,fun success => ⟨fun node => ?_,ends.emptied success⟩⟩
  · rw [calls,nodup_reverse]
    exact once.of_append_left
  · intro newer node older executed source edge
    rw [calls] at executed
    have seen := sequenced.suffix
    rw [executed] at seen
    exact seen.before edge
  · rw [calls,mem_reverse,finished success]
    exact all node

variable (serves : Serves ops order capacity holds) (roomy : n ≤ capacity) (tight : capacity ≤ n + 1)
  (wellFormed : WellFormed d) (held : holds created [])
include serves roomy tight wellFormed held

theorem session_between (session : Session d created (Call.perform ops d) s) :
    (∃ items, holds s.readyQueue items) ∧ s.nodeIndegrees = d.nodeIndegreesBackup := by
  induction session with
  | start world => exact ⟨⟨[],held⟩,rfl⟩
  | change world _ ih => exact ih
  | @next s call status s' _ done_ ih =>
    obtain ⟨⟨items,queue⟩,restored⟩ := ih
    cases told : call.notify? with
    | none =>
      rw [Call.perform_of_none ops d told] at done_
      cases done_
      exact ⟨⟨items,queue⟩,restored⟩
    | some notify =>
      obtain ⟨status',s'',done',ends⟩ := execute_spec serves roomy tight wellFormed queue restored
      rw [Call.perform_of_some ops d told,done'] at done_
      cases done_
      exact ⟨ends.queue,ends.restored⟩

theorem rerunnable_of_serves : Rerunnable d created ops.isQueueEmpty (Call.perform ops d) := by
  have runs : ∀ s (call : Call n σ) notify, Session d created (Call.perform ops d) s → call.notify? = some notify →
      ∃ status s', call.perform ops d s = some (status,s') ∧ Ends ops d holds
        (story d notify (schedule d order) (notify .kModelStart none kStatusSuccess s.world) []) status s' := by
    intro s call notify session told
    obtain ⟨⟨items,queue⟩,restored⟩ := session_between serves roomy tight wellFormed held session
    rw [Call.perform_of_some ops d told]
    exact execute_spec serves roomy tight wellFormed queue restored
  have ended : ∀ s (call : Call n σ) notify status s', Session d created (Call.perform ops d) s →
      call.notify? = some notify → call.perform ops d s = some (status,s') → Ends ops d holds
        (story d notify (schedule d order) (notify .kModelStart none kStatusSuccess s.world) []) status s' := by
    intro s call notify status s' session told done_
    obtain ⟨status',s'',done',ends⟩ := runs s call notify session told
    rw [done_] at done'
    cases done'
    exact ends
  refine ⟨?_,fun s call untold => Call.perform_of_none ops d untold s,?_,?_⟩
  · intro s call session subscribed
    obtain ⟨notify,told⟩ := Option.isSome_iff_exists.mp subscribed
    obtain ⟨status,s',done_,ends⟩ := runs s call notify session told
    exact ⟨status,s',done_,ends.correct wellFormed⟩
  · intro s₁ s₂ call₁ call₂ status₁ status₂ s₁' s₂' session₁ session₂ subscribed₁ subscribed₂ done₁ done₂
    obtain ⟨notify₁,told₁⟩ := Option.isSome_iff_exists.mp subscribed₁
    obtain ⟨notify₂,told₂⟩ := Option.isSome_iff_exists.mp subscribed₂
    have ends₁ := ended s₁ call₁ notify₁ status₁ s₁' session₁ told₁ done₁
    have ends₂ := ended s₂ call₂ notify₂ status₂ s₂' session₂ told₂ done₂
    obtain ⟨ran₁,first₁,calls₁,all₁⟩ := story_calls d notify₁ (schedule d order)
      (notify₁ .kModelStart none kStatusSuccess s₁.world) []
    obtain ⟨ran₂,first₂,calls₂,all₂⟩ := story_calls d notify₂ (schedule d order)
      (notify₂ .kModelStart none kStatusSuccess s₂.world) []
    rw [← ends₁.story] at calls₁ all₁
    rw [← ends₂.story] at calls₂ all₂
    simp only [map_nil,append_nil] at calls₁ calls₂
    rw [calls₁,calls₂,reverse_suffix,reverse_suffix]
    refine ⟨ prefix_or_prefix_of_prefix first₁ first₂,fun success₁ success₂ => ?_⟩
    rw [all₁ success₁,all₂ success₂]
  · intro ω view s₁ s₂ call₁ call₂ notify₁ notify₂ status₁ status₂ s₁' s₂' session₁ session₂ told₁ told₂ unseen₁ unseen₂
      same done₁ done₂
    have ends₁ := ended s₁ call₁ notify₁ status₁ s₁' session₁ told₁ done₁
    have ends₂ := ended s₂ call₂ notify₂ status₂ s₂' session₂ told₂ done₂
    have started : view (notify₁ .kModelStart none kStatusSuccess s₁.world) =
        view (notify₂ .kModelStart none kStatusSuccess s₂.world) := by
      rw [unseen₁.callback,unseen₂.callback,same]
    have equal := unseen₁.story unseen₂ (schedule d order) started []
    rw [← ends₁.story,← ends₂.story] at equal
    exact equal

end Correctness

/-- On the data of an acyclic graph every run after any others calls each node once and after its sources, and leaves the
executor ready for the next run. -/
theorem executors_rerunnable {n : Nat} {σ : Type} (d : TopologicalExecutionData n σ) (wellFormed : WellFormed d) :
    Rerunnable d (RingQueue.createRingQueue n) RingQueue.isQueueEmpty (Call.topological d) ∧
      Rerunnable d (PriorityQueue.createPriorityQueue (n + 1)) PriorityQueue.isQueueEmpty (Call.priorityTopological d) := by
  have ring : Call.topological d = Call.perform (RingQueue.ops (Fin n)) d := by
    funext call
    cases call <;> rfl
  have heap : Call.priorityTopological d = Call.perform (ops d.priority) d := by
    funext call
    cases call <;> rfl
  constructor
  · rw [ring]
    exact rerunnable_of_serves (RingQueue.serves (Fin n) n) le_rfl (Nat.le_succ n) wellFormed
      (RingQueue.holds_createRingQueue n)
  · rw [heap]
    exact rerunnable_of_serves (serves d.priority (n + 1)) (Nat.le_succ n) le_rfl wellFormed
      (holds_createPriorityQueue (n + 1))

def diamond : TopologicalExecutionData 5 (List (Fin 5)) where
  func node world := (kStatusSuccess,node :: world)
  priority node := -node.val
  startNodes := [0]
  nodeWatchers
    | 0 => [1,2,2]
    | 1 => [3]
    | 2 => [3]
    | 3 => [4]
    | 4 => []
  nodeIndegreesBackup
    | 0 => 0
    | 1 => 1
    | 2 => 2
    | 3 => 2
    | 4 => 1

theorem executors_rerunnable_diamond : WellFormed diamond ∧
    Rerunnable diamond (RingQueue.createRingQueue 5) RingQueue.isQueueEmpty (Call.topological diamond) ∧
    Rerunnable diamond (PriorityQueue.createPriorityQueue 6) PriorityQueue.isQueueEmpty
      (Call.priorityTopological diamond) := by
  have wellFormed : WellFormed diamond :=
    ⟨by decide,by decide,by decide,acyclic_of_rank (·.val) (by decide)⟩
  exact ⟨wellFormed,executors_rerunnable diamond wellFormed⟩

end GraphEngine.Executor

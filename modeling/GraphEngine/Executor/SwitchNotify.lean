import Mathlib.Data.List.ReduceOption
import GraphEngine.Formats.FormatTransfer

/-! The watcher list of an executing node, as the builder reads it in, and the kernels that pick a branch by rewriting the list's
first entry before the executor wakes the entries it counts. -/
namespace GraphEngine.Executor
open List Option
open GraphEngine.Formats (securecMemMaxLen)

abbrev NodeIdentity := Nat

structure Watcher where
  watchNum : Nat
  nodeIds : List NodeIdentity

/-- The part of the builder's state that reading in a watcher looks at. An edge is its destination, and a removed one is null. -/
structure GraphNode (ν : Type) where
  outDataEdges : ν → List (List (Option ν))
  outControlEdges : ν → List (Option ν)
  isNodeNeedExec : ν → Bool
  graphNodesToExecutorNode : ν → Option NodeIdentity
  additionalAddInfo : ν → List ν
  additionalDelInfo : ν → List ν

section Watchers
variable {ν : Type} (g : GraphNode ν)

def watchEdge (watchNodes : List NodeIdentity) : Option ν → Option (List NodeIdentity)
  | none => some watchNodes
  | some dst =>
    if g.isNodeNeedExec dst then (g.graphNodesToExecutorNode dst).map (watchNodes ++ [·]) else some watchNodes

def addWatch (watchNodes : List NodeIdentity) (watchNode : ν) : Option (List NodeIdentity) :=
  (g.graphNodesToExecutorNode watchNode).map (watchNodes ++ [·])

def delWatch (watchNodes : List NodeIdentity) (watchNode : ν) : Option (List NodeIdentity) :=
  (g.graphNodesToExecutorNode watchNode).map watchNodes.erase

def updateWatcherInfo (node : ν) (watchNodes : List NodeIdentity) : Option (List NodeIdentity) := do
  let added ← (g.additionalAddInfo node).foldlM (addWatch g) watchNodes
  (g.additionalDelInfo node).foldlM (delWatch g) added

/-- `memcpy_s` refuses to copy more than its limit. -/
def createWatch (nodeIds : List NodeIdentity) : Option Watcher :=
  if 0 < nodeIds.length ∧ securecMemMaxLen < nodeIds.length * 8 then none
  else some ⟨nodeIds.length,nodeIds⟩

def readInWatcher (node : ν) : Option Watcher := do
  let data ← (g.outDataEdges node).flatten.foldlM (watchEdge g) []
  let watchNodes ← (g.outControlEdges node).foldlM (watchEdge g) data
  let updated ← updateWatcherInfo g node watchNodes
  createWatch updated

def dataReceivers (node : ν) : List ν := (g.outDataEdges node).flatten.reduceOption

def controlReceivers (node : ν) : List ν := (g.outControlEdges node).reduceOption

def getAllOutDataEdgesSize (node : ν) : Nat := (dataReceivers g node).length

def getAllOutEdgesSize (node : ν) : Nat := (controlReceivers g node).length + getAllOutDataEdgesSize g node

end Watchers

inductive NotifyStatus where
  | success
  | failed
  | paramNullptr
  | paramInvalid
  | undefined
  deriving DecidableEq

structure NotifySignal where
  targetReceiver : Nat
  receivers : Nat
  receiverNum : Nat

section Kernels
variable {ν : Type} (g : GraphNode ν)

/-- The entries change from Target, Branch, Control to Target, Control, Branch. The count is already changed when the copy
fails, and a node without data edges fails there. -/
def createSwitchNotifyOutputs (node : ν) (watcher : Watcher) : NotifyStatus × Watcher × Option NotifySignal :=
  if watcher.watchNum ≠ getAllOutEdgesSize g node then (.failed,watcher,none)
  else if watcher.nodeIds.length < max 1 watcher.watchNum then (.undefined,watcher,none)
  else
    let outputsNum := getAllOutDataEdgesSize g node
    let counted := watcher.nodeIds.take 1 ++ (watcher.nodeIds.take watcher.watchNum).drop outputsNum
    let optimizedWatcher := counted ++ (watcher.nodeIds.take outputsNum).drop 1
    if watcher.watchNum = 0 ∨ securecMemMaxLen < watcher.watchNum * 8 ∨ watcher.watchNum < optimizedWatcher.length then
      (.failed,{watcher with watchNum := counted.length},none)
    else
      (.success,⟨counted.length,optimizedWatcher ++ watcher.nodeIds.drop optimizedWatcher.length⟩,
        some ⟨0,counted.length,outputsNum - 1⟩)

/-- Both kernels put a receiver at the target; they differ in the index and in what they return when they refuse it. -/
def notifyReceiver (noSignal refused : NotifyStatus) (branchIndex : Nat) (signal : Option NotifySignal) (watcher : Watcher) :
    NotifyStatus × Watcher :=
  match signal with
  | none => (noSignal,watcher)
  | some signal =>
    if signal.receiverNum ≤ branchIndex then (refused,watcher)
    else
      match watcher.nodeIds[signal.receivers + branchIndex]? with
      | none => (.undefined,watcher)
      | some receiver => (.success,{watcher with nodeIds := watcher.nodeIds.set signal.targetReceiver receiver})

def switchNotifyKernel (branchIndex : UInt32) : Option NotifySignal → Watcher → NotifyStatus × Watcher :=
  notifyReceiver .paramNullptr .paramInvalid branchIndex.toNat

def condSwitchNotifyKernel (cond : Bool) : Option NotifySignal → Watcher → NotifyStatus × Watcher :=
  notifyReceiver .failed .failed (if cond then 0 else 1)

end Kernels

inductive Selection where
  | switch (branchIndex : UInt32)
  | cond (taken : Bool)

def Selection.branch : Selection → Nat
  | switch branchIndex => branchIndex.toNat
  | cond taken => if taken then 0 else 1

def Selection.run : Selection → Option NotifySignal → Watcher → NotifyStatus × Watcher
  | switch branchIndex => switchNotifyKernel branchIndex
  | cond taken => condSwitchNotifyKernel taken

def runAll (signal : Option NotifySignal) (watcher : Watcher) (selections : List Selection) : Watcher :=
  selections.foldl (fun watcher selection => (selection.run signal watcher).2) watcher

def notified (watcher : Watcher) : List NodeIdentity := watcher.nodeIds.take watcher.watchNum

section ReadIn
variable {ν : Type} {g : GraphNode ν} {before after : List NodeIdentity} {nodes : List ν}

theorem addWatches_eq_some (read : nodes.foldlM (addWatch g) before = some after) :
    ∃ ids : List NodeIdentity, nodes.map g.graphNodesToExecutorNode = ids.map some ∧ after = before ++ ids := by
  induction nodes generalizing before with
  | nil =>
    cases read
    exact ⟨[],rfl,(append_nil _).symm⟩
  | cons node nodes ih =>
    rw [foldlM_cons] at read
    obtain ⟨middle,first,rest⟩ := bind_eq_some_iff.mp read
    obtain ⟨id,known,rfl⟩ := map_eq_some_iff.mp first
    obtain ⟨ids,found,rfl⟩ := ih rest
    exact ⟨id :: ids,by simp [found,known],by simp⟩

/-- Edges are watched like added nodes, except those that are not executed. -/
theorem watchEdges_eq (edges : List (Option ν)) : edges.foldlM (watchEdge g) before =
    (edges.reduceOption.filter g.isNodeNeedExec).foldlM (addWatch g) before := by
  induction edges generalizing before with
  | nil => rfl
  | cons edge edges ih =>
    cases edge with
    | none => exact ih
    | some dst =>
      rw [foldlM_cons,funext fun _ => ih,watchEdge,reduceOption_cons_of_some,filter_cons]
      split
      · rfl
      · rfl

theorem delWatches_eq_some (read : nodes.foldlM (delWatch g) before = some after) :
    ∃ ids : List NodeIdentity, nodes.map g.graphNodesToExecutorNode = ids.map some ∧ after = before.diff ids := by
  induction nodes generalizing before with
  | nil =>
    cases read
    exact ⟨[],rfl,rfl⟩
  | cons node nodes ih =>
    rw [foldlM_cons] at read
    obtain ⟨middle,first,rest⟩ := bind_eq_some_iff.mp read
    obtain ⟨id,known,rfl⟩ := map_eq_some_iff.mp first
    obtain ⟨ids,found,rfl⟩ := ih rest
    exact ⟨id :: ids,by simp [found,known],by rw [diff_cons]⟩

theorem append_diff_of_disjoint (kept : List NodeIdentity) {removed : List NodeIdentity} (others : List NodeIdentity)
    (apart : ∀ id ∈ removed, id ∉ kept) : (kept ++ others).diff removed = kept ++ others.diff removed := by
  induction removed generalizing others with
  | nil => simp
  | cons id removed ih =>
    rw [diff_cons,diff_cons,erase_append_right _ (apart id mem_cons_self)]
    exact ih _ fun id member => apart id (mem_cons_of_mem _ member)

/-- The ids of the receivers of a node: the target, the branches, and the control receivers as the additional infos change
them. -/
structure Receivers (g : GraphNode ν) (node : ν) (target : NodeIdentity) (branches controls : List NodeIdentity) : Prop where
  data : (dataReceivers g node).map g.graphNodesToExecutorNode = (target :: branches).map some
  control : ∃ ids added removed : List NodeIdentity,
    ((controlReceivers g node).filter g.isNodeNeedExec).map g.graphNodesToExecutorNode = ids.map some ∧
    (g.additionalAddInfo node).map g.graphNodesToExecutorNode = added.map some ∧
    (g.additionalDelInfo node).map g.graphNodesToExecutorNode = removed.map some ∧
    controls = (ids ++ added).diff removed

end ReadIn

section Runs
variable {ν : Type} {g : GraphNode ν} {node : ν} {target : NodeIdentity} {branches controls : List NodeIdentity}

section

variable (receivers : Receivers g node target branches controls)
include receivers

theorem Receivers.outputs : getAllOutDataEdgesSize g node = branches.length + 1 := by
  have same := congrArg length receivers.data
  simpa [getAllOutDataEdgesSize] using same

def armed (front : NodeIdentity) (branches controls : List NodeIdentity) : Watcher :=
  ⟨controls.length + 1,front :: (controls ++ branches)⟩

def signalOf (branches controls : List NodeIdentity) : NotifySignal := ⟨0,controls.length + 1,branches.length⟩

theorem createSwitchNotifyOutputs_arms (counted : controls.length = (controlReceivers g node).length)
    (small : (target :: branches ++ controls).length * 8 ≤ securecMemMaxLen) :
    createSwitchNotifyOutputs g node ⟨(target :: branches ++ controls).length,target :: branches ++ controls⟩ =
      (.success,armed target branches controls,some (signalOf branches controls)) := by
  have outputs := receivers.outputs
  have total : (target :: branches ++ controls).length = getAllOutEdgesSize g node := by
    simp only [getAllOutEdgesSize,length_append,length_cons]
    omega
  have taken : (target :: branches ++ controls).take 1 ++
      ((target :: branches ++ controls).take (target :: branches ++ controls).length).drop (branches.length + 1) =
        target :: controls := by
    rw [take_length]
    simp
  have left : ((target :: branches ++ controls).take (branches.length + 1)).drop 1 = branches := by simp
  rw [createSwitchNotifyOutputs]
  dsimp only
  rw [if_neg (not_not_intro total),if_neg (by simp),outputs,taken,left,if_neg]
  · simp [armed,signalOf,add_comm]
  · simp only [cons_append,length_cons,length_append] at small ⊢
    omega

end

theorem Selection.run_armed (selection : Selection) (front : NodeIdentity) (branches controls : List NodeIdentity) :
    match branches[selection.branch]? with
    | some receiver => selection.run (some (signalOf branches controls)) (armed front branches controls) =
        (.success,armed receiver branches controls)
    | none => ∃ refused, refused ≠ NotifyStatus.success ∧
        selection.run (some (signalOf branches controls)) (armed front branches controls) =
          (refused,armed front branches controls) := by
  obtain ⟨noSignal,refused,refuses,same⟩ : ∃ noSignal refused, refused ≠ NotifyStatus.success ∧
      selection.run = notifyReceiver noSignal refused selection.branch := by
    cases selection with
    | switch => exact ⟨.paramNullptr,.paramInvalid,nofun,rfl⟩
    | cond => exact ⟨.failed,.failed,nofun,rfl⟩
  rw [same]
  have entry : (armed front branches controls).nodeIds[(signalOf branches controls).receivers + selection.branch]? =
      branches[selection.branch]? := by
    change (front :: (controls ++ branches))[controls.length + 1 + selection.branch]? = _
    rw [add_right_comm,getElem?_cons_succ,getElem?_append_right (Nat.le_add_right _ _),Nat.add_sub_cancel_left]
  cases found : branches[selection.branch]? with
  | none =>
    refine ⟨refused,refuses,?_⟩
    exact if_pos (List.getElem?_eq_none_iff.mp found)
  | some receiver =>
    have inside : selection.branch < branches.length := (List.getElem?_eq_some_iff.mp found).1
    refine (if_neg (Nat.not_le.mpr inside)).trans ?_
    rw [entry,found]
    rfl

def lastSelected (front : NodeIdentity) (branches : List NodeIdentity) (selections : List Selection) : NodeIdentity :=
  selections.foldl (fun last selection => branches[selection.branch]?.getD last) front

theorem runAll_armed (selections : List Selection) (front : NodeIdentity) (branches controls : List NodeIdentity) :
    runAll (some (signalOf branches controls)) (armed front branches controls) selections =
      armed (lastSelected front branches selections) branches controls := by
  induction selections generalizing front with
  | nil => rfl
  | cons selection selections ih =>
    have step := selection.run_armed front branches controls
    rw [runAll,foldl_cons,← runAll,lastSelected,foldl_cons,← lastSelected]
    cases found : branches[selection.branch]? with
    | none =>
      rw [found] at step
      obtain ⟨_,_,same⟩ := step
      rw [same]
      exact ih front
    | some receiver =>
      rw [found] at step
      rw [step]
      exact ih receiver

/-- A run wakes the receiver of the selected branch and the control receivers; one that selects no branch is refused and changes
nothing. -/
def NotifiesSelected (branches controls : List NodeIdentity) (signal : NotifySignal) (watcher : Watcher) (selection : Selection) :
    Prop :=
  match branches[selection.branch]? with
  | some receiver =>
    (selection.run (some signal) watcher).1 = .success ∧ notified (selection.run (some signal) watcher).2 = receiver :: controls
  | none => (selection.run (some signal) watcher).1 ≠ .success ∧ (selection.run (some signal) watcher).2 = watcher

theorem armed_notifiesSelected (front : NodeIdentity) (branches controls : List NodeIdentity) (selection : Selection) :
    NotifiesSelected branches controls (signalOf branches controls) (armed front branches controls) selection := by
  have step := selection.run_armed front branches controls
  rw [NotifiesSelected]
  cases found : branches[selection.branch]? with
  | none =>
    rw [found] at step
    obtain ⟨_,refused,same⟩ := step
    rw [same]
    exact ⟨refused,rfl⟩
  | some receiver =>
    rw [found] at step
    rw [step]
    refine ⟨rfl,?_⟩
    simp [notified,armed]

section
variable {placeholder : ν} {branchNodes : List ν} {watcher : Watcher}
  (edges : dataReceivers g node = placeholder :: branchNodes)
  (executing : ∀ receiver ∈ placeholder :: branchNodes, g.isNodeNeedExec receiver)
  (kept : ∀ removed ∈ g.additionalDelInfo node, ∀ receiver ∈ placeholder :: branchNodes,
    g.graphNodesToExecutorNode removed ≠ g.graphNodesToExecutorNode receiver)
  (read : readInWatcher g node = some watcher)
include edges executing kept read

theorem readInWatcher_eq_some : ∃ target branches controls, Receivers g node target branches controls ∧
      watcher = ⟨(target :: branches ++ controls).length,target :: branches ++ controls⟩ ∧
      (target :: branches ++ controls).length * 8 ≤ securecMemMaxLen := by
  obtain ⟨data,readData,read⟩ := bind_eq_some_iff.mp read
  obtain ⟨watchNodes,readControl,read⟩ := bind_eq_some_iff.mp read
  obtain ⟨updated,update,create⟩ := bind_eq_some_iff.mp read
  obtain ⟨more,add,del⟩ := bind_eq_some_iff.mp update
  rw [watchEdges_eq] at readData readControl
  obtain ⟨dataIds,foundData,same⟩ := addWatches_eq_some readData
  rw [nil_append] at same
  subst same
  obtain ⟨ids,foundControl,rfl⟩ := addWatches_eq_some readControl
  obtain ⟨added,foundAdded,rfl⟩ := addWatches_eq_some add
  obtain ⟨removed,foundRemoved,rfl⟩ := delWatches_eq_some del
  change ((dataReceivers g node).filter _).map _ = _ at foundData
  rw [edges,filter_eq_self.mpr executing] at foundData
  obtain ⟨target,branches,rfl⟩ : ∃ target branches, data = target :: branches := by
    cases data with
    | nil => cases foundData
    | cons target branches => exact ⟨target,branches,rfl⟩
  have apart : ∀ id ∈ removed, id ∉ target :: branches := by
    intro id gone member
    obtain ⟨node',info,known⟩ := mem_map.mp (foundRemoved ▸ mem_map_of_mem gone)
    obtain ⟨receiver,isReceiver,same⟩ := mem_map.mp (foundData ▸ mem_map_of_mem member)
    exact kept node' info receiver isReceiver (known.trans same.symm)
  rw [append_assoc,append_diff_of_disjoint _ _ apart,createWatch] at create
  split at create
  · cases create
  · next small =>
    cases create
    refine ⟨target,branches,_,⟨edges ▸ foundData,ids,added,removed,foundControl,foundAdded,foundRemoved,rfl⟩,rfl,?_⟩
    simp only [cons_append,length_cons] at small ⊢
    omega

/-- Over any runs each one wakes exactly the receiver of its branch and the control receivers, and only the first entry of
the watcher changes, up to order. When the additional infos change the number of control receivers, the outputs are not
created. -/
theorem branch_notification : ∃ target branches controls, Receivers g node target branches controls ∧
      watcher.nodeIds = target :: branches ++ controls ∧
      if controls.length = (controlReceivers g node).length then
        ∃ created signal, createSwitchNotifyOutputs g node watcher = (.success,created,some signal) ∧ ∀ earlier,
          (∀ selection, NotifiesSelected branches controls signal (runAll (some signal) created earlier) selection) ∧
          (runAll (some signal) created earlier).nodeIds.head? = some (lastSelected target branches earlier) ∧
          (runAll (some signal) created earlier).nodeIds.tail.Perm watcher.nodeIds.tail
      else createSwitchNotifyOutputs g node watcher = (.failed,watcher,none) := by
  obtain ⟨target,branches,controls,receivers,rfl,small⟩ := readInWatcher_eq_some edges executing kept read
  refine ⟨target,branches,controls,receivers,rfl,?_⟩
  split
  · next counted =>
    refine ⟨_,_,createSwitchNotifyOutputs_arms receivers counted small,fun earlier => ?_⟩
    rw [runAll_armed]
    exact ⟨armed_notifiesSelected _ _ _,rfl,perm_append_comm⟩
  · next changed =>
    have outputs := receivers.outputs
    rw [createSwitchNotifyOutputs,if_pos]
    simp only [getAllOutEdgesSize,length_append,length_cons]
    omega

end

end Runs

/-- A node with a placeholder, a branch for each further data edge and control edges, all of them executing nodes. -/
def notifyNode (branches controls : List Nat) : GraphNode Nat where
  outDataEdges _ := [some 0] :: branches.map fun branch => [some branch]
  outControlEdges _ := controls.map some
  isNodeNeedExec _ := true
  graphNodesToExecutorNode := some
  additionalAddInfo _ := []
  additionalDelInfo _ := []

theorem branch_notification_case : ∃ target branches controls, Receivers (notifyNode [1,2] [3]) 9 target branches controls ∧
    [0,1,2,3] = target :: branches ++ controls ∧
    if controls.length = (controlReceivers (notifyNode [1,2] [3]) 9).length then
      ∃ created signal, createSwitchNotifyOutputs (notifyNode [1,2] [3]) 9 ⟨4,[0,1,2,3]⟩ = (.success,created,some signal) ∧
        ∀ earlier,
          (∀ selection, NotifiesSelected branches controls signal (runAll (some signal) created earlier) selection) ∧
          (runAll (some signal) created earlier).nodeIds.head? = some (lastSelected target branches earlier) ∧
          (runAll (some signal) created earlier).nodeIds.tail.Perm [1,2,3]
    else createSwitchNotifyOutputs (notifyNode [1,2] [3]) 9 ⟨4,[0,1,2,3]⟩ = (.failed,⟨4,[0,1,2,3]⟩,none) := by
  have edges : dataReceivers (notifyNode [1,2] [3]) 9 = 0 :: [1,2] := rfl
  have read : readInWatcher (notifyNode [1,2] [3]) 9 = some ⟨4,[0,1,2,3]⟩ := rfl
  exact branch_notification edges (fun _ _ => rfl) (fun _ absent => absurd absent not_mem_nil) read

/-- The placeholder's id is overwritten by the first run, and the branch stays among the branches. -/
theorem placeholder_overwritten : readInWatcher (notifyNode [1] []) 9 = some ⟨2,[0,1]⟩ ∧
    createSwitchNotifyOutputs (notifyNode [1] []) 9 ⟨2,[0,1]⟩ = (.success,⟨1,[0,1]⟩,some ⟨0,1,1⟩) ∧
    (runAll (some ⟨0,1,1⟩) ⟨1,[0,1]⟩ [.switch 0]).nodeIds = [1,1] ∧ ¬[1,1].Perm [0,1] :=
  ⟨rfl,rfl,rfl,by decide⟩

end GraphEngine.Executor

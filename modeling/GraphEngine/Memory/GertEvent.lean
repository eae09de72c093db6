import GraphEngine.Memory.MultiStreamL2Allocator

/-! The event kernels that carry recycling news and borrowed blocks between streams, and the runs
of a model on several streams: clients allocate, share, pass on and free blocks between them. -/
namespace GraphEngine.Memory
open GraphEngine.Lib

structure EventInfo (n : Nat) where
  logicSrcStream : Fin n
  logicDstStream : Fin n

structure EventSpace (n : Nat) where
  blockFreeBySrcStream : List (VersionBlock (BlockId n))
  blockNeedReturnBirth : List (BlockId n)

/-- What a model fixes before it runs: the walk order of the hash sets, the growth of the block
pools, and the streams of each event. -/
structure Setup (n : Nat) (ε : Type) where
  order : IterationOrder (BlockId n)
  extendSize : Nat
  info : ε → EventInfo n

structure System (n : Nat) (ε : Type) where
  heap : Heap n ε
  spaces : ε → EventSpace n

def forStatus {α σ : Type} (body : σ → α → Option (GraphStatus × σ)) : List α → σ → Option (GraphStatus × σ)
  | [],state => some (.success,state)
  | item :: items,state =>
    match body state item with
    | none => none
    | some (.success,next) => forStatus body items next
    | some (status,next) => some (status,next)

namespace System
variable {n : Nat} {ε : Type} [DecidableEq ε]

def initial : System n ε := ⟨Heap.initial,fun _ => ⟨[],[]⟩⟩

def sendEvent (setup : Setup n ε) (s : System n ε) (event : ε) : System n ε :=
  let src := (setup.info event).logicSrcStream
  let dst := (setup.info event).logicDstStream
  let allocator := s.heap.allocators src
  let (sent,left) := clearLocalRecycleBlocks s.heap.getVersion n src dst allocator.localRecycleBlocks
  let (targets,pool) := allocator.borrowAllocator.getAndClearBorrowBlocks setup.order s.heap.getSize (some dst)
  let space := s.spaces event
  { heap := (s.heap.setAllocator src {allocator with localRecycleBlocks := left, borrowAllocator := pool}).log src
      (.recordEvent event)
    spaces := Function.update s.spaces event
      ⟨space.blockFreeBySrcStream ++ sent,space.blockNeedReturnBirth ++ targets⟩ }

/-- One turn of the first loop of `WaitEvent`: news of an older version is skipped. -/
def waitBlock (info : EventInfo n) (h : Heap n ε) (news : VersionBlock (BlockId n)) : Option (GraphStatus × Heap n ε) :=
  if news.version ≠ h.getVersion news.block then some (.success,h)
  else h.syncLocalRecycleStatus info.logicSrcStream info.logicDstStream news.block

def returnBlock (stream : Fin n) (h : Heap n ε) (id : BlockId n) : Option (GraphStatus × Heap n ε) :=
  some (h.birthRecycle stream id)

def waitEvent (setup : Setup n ε) (s : System n ε) (event : ε) : Option (GraphStatus × System n ε) :=
  let info := setup.info event
  let space := s.spaces event
  let waited := s.heap.log info.logicDstStream (.waitEvent event)
  match forStatus (waitBlock info) space.blockFreeBySrcStream waited with
  | none => none
  | some (.success,synced) =>
    let heard := Function.update s.spaces event ⟨[],space.blockNeedReturnBirth⟩
    match forStatus (returnBlock info.logicDstStream) space.blockNeedReturnBirth synced with
    | none => none
    | some (.success,returned) => some (.success,⟨returned,Function.update heard event ⟨[],[]⟩⟩)
    | some (status,returned) => some (status,⟨returned,heard⟩)
  | some (status,synced) => some (status,⟨synced,s.spaces⟩)

inductive Step (n : Nat) (ε : Type) where
  | malloc (stream : Fin n) (size : Nat) (own : Option Nat)
  | addCount (stream : Fin n) (block : BlockId n)
  | newAccessStream (srcStream dstStream : Fin n) (block : BlockId n)
  | free (stream : Fin n) (block : BlockId n)
  | sendEvent (event : ε)
  | waitEvent (event : ε)
  deriving DecidableEq

/-- What tensor data owes the allocator: only a stream that holds a block shares it, passes it on
or frees it. -/
def Allowed (s : System n ε) : Step n ε → Prop
  | .addCount stream block => 0 < (s.heap.blocks block).getCount stream
  | .newAccessStream src _ block => 0 < (s.heap.blocks block).getCount src
  | .free stream block => 0 < (s.heap.blocks block).getCount stream
  | _ => True

/-- One client call. `none` is undefined behaviour of the source. -/
def step (setup : Setup n ε) (s : System n ε) : Step n ε → Option (GraphStatus × System n ε)
  | .malloc stream size own =>
    (s.heap.malloc setup.order setup.extendSize stream size own).map fun (_,heap) => (.success,{s with heap := heap})
  | .addCount stream block =>
    some (.success,{s with heap := s.heap.setBlock block ((s.heap.blocks block).addCount stream)})
  | .newAccessStream _ dst block =>
    some (.success,{s with heap := s.heap.setBlock block ((s.heap.blocks block).newAccessStream dst)})
  | .free stream block =>
    ((s.heap.log stream (.release (s.heap.versionBlock block))).freeBlock stream block).map fun heap =>
      (.success,{s with heap := heap})
  | .sendEvent event => some (.success,s.sendEvent setup event)
  | .waitEvent event => s.waitEvent setup event

inductive Run (setup : Setup n ε) : List (System n ε × Step n ε) → System n ε → Prop where
  | start : Run setup [] initial
  | next {history s action status s'} : Run setup history s → s.Allowed action →
      s.step setup action = some (status,s') → Run setup ((s,action) :: history) s'

instance (s : System n ε) : (action : Step n ε) → Decidable (s.Allowed action)
  | .addCount _ _ => inferInstanceAs (Decidable (0 < _))
  | .newAccessStream _ _ _ => inferInstanceAs (Decidable (0 < _))
  | .free _ _ => inferInstanceAs (Decidable (0 < _))
  | .malloc _ _ _ => isTrue trivial
  | .sendEvent _ => isTrue trivial
  | .waitEvent _ => isTrue trivial

def play (setup : Setup n ε) : List (Step n ε) → Option (List (System n ε × Step n ε) × System n ε)
  | [] => some ([],initial)
  | action :: older =>
    match play setup older with
    | none => none
    | some (history,s) =>
      if s.Allowed action then (s.step setup action).map fun (_,s') => ((s,action) :: history,s') else none

theorem run_of_play {setup : Setup n ε} {actions : List (Step n ε)} {history : List (System n ε × Step n ε)}
    {s : System n ε} (played : play setup actions = some (history,s)) : Run setup history s := by
  induction actions generalizing history s with
  | nil =>
    cases played
    exact .start
  | cons action older ih =>
    unfold play at played
    cases before : play setup older with
    | none => simp [before] at played
    | some state =>
      simp only [before] at played
      split at played
      next allowed =>
        cases done : state.2.step setup action with
        | none => simp [done] at played
        | some result =>
          simp only [done,Option.map_some,Option.some.injEq,Prod.mk.injEq] at played
          obtain ⟨rfl,rfl⟩ := played
          exact .next (ih before) allowed done
      next => cases played

/-- The body of the walk of `LastWaitEvents` over one stream's local-recycled blocks. -/
def syncToBirth (h : Heap n ε) (news : VersionBlock (BlockId n)) : Option (GraphStatus × Heap n ε) :=
  match h.getBirthStreamId news.block with
  | none => none
  | some birth => h.syncAllLocalRecycleStatus birth news.block

def sweepPolicy (src : Fin n) (state : Option (Heap n ε)) (entry : StreamedVersionBlock (BlockId n)) : Turn :=
  match state with
  | none => .advance
  | some heap => findNextForAll heap.getVersion (toAllBit n src) entry

def sweepBody (state : Option (Heap n ε)) (news : VersionBlock (BlockId n)) : GraphStatus × Option (Heap n ε) :=
  match state.bind (syncToBirth · news) with
  | none => (.failed,none)
  | some (status,heap) => (status,some heap)

/-- That walk. A loop state `none` is undefined behaviour, and ends it. -/
def syncLocalRecycleBlocks (h : Heap n ε) (src : Fin n) :
    GraphStatus × Option (Heap n ε) × List (StreamedVersionBlock (BlockId n)) :=
  forEach (sweepPolicy src) (toAllBit n src) sweepBody (some h) (h.allocators src).localRecycleBlocks

def setLocalRecycleBlocks (h : Heap n ε) (src : Fin n) (blocks : List (StreamedVersionBlock (BlockId n))) : Heap n ε :=
  h.setAllocator src {h.allocators src with localRecycleBlocks := blocks}

def returnToBirth (h : Heap n ε) (id : BlockId n) : Option (GraphStatus × Heap n ε) :=
  match h.getBirthStreamId id with
  | none => none
  | some birth => some (h.birthRecycle birth id)

/-- Every block that `src` borrowed from `dst` goes back to its birth pool. -/
def returnBorrowBlocks (setup : Setup n ε) (src : Fin n) (h : Heap n ε) (dst : Fin n) :
    Option (GraphStatus × Heap n ε) :=
  let allocator := h.allocators src
  let (targets,pool) := allocator.borrowAllocator.getAndClearBorrowBlocks setup.order h.getSize (some dst)
  forStatus returnToBirth targets (h.setAllocator src {allocator with borrowAllocator := pool})

def lastWaitStream (setup : Setup n ε) (h : Heap n ε) (src : Fin n) : Option (GraphStatus × Heap n ε) :=
  match syncLocalRecycleBlocks h src with
  | (_,none,_) => none
  | (.success,some synced,left) =>
    forStatus (returnBorrowBlocks setup src) (List.finRange n) (setLocalRecycleBlocks synced src left)
  | (status,some synced,left) => some (status,setLocalRecycleBlocks synced src left)

/-- `LastWaitEvents`, after the device waits of the given events. -/
def lastWaitEvents (setup : Setup n ε) (s : System n ε) (events : List ε) : Option (GraphStatus × System n ε) :=
  let waited := events.foldl (fun h event => h.log (setup.info event).logicDstStream (.waitEvent event)) s.heap
  if n = 0 then some (.failed,{s with heap := waited})
  else (forStatus (lastWaitStream setup) (List.finRange n) waited).map fun (status,heap) =>
    (status,{s with heap := heap})

end System

theorem forStatus_rule {α σ : Type} (body : σ → α → Option (GraphStatus × σ)) (Inv : List α → σ → Prop)
    (turn : ∀ item items state, Inv (item :: items) state →
      ∃ next, body state item = some (.success,next) ∧ Inv items next)
    (items : List α) (state : σ) (start : Inv items state) :
    ∃ final, forStatus body items state = some (.success,final) ∧ Inv [] final := by
  induction items generalizing state with
  | nil => exact ⟨state,rfl,start⟩
  | cons item items ih =>
    obtain ⟨next,done,kept⟩ := turn item items state start
    obtain ⟨final,rest,invariant⟩ := ih next kept
    refine ⟨final,?_,invariant⟩
    rw [forStatus,done]
    exact rest

/-- The two loops of `WaitEvent` keep what one turn of each keeps. -/
theorem System.waitEvent_rule {n : Nat} {ε : Type} [DecidableEq ε] {setup : Setup n ε} {s : System n ε} {event : ε}
    (Inv : List (VersionBlock (BlockId n)) → List (BlockId n) → Heap n ε → Prop)
    (hear : ∀ news rest blocks h, Inv (news :: rest) blocks h →
      ∃ h', waitBlock (setup.info event) h news = some (.success,h') ∧ Inv rest blocks h')
    (giveBack : ∀ id rest h, Inv [] (id :: rest) h →
      ∃ h', returnBlock (setup.info event).logicDstStream h id = some (.success,h') ∧ Inv [] rest h')
    (start : Inv (s.spaces event).blockFreeBySrcStream (s.spaces event).blockNeedReturnBirth
      (s.heap.log (setup.info event).logicDstStream (.waitEvent event))) :
    ∃ h, s.waitEvent setup event = some (.success,⟨h,Function.update s.spaces event ⟨[],[]⟩⟩) ∧ Inv [] [] h := by
  obtain ⟨synced,heard,kept⟩ :=
    forStatus_rule _ (Inv · (s.spaces event).blockNeedReturnBirth) (fun news rest => hear news rest _) _ _ start
  obtain ⟨returned,taken,done⟩ := forStatus_rule _ (Inv []) giveBack _ synced kept
  exact ⟨returned,by simp [waitEvent,heard,taken],done⟩

end GraphEngine.Memory

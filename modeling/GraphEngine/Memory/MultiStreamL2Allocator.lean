import Mathlib.Data.Fintype.Basic
import GraphEngine.Memory.BorrowAllocator
import GraphEngine.Memory.MultiStreamMemBlock

/-! The per-stream second level allocators over one heap of shared blocks. Each function writes the
kernel trace the source writes, with the block version and the occupation counts it acts on. -/
namespace GraphEngine.Memory
open GraphEngine.Lib Function

structure BlockId (n : Nat) where
  pool : Fin n
  index : Nat
  deriving DecidableEq

inductive Mark (n : Nat) (ε : Type) where
  | acquire (block : VersionBlock (BlockId n))
  | borrow (block : VersionBlock (BlockId n))
  | release (block : VersionBlock (BlockId n))
  | birthRecycle (block : VersionBlock (BlockId n)) (occupied : Fin n → Nat)
  | borrowRecycle (block : VersionBlock (BlockId n)) (occupied : Fin n → Nat)
  | recordEvent (event : ε)
  | waitEvent (event : ε)
  deriving DecidableEq

structure Point (n : Nat) (ε : Type) where
  stream : Fin n
  mark : Mark n ε
  deriving DecidableEq

/-- `free_` is a stack whose top is the head of the list. -/
structure MultiStreamMemBlockPool (n : Nat) where
  constructed : Nat
  free : List (BlockId n)

def kPoolSize : Nat := 1000

namespace MultiStreamMemBlockPool
variable {n : Nat}

def extend (extendSize : Nat) (stream : Fin n) (p : MultiStreamMemBlockPool n) : MultiStreamMemBlockPool n where
  constructed := p.constructed + extendSize
  free := ((List.range extendSize).map fun i => ⟨stream,p.constructed + i⟩).reverse ++ p.free

def ready (extendSize : Nat) (stream : Fin n) (p : MultiStreamMemBlockPool n) : MultiStreamMemBlockPool n :=
  if p.free.isEmpty then p.extend extendSize stream else p

end MultiStreamMemBlockPool

structure MultiStreamL2Allocator (n : Nat) where
  localRecycleBlocks : List (StreamedVersionBlock (BlockId n))
  msBlockPool : MultiStreamMemBlockPool n
  borrowAllocator : BorrowAllocator (BlockId n) (Option (Fin n))

structure Heap (n : Nat) (ε : Type) where
  blocks : BlockId n → MultiStreamMemBlock n
  allocators : Fin n → MultiStreamL2Allocator n
  trace : List (Point n ε)

namespace Heap
variable {n : Nat} {ε : Type}

def initial : Heap n ε :=
  ⟨fun _ => MultiStreamMemBlock.initial,fun _ => ⟨[],⟨0,[]⟩,BorrowAllocator.empty⟩,[]⟩

variable (h : Heap n ε)

def setBlock (id : BlockId n) (block : MultiStreamMemBlock n) : Heap n ε :=
  {h with blocks := Function.update h.blocks id block}

def setAllocator (stream : Fin n) (allocator : MultiStreamL2Allocator n) : Heap n ε :=
  {h with allocators := Function.update h.allocators stream allocator}

def log (stream : Fin n) (mark : Mark n ε) : Heap n ε := {h with trace := ⟨stream,mark⟩ :: h.trace}

def getSize (id : BlockId n) : Nat := (h.blocks id).getSize

def getBirthStreamId (id : BlockId n) : Option (Fin n) := (h.blocks id).birthAllocator

def getVersion (id : BlockId n) : Int := (h.blocks id).version

def versionBlock (id : BlockId n) : VersionBlock (BlockId n) := ⟨h.getVersion id,id⟩

/-- `ms_block_pool_.Acquire(this, block, ..)`. -/
def acquire (extendSize : Nat) (h : Heap n ε) (stream : Fin n) (block : Nat) : Option (BlockId n) × Heap n ε :=
  let allocator := h.allocators stream
  let pool := allocator.msBlockPool.ready extendSize stream
  match pool.free with
  | [] => (none,h.setAllocator stream {allocator with msBlockPool := pool})
  | id :: rest =>
    let taken := h.setAllocator stream {allocator with msBlockPool := {pool with free := rest}}
    match (h.blocks id).reInit stream block with
    | (.success,born) => (some id,(taken.setBlock id born).log stream (.acquire (h.versionBlock id)))
    | (_,born) => (none,taken.setBlock id born)

/-- `Malloc(size)`, where `own` is the reply of the stream's own pool to this request. -/
def malloc (order : IterationOrder (BlockId n)) (extendSize : Nat) (h : Heap n ε) (stream : Fin n) (size : Nat)
    (own : Option Nat) : Option (Option (BlockId n) × Heap n ε) :=
  match own with
  | some block => some (h.acquire extendSize stream block)
  | none =>
    let allocator := h.allocators stream
    match allocator.borrowAllocator.alloc order h.getBirthStreamId size with
    | none => none
    | some (none,pool) => some (none,h.setAllocator stream {allocator with borrowAllocator := pool})
    | some (some id,pool) =>
      some (some id,((h.setAllocator stream {allocator with borrowAllocator := pool}).setBlock id
        ((h.blocks id).newAccessStream stream)).log stream (.borrow (h.versionBlock id)))

def localRecycle (stream : Fin n) (id : BlockId n) : Heap n ε :=
  let allocator := h.allocators stream
  h.setAllocator stream {allocator with localRecycleBlocks := allocator.localRecycleBlocks ++ [⟨h.versionBlock id,0⟩]}

def borrowRecycle (stream : Fin n) (id : BlockId n) : Heap n ε :=
  let allocator := h.allocators stream
  let block := h.blocks id
  ((h.setAllocator stream {allocator with
      borrowAllocator := allocator.borrowAllocator.free h.getSize h.getBirthStreamId id}).setBlock id
    block.plusVersion.reInitMifs).log stream (.borrowRecycle (h.versionBlock id) block.streamIdsToOccupyCount)

/-- `ms_block_pool_.Release(block)`. -/
def release (stream : Fin n) (id : BlockId n) : Heap n ε :=
  let allocator := h.allocators stream
  let pool := allocator.msBlockPool
  (h.setAllocator stream {allocator with msBlockPool := {pool with free := id :: pool.free}}).setBlock id
    (h.blocks id).plusVersion.clearMemBlock

def birthRecycle (stream : Fin n) (id : BlockId n) : GraphStatus × Heap n ε :=
  if (h.blocks id).memBlock = none then (.failed,h)
  else if h.getBirthStreamId id ≠ some stream then (.failed,h)
  else (.success,(h.release stream id).log stream
    (.birthRecycle (h.versionBlock id) (h.blocks id).streamIdsToOccupyCount))

/-- The count and flag update at the head of `MultiStreamL2Allocator::Free`. -/
def dropCount (block : MultiStreamMemBlock n) (stream : Fin n) : Bool × MultiStreamMemBlock n :=
  if 0 < block.getCount stream then
    if (block.subCount stream).getCount stream = 0 then (true,(block.subCount stream).updateLocalRecycleMif stream)
    else (false,block.subCount stream)
  else (false,block)

/-- `MultiStreamL2Allocator::Free` of the allocator of `stream`. -/
def free (stream : Fin n) (id : BlockId n) : Heap n ε :=
  let (needRecycle,block) := dropCount (h.blocks id) stream
  let dropped := h.setBlock id block
  if block.canGlobalRecycle stream then
    if block.birthAllocator = some stream then (dropped.birthRecycle stream id).2
    else dropped.borrowRecycle stream id
  else if needRecycle then dropped.localRecycle stream id
  else dropped

/-- `MultiStreamMemBlock::Free`; `none` is the dereference of a null birth allocator. -/
def freeBlock (stream : Fin n) (id : BlockId n) : Option (Heap n ε) :=
  if (h.blocks id).memBlock = none then some h
  else match (h.blocks id).birthAllocator with
    | none => none
    | some _ => some (h.free stream id)

def syncLocalRecycleStatus (srcStream dstStream : Fin n) (id : BlockId n) :
    Option (GraphStatus × Heap n ε) :=
  let mif := (h.blocks id).occupyMif
  if ¬ (mif.isSet dstStream dstStream ≤ mif.isSet srcStream dstStream) then some (.failed,h)
  else if ¬ (mif.isSet srcStream srcStream ≤ mif.isSet dstStream srcStream) then some (.failed,h)
  else
    let merged := h.setBlock id ((h.blocks id).mergeClearedFrom srcStream dstStream)
    if (merged.blocks id).occupyMif.isAnySet dstStream then some (.success,merged)
    else (merged.freeBlock dstStream id).map fun freed => (.success,freed)

/-- The loop of `SyncAllLocalRecycleStatus` over the stream ids that are left. -/
def syncAllFrom (dstStream : Fin n) (id : BlockId n) : List (Fin n) → Heap n ε → Option (Heap n ε)
  | [],h => some h
  | stream :: streams,h =>
    if stream = dstStream then syncAllFrom dstStream id streams h
    else
      let merged := h.setBlock id ((h.blocks id).mergeClearedFrom stream dstStream)
      if (merged.blocks id).occupyMif.isAnySet dstStream then syncAllFrom dstStream id streams merged
      else merged.freeBlock dstStream id

def syncAllLocalRecycleStatus (dstStream : Fin n) (id : BlockId n) : Option (GraphStatus × Heap n ε) :=
  (syncAllFrom dstStream id (List.finRange n) h).map fun synced => (.success,synced)

variable (id : BlockId n) (block : MultiStreamMemBlock n)

@[simp] theorem setBlock_blocks :
    (h.setBlock id block).blocks = update h.blocks id block := rfl
@[simp] theorem setBlock_allocators :
    (h.setBlock id block).allocators = h.allocators := rfl
@[simp] theorem setBlock_trace :
    (h.setBlock id block).trace = h.trace := rfl
variable (stream : Fin n) (a : MultiStreamL2Allocator n)

@[simp] theorem setAllocator_blocks :
    (h.setAllocator stream a).blocks = h.blocks := rfl
@[simp] theorem setAllocator_allocators :
    (h.setAllocator stream a).allocators = update h.allocators stream a := rfl
@[simp] theorem setAllocator_trace :
    (h.setAllocator stream a).trace = h.trace := rfl
variable (mark : Mark n ε)

@[simp] theorem log_blocks : (h.log stream mark).blocks = h.blocks := rfl
@[simp] theorem log_allocators :
    (h.log stream mark).allocators = h.allocators := rfl
@[simp] theorem log_trace :
    (h.log stream mark).trace = ⟨stream,mark⟩ :: h.trace := rfl
@[simp] theorem setAllocator_getSize :
    (h.setAllocator stream a).getSize = h.getSize := rfl
@[simp] theorem setAllocator_getBirthStreamId :
    (h.setAllocator stream a).getBirthStreamId = h.getBirthStreamId := rfl
@[simp] theorem setAllocator_getVersion :
    (h.setAllocator stream a).getVersion = h.getVersion := rfl
@[simp] theorem log_getSize : (h.log stream mark).getSize = h.getSize := rfl
@[simp] theorem log_getBirthStreamId :
    (h.log stream mark).getBirthStreamId = h.getBirthStreamId := rfl
@[simp] theorem log_getVersion :
    (h.log stream mark).getVersion = h.getVersion := rfl

theorem setAllocator_field {α : Type} (field : MultiStreamL2Allocator n → α) (h : Heap n ε) (stream : Fin n)
    {a : MultiStreamL2Allocator n} (same : field a = field (h.allocators stream)) (other : Fin n) :
    field (update h.allocators stream a other) = field (h.allocators other) := by
  by_cases here : other = stream
  · rw [here,update_self,same]
  · rw [update_of_ne here]

end Heap
end GraphEngine.Memory

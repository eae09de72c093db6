import Mathlib.Data.List.Basic

/-! The intrusive list of the fast graph. All lists live in one heap; each has a head that is no element and closes the ring.
A result is missing where a null pointer is followed or a loop does not end. -/

namespace GraphEngine.FastGraph

inductive ListMode where
  | kWorkMode
  | kFreeMode
  deriving DecidableEq,Repr

structure Heap (Addr Id : Type) where
  next : Addr → Option Addr
  prev : Addr → Option Addr
  owner : Addr → Option Id
  mode : Addr → ListMode
  head : Id → Addr
  tail : Id → Addr
  totalSize : Id → Nat

variable {Addr Id : Type} [DecidableEq Addr] [DecidableEq Id]

namespace Heap

variable (heap : Heap Addr Id) (list : Id)

def setNext (element : Addr) (value : Option Addr) : Heap Addr Id :=
  { heap with next := Function.update heap.next element value }

def setPrev (element : Addr) (value : Option Addr) : Heap Addr Id :=
  { heap with prev := Function.update heap.prev element value }

def setOwner (element : Addr) (value : Option Id) : Heap Addr Id :=
  { heap with owner := Function.update heap.owner element value }

def setMode (element : Addr) (value : ListMode) : Heap Addr Id :=
  { heap with mode := Function.update heap.mode element value }

def setTail (value : Addr) : Heap Addr Id :=
  { heap with tail := Function.update heap.tail list value }

def setSize (value : Nat) : Heap Addr Id :=
  { heap with totalSize := Function.update heap.totalSize list value }

/-- The end of `push_back` and `insert`. -/
def adopt (element : Addr) (mode : ListMode) : Heap Addr Id :=
  ((heap.setOwner element (some list)).setMode element mode).setSize list (heap.totalSize list + 1)

/-- `push_back` before it takes the element in. -/
def linkBack (element : Addr) : Heap Addr Id :=
  let last := heap.tail list
  let heap := heap.setNext last (some element)
  let heap := heap.setPrev element (some last)
  let heap := heap.setNext element (some (heap.head list))
  let heap := heap.setTail list element
  heap.setPrev (heap.head list) (some element)

def pushBack (element : Addr) (mode : ListMode) : Heap Addr Id :=
  (heap.linkBack list element).adopt list element mode

/-- The branch for `begin()`. -/
def insertFirst (element : Addr) : Option (Heap Addr Id) := do
  let srcNode ← heap.next (heap.head list)
  let heap := heap.setNext (heap.head list) (some element)
  let heap := heap.setNext element (some srcNode)
  let heap := heap.setPrev element (some (heap.head list))
  let heap := heap.setPrev srcNode (some element)
  some (if heap.tail list = heap.head list then heap.setTail list element else heap)

/-- The branch for `end()`. -/
def insertLast (element : Addr) : Heap Addr Id :=
  let last := heap.tail list
  let heap := heap.setNext element (heap.next last)
  let heap := heap.setPrev element (some last)
  let heap := heap.setNext last (some element)
  let heap := heap.setTail list element
  heap.setPrev (heap.head list) (some element)

def insertBefore (cur element : Addr) : Option (Heap Addr Id) := do
  let prev ← heap.prev cur
  let heap := heap.setPrev element (some prev)
  let heap := heap.setNext element (some cur)
  let heap := heap.setNext prev (some element)
  some (heap.setPrev cur (some element))

def insert (pos element : Addr) (mode : ListMode) : Option (Heap Addr Id) := do
  let linked ←
    if heap.next (heap.head list) = some pos then heap.insertFirst list element
    else if pos = heap.head list then some (heap.insertLast list element)
    else heap.insertBefore pos element
  some (linked.adopt list element mode)

/-- At `begin()`, whatever that is. -/
def pushFront (element : Addr) (mode : ListMode) : Option (Heap Addr Id) := do
  let first ← heap.next (heap.head list)
  heap.insert list first element mode

/-- The first half of `move`: the element is taken out, but keeps its own pointers. -/
def detach (src : Addr) : Option (Heap Addr Id) := do
  let next ← heap.next src
  let prev ← heap.prev src
  let heap := heap.setNext prev (some next)
  let heap := heap.setPrev next (some prev)
  some (if heap.tail list = src then heap.setTail list prev else heap)

def attachBefore (src dst : Addr) : Option (Heap Addr Id) := do
  let dstPrev ← heap.prev dst
  let heap := heap.setPrev dst (some src)
  let heap := heap.setNext dstPrev (some src)
  let heap := heap.setPrev src (some dstPrev)
  some (heap.setNext src (some dst))

def attachAfter (src dst : Addr) : Option (Heap Addr Id) := do
  let dstNext ← heap.next dst
  let heap := heap.setPrev dstNext (some src)
  let heap := heap.setNext dst (some src)
  let heap := heap.setPrev src (some dst)
  let heap := heap.setNext src (some dstNext)
  some (if heap.tail list = dst then heap.setTail list src else heap)

def move (src dst : Addr) (beforeFlag : Bool) : Option (Heap Addr Id) := do
  let heap ← heap.detach list src
  if beforeFlag then heap.attachBefore src dst else heap.attachAfter list src dst

def release (x prev : Addr) : Option (Heap Addr Id) := do
  let heap := if heap.tail list = x then heap.setTail list prev else heap
  let next ← heap.next x
  let heap := ((heap.setPrev x none).setNext x none).setOwner x none
  let heap := heap.setMode x .kFreeMode
  let heap := heap.setNext prev (some next)
  let heap := heap.setPrev next (some prev)
  some (heap.setSize list (heap.totalSize list - 1))

def erase (x : Addr) : Option (Heap Addr Id × Int) :=
  if heap.owner x ≠ some list then some (heap,-1)
  else
    match heap.prev x with
    | none => some (heap,0)
    | some prev => (heap.release list x prev).map (·,0)

def eraseAt (pos : Addr) : Option (Heap Addr Id × Option Addr) := do
  let next := heap.next pos
  let (heap,_) ← heap.erase list pos
  some (heap,next)

def clear (list : Id) : Nat → Heap Addr Id → Option Addr → Option (Heap Addr Id)
  | 0,_,_ => none
  | _ + 1,_,none => none
  | fuel + 1,heap,some iter =>
    if iter = heap.head list then some heap
    else do
      let (heap,iter) ← heap.eraseAt list iter
      clear list fuel heap iter

/-- A loop of `swap`: the elements from the iterator to the head get a new owner. -/
def setOwners (owner : Id) (stop : Addr) : Nat → Heap Addr Id → Addr → Option (Heap Addr Id)
  | 0,_,_ => none
  | fuel + 1,heap,iter =>
    if iter = stop then some heap
    else do
      let heap := heap.setOwner iter (some owner)
      let iter ← heap.next iter
      setOwners owner stop fuel heap iter

def swapFields (heap : Heap Addr Id) (list other : Id) : Heap Addr Id :=
  let tmpHead := heap.head list
  let tmpTail := heap.tail list
  let tmpTotalSize := heap.totalSize list
  let heap := { heap with
    head := Function.update heap.head list (heap.head other)
    tail := Function.update heap.tail list (heap.tail other)
    totalSize := Function.update heap.totalSize list (heap.totalSize other) }
  let heap := heap.setOwner (heap.head list) (some list)
  let heap := { heap with
    head := Function.update heap.head other tmpHead
    tail := Function.update heap.tail other tmpTail
    totalSize := Function.update heap.totalSize other tmpTotalSize }
  heap.setOwner (heap.head other) (some other)

def swap (fuel : Nat) (heap : Heap Addr Id) (list other : Id) : Option (Heap Addr Id) := do
  let first ← heap.next (heap.head other)
  let heap ← setOwners list (heap.head other) fuel heap first
  let first ← heap.next (heap.head list)
  let heap ← setOwners other (heap.head list) fuel heap first
  some (heap.swapFields list other)

/-- `std::list::merge`: an element of the second list goes first only if it is less. -/
def merge (comp : Addr → Addr → Bool) (first second : List Addr) : List Addr :=
  List.merge first second fun a b => !comp b a

def carryIn (comp : Addr → Addr → Bool) : List (List Addr) → List Addr → List (List Addr)
  | [],carry => [carry]
  | counter :: counters,carry =>
    if counter = [] then carry :: counters else [] :: carryIn comp counters (merge comp counter carry)

def mergeCounters (comp : Addr → Addr → Bool) (counters : List (List Addr)) : List Addr :=
  match counters with
  | [] => []
  | first :: rest => rest.foldl (fun merged counter => merge comp counter merged) first

/-- The first loop of `sort` takes the elements out. -/
def sortLoop (comp : Addr → Addr → Bool) (list : Id) : Nat → Heap Addr Id → List (List Addr) →
    Option (Heap Addr Id × List (List Addr))
  | 0,_,_ => none
  | fuel + 1,heap,counters => do
    let element ← heap.next (heap.head list)
    let (heap,_) ← heap.eraseAt list element
    let counters := carryIn comp counters [element]
    if heap.next (heap.head list) = some (heap.head list) then some (heap,counters)
    else sortLoop comp list fuel heap counters

def sort (fuel : Nat) (heap : Heap Addr Id) (list : Id) (comp : Addr → Addr → Bool) : Option (Heap Addr Id) :=
  if heap.totalSize list ≤ 1 then some heap
  else do
    let (heap,counters) ← sortLoop comp list fuel heap []
    let heap ← clear list fuel heap (heap.next (heap.head list))
    some ((mergeCounters comp counters).foldl (fun heap element => heap.pushBack list element .kWorkMode) heap)

end Heap

inductive ListCall (Addr Id : Type) where
  | pushBack (list : Id) (element : Addr) (mode : ListMode)
  | pushFront (list : Id) (element : Addr) (mode : ListMode)
  | insert (list : Id) (pos element : Addr) (mode : ListMode)
  | move (list : Id) (src dst : Addr) (beforeFlag : Bool)
  | erase (list : Id) (element : Addr)
  | swap (list other : Id)
  | sort (list : Id) (comp : Addr → Addr → Bool)

def ListCall.exec (fuel : Nat) (heap : Heap Addr Id) : ListCall Addr Id → Option (Heap Addr Id)
  | pushBack list element mode => some (heap.pushBack list element mode)
  | pushFront list element mode => heap.pushFront list element mode
  | insert list pos element mode => heap.insert list pos element mode
  | move list src dst beforeFlag => heap.move list src dst beforeFlag
  | erase list element => (heap.erase list element).map Prod.fst
  | swap list other => heap.swap fuel list other
  | sort list comp => heap.sort fuel list comp

end GraphEngine.FastGraph

import GraphEngine.Memory.Mif

/-! The lists of locally recycled blocks of `version_blocks.h`. An entry leaves the list when its block has a newer version
or was sent to every other stream; until then each walk for a destination hands it out once. -/
namespace GraphEngine.Memory
open GraphEngine.Lib

/-- `ge::graphStatus` as the memory kernels use it. -/
inductive GraphStatus where
  | success
  | failed
  | paramInvalid
  deriving DecidableEq, Repr

structure VersionBlock (β : Type) where
  version : Int
  block : β
  deriving DecidableEq

structure StreamedVersionBlock (β : Type) where
  versionBlock : VersionBlock β
  sentFlags : UInt64
  deriving DecidableEq

/-- `BaseVersionBlocks::ToAllBit`. -/
def toAllBit (streamNum streamId : Nat) : UInt64 := (toBit streamNum - 1) &&& ~~~toBit streamId

/-- What one turn of the loops in `FindNext` and `FindNextForAll` does with the
entry under the iterator: erase it, step over it, or stop at it. -/
inductive Turn where
  | erase
  | advance
  | found
  deriving DecidableEq

variable {β σ : Type}

def findNext (version : β → Int) (dstStreamBit allSentBits : UInt64) (entry : StreamedVersionBlock β) : Turn :=
  if entry.versionBlock.version ≠ version entry.versionBlock.block then .erase
  else if entry.sentFlags = allSentBits then .erase
  else if entry.sentFlags &&& dstStreamBit ≠ 0 then .advance
  else .found

def findNextForAll (version : β → Int) (allSentBits : UInt64) (entry : StreamedVersionBlock β) : Turn :=
  if entry.versionBlock.version ≠ version entry.versionBlock.block then .erase
  else if entry.sentFlags = allSentBits then .erase
  else .found

def markSent (dstStreamBit : UInt64) (entry : StreamedVersionBlock β) : StreamedVersionBlock β :=
  {entry with sentFlags := entry.sentFlags ||| dstStreamBit}

/-- `for (iter = Begin(); iter != End(); Next(iter)) body(iter)` over `VersionBlocks`. The policy sees the state that the
earlier bodies left; a failing body leaves the rest of the list untouched. -/
def forEach (policy : σ → StreamedVersionBlock β → Turn) (dstStreamBit : UInt64)
    (body : σ → VersionBlock β → GraphStatus × σ) :
    σ → List (StreamedVersionBlock β) → GraphStatus × σ × List (StreamedVersionBlock β)
  | state, [] => (.success,state,[])
  | state, entry::rest =>
    match policy state entry with
    | .erase => forEach policy dstStreamBit body state rest
    | .advance =>
      let walked := forEach policy dstStreamBit body state rest
      (walked.1,walked.2.1,entry::walked.2.2)
    | .found =>
      match body state entry.versionBlock with
      | (.success,next) =>
        let walked := forEach policy dstStreamBit body next rest
        (walked.1,walked.2.1,markSent dstStreamBit entry::walked.2.2)
      | (status,next) => (status,next,markSent dstStreamBit entry::rest)

section ForEach
variable {policy : σ → StreamedVersionBlock β → Turn} {bit : UInt64} {body : σ → VersionBlock β → GraphStatus × σ}
  {state : σ} {entry : StreamedVersionBlock β}

theorem forEach_erase (turn : policy state entry = .erase) (rest : List (StreamedVersionBlock β)) :
    forEach policy bit body state (entry::rest) = forEach policy bit body state rest := by
  simp only [forEach,turn]
end ForEach

/-- The walk of `SendEvent` over `GetClearLocalRecycleBlocks(dst_stream_id)`: the
blocks handed out, in order, and the list that is left. -/
def clearLocalRecycleBlocks (version : β → Int) (streamNum streamId dstStreamId : Nat)
    (blocks : List (StreamedVersionBlock β)) : List (VersionBlock β) × List (StreamedVersionBlock β) :=
  (forEach (fun _ => findNext version (toBit dstStreamId) (toAllBit streamNum streamId)) (toBit dstStreamId)
    (fun sent block => (.success,sent ++ [block])) [] blocks).2

/-- The walk acts on each entry alone: found entries are handed out and marked,
erased ones disappear, the others stay as they are. -/
theorem clearLocalRecycleBlocks_eq (version : β → Int) (streamNum streamId dst : Nat)
    (blocks : List (StreamedVersionBlock β)) : clearLocalRecycleBlocks version streamNum streamId dst blocks =
      (let turn := findNext version (toBit dst) (toAllBit streamNum streamId)
       ((blocks.filter (fun e => turn e = .found)).map (·.versionBlock), (blocks.filter (fun e => turn e ≠ .erase)).map
          (fun e => if turn e = .found then markSent (toBit dst) e else e))) := by
  unfold clearLocalRecycleBlocks
  generalize findNext version (toBit dst) (toAllBit streamNum streamId) = turn
  suffices walk : ∀ sent, (forEach (fun _ => turn) (toBit dst)
      (fun sent block => (.success,sent ++ [block])) sent blocks).2 =
      (sent ++ (blocks.filter (fun e => turn e = .found)).map (·.versionBlock),
        (blocks.filter (fun e => turn e ≠ .erase)).map
          (fun e => if turn e = .found then markSent (toBit dst) e else e)) by
    simpa using walk []
  induction blocks with
  | nil => simp [forEach]
  | cons entry rest ih =>
    intro sent
    cases kind : turn entry with
    | erase => simp [forEach,kind,ih sent]
    | advance => simp [forEach,kind,ih sent]
    | found => simp [forEach,kind,ih (sent ++ [entry.versionBlock])]

variable {version : β → Int} {streamNum streamId dst : Nat} {blocks : List (StreamedVersionBlock β)}

theorem mem_clearLocalRecycleBlocks_sent {news : VersionBlock β} :
    news ∈ (clearLocalRecycleBlocks version streamNum streamId dst blocks).1 ↔
      ∃ entry ∈ blocks, findNext version (toBit dst) (toAllBit streamNum streamId) entry = .found ∧
        entry.versionBlock = news := by
  simp [clearLocalRecycleBlocks_eq,and_assoc]

theorem mem_clearLocalRecycleBlocks_left {left : StreamedVersionBlock β} :
    left ∈ (clearLocalRecycleBlocks version streamNum streamId dst blocks).2 ↔
      ∃ entry ∈ blocks, findNext version (toBit dst) (toAllBit streamNum streamId) entry ≠ .erase ∧
        (if findNext version (toBit dst) (toAllBit streamNum streamId) entry = .found
          then markSent (toBit dst) entry else entry) = left := by
  simp [clearLocalRecycleBlocks_eq,and_assoc]

theorem has_toAllBit {n : Nat} (few : n ≤ 63) (stream : Fin n) (i : Nat) :
    FlagWord.has (toAllBit n stream) i = (decide (i < n) && !decide (i = stream)) := by
  rw [toAllBit,FlagWord.has_and_not,toBit_eq_one,FlagWord.has_one_sub_one (by omega),
    Mif.toBit_has (by omega) stream.isLt]

theorem findNext_found_iff (version : β → Int) (dst all : UInt64) (entry : StreamedVersionBlock β) :
    findNext version dst all entry = .found ↔
      entry.versionBlock.version = version entry.versionBlock.block ∧
        entry.sentFlags ≠ all ∧ entry.sentFlags &&& dst = 0 := by
  unfold findNext
  split_ifs <;> simp_all

theorem findNext_erase_iff (version : β → Int) (dst all : UInt64) (entry : StreamedVersionBlock β) :
    findNext version dst all entry = .erase ↔
      entry.versionBlock.version ≠ version entry.versionBlock.block ∨ entry.sentFlags = all := by
  unfold findNext
  split_ifs <;> simp_all

end GraphEngine.Memory

import GraphEngine.Memory.BorrowAllocator

/-! The borrow allocator against a plain set of pooled blocks: what each operation answers over
the set, and exactly when a run of operations keeps both indexes in step with it. -/
namespace GraphEngine.Memory.BorrowAllocator
open GraphEngine.Lib OrdMap

inductive Op (β κ : Type) where
  | free (block : β)
  | alloc (size : Nat)
  | getAndClearBorrowBlocks (stream : κ)

inductive Reply (β : Type) where
  | done
  | block (block : Option β)
  | blocks (targets : List β)
  deriving DecidableEq

variable {β κ : Type} [DecidableEq β] [DecidableEq κ]

section Abstract
variable (getSize : β → Nat) (getBirthStreamId : β → κ)

/-- The replies a set of pooled blocks allows: best fit, null only when nothing fits, and
migration of exactly the blocks born on the asked stream. -/
def Answers (pooled : Set β) : Op β κ → Reply β → Prop
  | .free _,.done => True
  | .alloc size,.block (some block) => block ∈ pooled ∧ size ≤ getSize block ∧
      ∀ other ∈ pooled, size ≤ getSize other → getSize block ≤ getSize other
  | .alloc size,.block none => ∀ other ∈ pooled, getSize other < size
  | .getAndClearBorrowBlocks stream,.blocks targets => targets.Nodup ∧
      ∀ block, block ∈ targets ↔ block ∈ pooled ∧ getBirthStreamId block = stream
  | _,_ => False

def pooledAfter (pooled : Set β) : Op β κ → Reply β → Set β
  | .free block,_ => insert block pooled
  | .alloc _,.block (some block) => pooled \ {block}
  | .getAndClearBorrowBlocks stream,_ => {block ∈ pooled | getBirthStreamId block ≠ stream}
  | .alloc _,_ => pooled

/-- Before a best fit: nothing fits, or a block has exactly the asked size, or two blocks share
the size that will be served. -/
def FitExact (pooled : Set β) : Op β κ → Prop
  | .alloc size => (∀ block ∈ pooled, getSize block < size) ∨ (∃ block ∈ pooled, getSize block = size) ∨
      ∃ block ∈ pooled, ∃ twin ∈ pooled, block ≠ twin ∧ getSize twin = getSize block ∧ size ≤ getSize block ∧
        ∀ other ∈ pooled, size ≤ getSize other → getSize block ≤ getSize other
  | _ => True
end Abstract

section Runs
variable (order : IterationOrder β) (getSize : β → Nat) (getBirthStreamId : β → κ)

def exec (a : BorrowAllocator β κ) : Op β κ → Option (Reply β × BorrowAllocator β κ)
  | .free block => some (.done,a.free getSize getBirthStreamId block)
  | .alloc size => (a.alloc order getBirthStreamId size).map fun (block,after) => (.block block,after)
  | .getAndClearBorrowBlocks stream =>
    let (targets,after) := a.getAndClearBorrowBlocks order getSize stream
    some (.blocks targets,after)

structure Indexed (a : BorrowAllocator β κ) (pooled : Set β) : Prop where
  holds : Holds getSize getBirthStreamId a pooled
  filled : a.KeysFilled

/-- At every point of the run both indexes are in step with the pooled set, and every operation
is defined and answers as the set does. -/
def Agrees (a : BorrowAllocator β κ) (pooled : Set β) : List (Op β κ) → Prop
  | [] => Indexed getSize getBirthStreamId a pooled
  | op :: ops => Indexed getSize getBirthStreamId a pooled ∧
      ∃ reply after, exec order getSize getBirthStreamId a op = some (reply,after) ∧
        Answers getSize getBirthStreamId pooled op reply ∧
        Agrees after (pooledAfter getBirthStreamId pooled op reply) ops

def AllFitExact (a : BorrowAllocator β κ) (pooled : Set β) : List (Op β κ) → Prop
  | [] => True
  | op :: ops => FitExact getSize pooled op ∧
      ∀ reply after, exec order getSize getBirthStreamId a op = some (reply,after) →
        AllFitExact after (pooledAfter getBirthStreamId pooled op reply) ops
end Runs

section Steps
variable {order : IterationOrder β} {getSize : β → Nat} {getBirthStreamId : β → κ} {a : BorrowAllocator β κ} {pooled : Set β}

section

variable (indexed : Indexed getSize getBirthStreamId a pooled)
include indexed

omit [DecidableEq β] [DecidableEq κ] in
theorem Indexed.lowerBound_none {size : Nat} :
    a.sizeToBorrowBlock.lowerBound size = none ↔ ∀ block ∈ pooled, getSize block < size := by
  rw [lowerBound_eq_none_iff]
  constructor
  · intro absent block member
    by_contra small
    have inside := (indexed.holds.sized (getSize block) block).mpr ⟨member,rfl⟩
    rw [blocksOfSize,absent _ (not_lt.mp small)] at inside
    cases inside
  · intro small key above
    cases present : a.sizeToBorrowBlock.find key with
    | none => rfl
    | some blocks =>
      cases blocks with
      | nil => exact absurd present (indexed.filled key)
      | cons block rest =>
        have inside : block ∈ a.blocksOfSize key := by simp [blocksOfSize,present]
        obtain ⟨member,sized⟩ := (indexed.holds.sized key block).mp inside
        have below := small block member
        omega

omit [DecidableEq β] [DecidableEq κ] in
theorem Indexed.lowerBound_le {size key : Nat}
    (bound : a.sizeToBorrowBlock.lowerBound size = some key) {block : β} (member : block ∈ pooled)
    (fits : size ≤ getSize block) : key ≤ getSize block := by
  apply (lowerBound_eq_some bound).2.2 _ fits
  have inside := (indexed.holds.sized (getSize block) block).mpr ⟨member,rfl⟩
  cases present : a.sizeToBorrowBlock.find (getSize block) with
  | none => simp [blocksOfSize,present] at inside
  | some blocks => rfl

theorem Indexed.alloc_defined (order : IterationOrder β) (size : Nat) :
    ∃ block after, a.alloc order getBirthStreamId size = some (block,after) := by
  unfold alloc
  split
  next => exact ⟨none,a,rfl⟩
  next key bound =>
    obtain ⟨⟨blocks,present⟩,-⟩ := lowerBound_eq_some bound
    split
    next missing =>
      have blank := (order.head_none_iff _).mp missing
      rw [blocksOfSize,present] at blank
      exact absurd (present.trans (congrArg some blank)) (indexed.filled key)
    next block first => exact ⟨some block,_,rfl⟩

end

private theorem remaining_iff {blocks : List β} (once : blocks.Nodup) (block : β) :
    (blocks.erase block).isEmpty = true ↔ ∀ other ∈ blocks, other = block := by
  rw [List.isEmpty_iff]
  constructor
  · intro blank other inside
    by_contra differ
    have kept := (once.mem_erase_iff).mpr ⟨differ,inside⟩
    rw [blank] at kept
    cases kept
  · intro only
    apply List.eq_nil_iff_forall_not_mem.mpr
    intro other kept
    obtain ⟨differ,inside⟩ := once.mem_erase_iff.mp kept
    exact differ (only other inside)

theorem Indexed.filled_alloc_iff (indexed : Indexed getSize getBirthStreamId a pooled) {size : Nat} {block : β}
    {after : BorrowAllocator β κ} (served : a.alloc order getBirthStreamId size = some (some block,after)) :
    after.KeysFilled ↔ FitExact getSize pooled (.alloc size : Op β κ) := by
  obtain ⟨key,bound,inside,written⟩ := alloc_some served
  obtain ⟨member,sized⟩ := (indexed.holds.sized key block).mp inside
  have above := (lowerBound_eq_some bound).2.1
  have least : ∀ other ∈ pooled, size ≤ getSize other → key ≤ getSize other :=
    fun _ memberOther fits => indexed.lowerBound_le bound memberOther fits
  have emptied := remaining_iff (indexed.holds.sizedOnce key) block
  constructor
  · intro filled
    by_cases last : ((a.blocksOfSize key).erase block).isEmpty = true
    · have same : key = size := by
        by_contra differ
        apply filled key
        rw [written,if_pos last,find_erase,if_neg differ,find_insert,if_pos rfl,
          List.isEmpty_iff.mp last]
      exact .inr (.inl ⟨block,member,sized.trans same⟩)
    · rw [emptied] at last
      obtain ⟨twin,twinInside,differ⟩ := not_forall₂.mp last
      obtain ⟨twinMember,twinSized⟩ := (indexed.holds.sized key twin).mp twinInside
      refine .inr (.inr ⟨block,member,twin,twinMember,Ne.symm differ,twinSized.trans sized.symm,?_,?_⟩)
      · exact sized ▸ above
      · exact sized ▸ least
  · intro exact' other
    rw [written]
    split
    next last =>
      have same : key = size := by
        rcases exact' with none | ⟨equal,equalMember,equalSize⟩ | ⟨one,oneMember,two,twoMember,differ,twins,fits,smallest⟩
        · have := none block member
          omega
        · have := least equal equalMember equalSize.ge
          omega
        · have oneSized : getSize one = key := by
            have lower := least one oneMember fits
            have upper := smallest block member (sized ▸ above)
            omega
          have oneIs := emptied.mp last one ((indexed.holds.sized key one).mpr ⟨oneMember,oneSized⟩)
          have twoIs := emptied.mp last two ((indexed.holds.sized key two).mpr ⟨twoMember,twins.trans oneSized⟩)
          exact absurd (oneIs.trans twoIs.symm) differ
      rw [find_erase,find_insert]
      split
      · simp
      next away => simpa [same,away] using indexed.filled other
    next more =>
      rw [find_insert]
      split
      · intro blank
        exact more (List.isEmpty_iff.mpr (Option.some.inj blank))
      · exact indexed.filled other

/-- From a state in step with the set every operation is defined, answers as the set does and stays in step; no empty set is
left exactly on an exact fit. -/
theorem Indexed.exec_spec (order : IterationOrder β) (indexed : Indexed getSize getBirthStreamId a pooled) (op : Op β κ) :
    ∃ reply after, exec order getSize getBirthStreamId a op = some (reply,after) ∧
      Answers getSize getBirthStreamId pooled op reply ∧
      Holds getSize getBirthStreamId after (pooledAfter getBirthStreamId pooled op reply) ∧
      (after.KeysFilled ↔ FitExact getSize pooled op) := by
  cases op with
  | free block =>
    exact ⟨.done,_,rfl,trivial,indexed.holds.free block,iff_of_true (indexed.filled.free block) trivial⟩
  | getAndClearBorrowBlocks stream =>
    exact ⟨.blocks _,_,rfl,⟨indexed.holds.cleared_nodup stream,indexed.holds.mem_cleared stream⟩,
      indexed.holds.getAndClearBorrowBlocks stream,
      iff_of_true (indexed.filled.getAndClearBorrowBlocks stream) trivial⟩
  | alloc size =>
    obtain ⟨block,after,defined⟩ := indexed.alloc_defined order size
    refine ⟨.block block,after,by simp [exec,defined],?_⟩
    cases block with
    | none =>
      obtain ⟨bound,rfl⟩ := alloc_none defined
      have small := indexed.lowerBound_none.mp bound
      exact ⟨small,indexed.holds,iff_of_true indexed.filled (.inl small)⟩
    | some block =>
      obtain ⟨key,bound,inside,-⟩ := alloc_some defined
      obtain ⟨member,sized⟩ := (indexed.holds.sized key block).mp inside
      refine ⟨⟨member,?_,?_⟩,indexed.holds.alloc defined,indexed.filled_alloc_iff defined⟩
      · exact sized ▸ (lowerBound_eq_some bound).2.1
      · intro other otherMember fits
        exact sized ▸ indexed.lowerBound_le bound otherMember fits

theorem Agrees.indexed {ops : List (Op β κ)} (agrees : Agrees order getSize getBirthStreamId a pooled ops) :
    Indexed getSize getBirthStreamId a pooled := by
  cases ops with
  | nil => exact agrees
  | cons op ops => exact agrees.1

theorem Indexed.agrees_iff (indexed : Indexed getSize getBirthStreamId a pooled) (ops : List (Op β κ)) :
    Agrees order getSize getBirthStreamId a pooled ops ↔ AllFitExact order getSize getBirthStreamId a pooled ops := by
  induction ops generalizing a pooled with
  | nil => exact iff_of_true indexed trivial
  | cons op ops ih =>
    obtain ⟨reply,after,defined,answers,holds,filled⟩ := indexed.exec_spec order op
    constructor
    · rintro ⟨-,reply',after',defined',-,rest⟩
      cases defined.symm.trans defined'
      refine ⟨filled.mp rest.indexed.filled,?_⟩
      intro reply'' after'' defined''
      cases defined.symm.trans defined''
      exact (ih rest.indexed).mp rest
    · rintro ⟨fit,rest⟩
      have next : Indexed getSize getBirthStreamId after (pooledAfter getBirthStreamId pooled op reply) :=
        ⟨holds,filled.mpr fit⟩
      exact ⟨indexed,reply,after,defined,answers,(ih next).mpr (rest reply after defined)⟩

end Steps

/-- A run from the empty pool refines the set of pooled blocks exactly when no best fit drains the
last block of a size other than the one asked for. -/
theorem agrees_iff_allFitExact (order : IterationOrder β) (getSize : β → Nat) (getBirthStreamId : β → κ)
    (ops : List (Op β κ)) :
    Agrees order getSize getBirthStreamId empty ∅ ops ↔ AllFitExact order getSize getBirthStreamId empty ∅ ops :=
  Indexed.agrees_iff ⟨holds_empty,keysFilled_empty⟩ ops

/-- One block of 100 bytes, asked for 50: the emptied set stays under key 100, and the next best
fit dereferences the first element of an empty set. -/
theorem agrees_fails_on_larger_fit :
    ¬ Agrees (IterationOrder.insertion : IterationOrder Nat) (fun _ => 100) (fun _ => (0 : Nat)) empty ∅
        [.free 7,.alloc 50] ∧
      ((exec IterationOrder.insertion (fun _ => 100) (fun _ => (0 : Nat)) empty (.free (7 : Nat))).bind fun first =>
        (exec IterationOrder.insertion (fun _ => 100) (fun _ => 0) first.2 (.alloc 50)).bind fun second =>
          (exec IterationOrder.insertion (fun _ => 100) (fun _ => 0) second.2 (.alloc 50)).map Prod.fst) = none := by
  constructor
  · rintro ⟨-,reply,after,freed,-,-,reply',after',served,-,final⟩
    cases freed
    cases served
    exact final.filled 100 (by decide)
  · decide

end GraphEngine.Memory.BorrowAllocator

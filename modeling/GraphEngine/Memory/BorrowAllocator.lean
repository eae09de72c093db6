import GraphEngine.Lib.OrdMap

/-! The pool of blocks a stream has borrowed from other streams, indexed by size for best fit and by birth stream for
migration. `Alloc` removes the key it was asked for and not the one it was served from, so an emptied set may stay behind. -/
namespace GraphEngine.Memory
open GraphEngine.Lib Function List OrdMap Option

structure BorrowAllocator (β κ : Type) where
  sizeToBorrowBlock : OrdMap Nat (List β)
  streamToBorrowBlock : κ → List β

namespace BorrowAllocator
variable {β κ : Type}

def empty : BorrowAllocator β κ := ⟨OrdMap.empty,fun _ => []⟩

def blocksOfSize (a : BorrowAllocator β κ) (key : Nat) : List β := (a.sizeToBorrowBlock.find key).getD []

/-- Both indexes hold exactly the pooled blocks, each under its own size and birth stream. -/
structure Holds (getSize : β → Nat) (getBirthStreamId : β → κ) (a : BorrowAllocator β κ)
    (pooled : Set β) : Prop where
  sized : ∀ key block, block ∈ a.blocksOfSize key ↔ block ∈ pooled ∧ getSize block = key
  streamed : ∀ stream block, block ∈ a.streamToBorrowBlock stream ↔ block ∈ pooled ∧ getBirthStreamId block = stream
  sizedOnce : ∀ key, (a.blocksOfSize key).Nodup
  streamedOnce : ∀ stream, (a.streamToBorrowBlock stream).Nodup

/-- The invariant `Alloc` relies on: every key of the size index maps to a non-empty set. -/
def KeysFilled (a : BorrowAllocator β κ) : Prop := ∀ key, a.sizeToBorrowBlock.find key ≠ some []

theorem keysFilled_empty : (empty : BorrowAllocator β κ).KeysFilled := by
  intro key
  simp [empty]

section Contents
variable {getSize : β → Nat} {getBirthStreamId : β → κ} {a : BorrowAllocator β κ} {pooled : Set β}

theorem holds_empty : Holds getSize getBirthStreamId (empty : BorrowAllocator β κ) ∅ := by
  constructor <;> simp [empty,blocksOfSize]

theorem Holds.congr {getSize' : β → Nat} {getBirthStreamId' : β → κ} (holds : Holds getSize getBirthStreamId a pooled)
    (sizes : ∀ block ∈ pooled, getSize' block = getSize block)
    (births : ∀ block ∈ pooled, getBirthStreamId' block = getBirthStreamId block) :
    Holds getSize' getBirthStreamId' a pooled where
  sized key block := by
    rw [holds.sized key block]
    apply and_congr_right
    intro member
    rw [sizes block member]
  streamed stream block := by
    rw [holds.streamed stream block]
    apply and_congr_right
    intro member
    rw [births block member]
  sizedOnce := holds.sizedOnce
  streamedOnce := holds.streamedOnce

end Contents

variable [DecidableEq β] [DecidableEq κ]

section Operations
variable (order : IterationOrder β) (getSize : β → Nat) (getBirthStreamId : β → κ)

/-- Best fit. `none` is `*blocks.begin()` on an empty set; otherwise the block handed out, if any, and the pool afterwards.
-/
def alloc (a : BorrowAllocator β κ) (size : Nat) : Option (Option β × BorrowAllocator β κ) :=
  match a.sizeToBorrowBlock.lowerBound size with
  | none => some (none,a)
  | some key =>
    match (order.iterate (a.blocksOfSize key)).head? with
    | none => none
    | some block =>
      let blocks := (a.blocksOfSize key).erase block
      let served := a.sizeToBorrowBlock.insert key blocks
      let birth := getBirthStreamId block
      some (some block,
        { sizeToBorrowBlock := if blocks.isEmpty then served.erase size else served
          streamToBorrowBlock :=
            Function.update a.streamToBorrowBlock birth ((a.streamToBorrowBlock birth).erase block) })

def free (a : BorrowAllocator β κ) (block : β) : BorrowAllocator β κ where
  sizeToBorrowBlock := a.sizeToBorrowBlock.insert (getSize block) ((a.blocksOfSize (getSize block)).insert block)
  streamToBorrowBlock := Function.update a.streamToBorrowBlock (getBirthStreamId block)
    ((a.streamToBorrowBlock (getBirthStreamId block)).insert block)

def unindex (index : OrdMap Nat (List β)) (block : β) : OrdMap Nat (List β) :=
  match index.find (getSize block) with
  | none => index
  | some blocks =>
    if (blocks.erase block).isEmpty then index.erase (getSize block)
    else index.insert (getSize block) (blocks.erase block)

def getAndClearBorrowBlocks (a : BorrowAllocator β κ) (stream : κ) : List β × BorrowAllocator β κ :=
  let targets := order.iterate (a.streamToBorrowBlock stream)
  (targets,
    { sizeToBorrowBlock := targets.foldl (unindex getSize) a.sizeToBorrowBlock
      streamToBorrowBlock := Function.update a.streamToBorrowBlock stream [] })
end Operations

section Spec
variable {order : IterationOrder β} {getSize : β → Nat} {getBirthStreamId : β → κ} {a : BorrowAllocator β κ} {pooled : Set β}

theorem Holds.free (holds : Holds getSize getBirthStreamId a pooled) (block : β) :
    Holds getSize getBirthStreamId (a.free getSize getBirthStreamId block) (insert block pooled) where
  sized key other := by
    have before := holds.sized key other
    simp only [blocksOfSize,BorrowAllocator.free,find_insert] at before ⊢
    split
    next same =>
      subst key
      simp only [getD_some,mem_insert_iff,Set.mem_insert_iff]
      grind
    next differ => grind
  streamed stream other := by
    have before := holds.streamed stream other
    simp only [BorrowAllocator.free,update_apply,Set.mem_insert_iff]
    split
    next same =>
      subst stream
      simp only [mem_insert_iff]
      grind
    next differ => grind
  sizedOnce key := by
    have before := holds.sizedOnce
    simp only [blocksOfSize,BorrowAllocator.free,find_insert] at before ⊢
    split
    · exact (before _).insert
    · exact before key
  streamedOnce stream := by
    simp only [BorrowAllocator.free,update_apply]
    split
    · exact (holds.streamedOnce _).insert
    · exact holds.streamedOnce stream

theorem KeysFilled.free (filled : a.KeysFilled) (block : β) : (a.free getSize getBirthStreamId block).KeysFilled := by
  intro key
  simp only [BorrowAllocator.free,find_insert]
  split
  · intro blank
    have member : block ∈ (a.blocksOfSize (getSize block)).insert block := mem_insert_self
    simp [some.inj blank] at member
  · exact filled key

variable {size : Nat} {block : β} {a' : BorrowAllocator β κ} {index : OrdMap Nat (List β)}

theorem alloc_some (served : a.alloc order getBirthStreamId size = some (some block,a')) :
    ∃ key, a.sizeToBorrowBlock.lowerBound size = some key ∧ block ∈ a.blocksOfSize key ∧
      a' = ⟨if ((a.blocksOfSize key).erase block).isEmpty
          then (a.sizeToBorrowBlock.insert key ((a.blocksOfSize key).erase block)).erase size
          else a.sizeToBorrowBlock.insert key ((a.blocksOfSize key).erase block),
        update a.streamToBorrowBlock (getBirthStreamId block)
          ((a.streamToBorrowBlock (getBirthStreamId block)).erase block)⟩ := by
  unfold alloc at served
  split at served
  · cases served
  next key bound =>
    split at served
    · cases served
    next first head =>
      cases served
      exact ⟨key,bound,order.head_mem head,rfl⟩

theorem alloc_none (refused : a.alloc order getBirthStreamId size = some (none,a')) :
    a.sizeToBorrowBlock.lowerBound size = none ∧ a' = a := by
  unfold alloc at refused
  split at refused
  next bound =>
    cases refused
    exact ⟨bound,rfl⟩
  next key bound =>
    split at refused
    all_goals cases refused

omit [DecidableEq κ] in
theorem blocksOfSize_alloc {key : Nat} (holds : Holds getSize getBirthStreamId a pooled) (member : block ∈ a.blocksOfSize key)
    (after : a'.sizeToBorrowBlock = if ((a.blocksOfSize key).erase block).isEmpty
      then (a.sizeToBorrowBlock.insert key ((a.blocksOfSize key).erase block)).erase size
      else a.sizeToBorrowBlock.insert key ((a.blocksOfSize key).erase block))
    (absent : size ≠ key → a.blocksOfSize size = []) (other : Nat) :
    a'.blocksOfSize other = (a.blocksOfSize other).erase block := by
  have elsewhere : other ≠ key → (a.blocksOfSize other).erase block = a.blocksOfSize other := by
    intro differ
    apply erase_of_not_mem
    intro also
    exact differ (((holds.sized other block).mp also).2.symm.trans ((holds.sized key block).mp member).2)
  have written : (a.sizeToBorrowBlock.insert key ((a.blocksOfSize key).erase block)).find other =
      if other = key then some ((a.blocksOfSize key).erase block) else a.sizeToBorrowBlock.find other :=
    find_insert ..
  unfold blocksOfSize at elsewhere ⊢
  rw [after]
  split
  next emptied =>
    rw [find_erase,written]
    by_cases asked : other = size
    · subst other
      by_cases same : size = key
      · subst same
        simpa [blocksOfSize] using (isEmpty_iff.mp emptied).symm
      · have blank : (a.sizeToBorrowBlock.find size).getD [] = [] := absent same
        simp [blank]
    · by_cases same : other = key
      · subst same
        simp [asked,blocksOfSize]
      · simp [asked,same,elsewhere same]
  next =>
    rw [written]
    by_cases same : other = key
    · subst same
      simp [blocksOfSize]
    · simp [same,elsewhere same]

theorem Holds.alloc (holds : Holds getSize getBirthStreamId a pooled)
    (served : a.alloc order getBirthStreamId size = some (some block,a')) :
    Holds getSize getBirthStreamId a' (pooled \ {block}) := by
  obtain ⟨key,bound,member,after⟩ := alloc_some served
  have absent : size ≠ key → a.blocksOfSize size = [] := by
    intro differ
    obtain ⟨_,above,least⟩ := lowerBound_eq_some bound
    have missing : a.sizeToBorrowBlock.find size = none := by
      by_contra present
      have lower := least size le_rfl (isSome_iff_ne_none.mpr present)
      exact differ (le_antisymm above lower)
    simp [blocksOfSize,missing]
  have sizeIndex := blocksOfSize_alloc holds member (congrArg sizeToBorrowBlock after) absent
  have streamIndex : ∀ stream, a'.streamToBorrowBlock stream = (a.streamToBorrowBlock stream).erase block := by
    intro stream
    rw [after]
    by_cases same : stream = getBirthStreamId block
    · subst stream
      simp
    · have outside : block ∉ a.streamToBorrowBlock stream := by
        intro also
        exact same ((holds.streamed stream block).mp also).2.symm
      simp [same,erase_of_not_mem outside]
  constructor
  · intro other candidate
    rw [sizeIndex,(holds.sizedOnce other).mem_erase_iff,holds.sized,Set.mem_sdiff,Set.mem_singleton_iff]
    tauto
  · intro stream candidate
    rw [streamIndex,(holds.streamedOnce stream).mem_erase_iff,holds.streamed,Set.mem_sdiff,Set.mem_singleton_iff]
    tauto
  · intro other
    rw [sizeIndex]
    exact (holds.sizedOnce other).erase block
  · intro stream
    rw [streamIndex]
    exact (holds.streamedOnce stream).erase block

private theorem blocksOfSize_unindex (index : OrdMap Nat (List β)) (block : β) (key : Nat) :
    ((unindex getSize index block).find key).getD [] =
      if key = getSize block then ((index.find key).getD []).erase block else (index.find key).getD [] := by
  unfold unindex
  split
  next absent =>
    split
    next same => simp [same,absent]
    next => rfl
  next blocks present =>
    split
    next emptied =>
      rw [find_erase]
      split
      next same => simpa [same,present] using (isEmpty_iff.mp emptied).symm
      next => rfl
    next =>
      rw [find_insert]
      split
      next same => simp [same,present]
      next => rfl

private theorem unindex_filled (filled : ∀ key, index.find key ≠ some [])
    (block : β) (key : Nat) : (unindex getSize index block).find key ≠ some [] := by
  unfold unindex
  split
  next => exact filled key
  next blocks present =>
    split
    next =>
      rw [find_erase]
      split
      · simp
      · exact filled key
    next remain =>
      rw [find_insert]
      split
      · intro blank
        exact remain (isEmpty_iff.mpr (some.inj blank))
      · exact filled key

private theorem foldl_unindex_filled (filled : ∀ key, index.find key ≠ some [])
    (targets : List β) (key : Nat) : (targets.foldl (unindex getSize) index).find key ≠ some [] := by
  induction targets generalizing index with
  | nil => exact filled key
  | cons block targets ih => exact ih (unindex_filled filled block)

private theorem foldl_unindex (targets : List β) (index : OrdMap Nat (List β))
    (once : ∀ key, ((index.find key).getD []).Nodup)
    (sized : ∀ key, ∀ block ∈ (index.find key).getD [], getSize block = key) :
    (∀ key, (((targets.foldl (unindex getSize) index).find key).getD []).Nodup) ∧
      ∀ key block, block ∈ ((targets.foldl (unindex getSize) index).find key).getD [] ↔
        block ∈ (index.find key).getD [] ∧ block ∉ targets := by
  induction targets generalizing index with
  | nil => simpa using once
  | cons block targets ih =>
    have kept : ∀ key other, other ∈ ((unindex getSize index block).find key).getD [] ↔
        other ∈ (index.find key).getD [] ∧ other ≠ block := by
      intro key other
      rw [blocksOfSize_unindex]
      split
      next => rw [(once key).mem_erase_iff,and_comm]
      next differ =>
        refine ⟨fun member => ⟨member,?_⟩,And.left⟩
        rintro rfl
        exact differ (sized key other member).symm
    have onceAfter : ∀ key, (((unindex getSize index block).find key).getD []).Nodup := by
      intro key
      rw [blocksOfSize_unindex]
      split
      · exact (once key).erase block
      · exact once key
    obtain ⟨nodup,members⟩ := ih (unindex getSize index block) onceAfter
      (fun key other member => sized key other ((kept key other).mp member).1)
    refine ⟨nodup,?_⟩
    intro key other
    rw [foldl_cons,members,kept,mem_cons,not_or,and_assoc]

section

variable (holds : Holds getSize getBirthStreamId a pooled)
include holds

variable (stream : κ)

theorem Holds.getAndClearBorrowBlocks : Holds getSize getBirthStreamId (a.getAndClearBorrowBlocks order getSize stream).2
      {block ∈ pooled | getBirthStreamId block ≠ stream} := by
  obtain ⟨nodup,members⟩ := foldl_unindex (order.iterate (a.streamToBorrowBlock stream)) a.sizeToBorrowBlock
    holds.sizedOnce (fun key block member => ((holds.sized key block).mp member).2)
  constructor
  · intro key block
    have before := holds.sized key block
    have target := holds.streamed stream block
    simp only [blocksOfSize,BorrowAllocator.getAndClearBorrowBlocks] at before ⊢
    rw [members,before,order.mem_iterate,target,Set.mem_ofPred_eq]
    tauto
  · intro other block
    simp only [BorrowAllocator.getAndClearBorrowBlocks,update_apply]
    split
    next same =>
      subst other
      simp
    next differ =>
      rw [holds.streamed,Set.mem_ofPred_eq]
      constructor
      · rintro ⟨member,rfl⟩
        exact ⟨⟨member,differ⟩,rfl⟩
      · exact fun both => ⟨both.1.1,both.2⟩
  · exact nodup
  · intro other
    simp only [BorrowAllocator.getAndClearBorrowBlocks,update_apply]
    split
    · exact nodup_nil
    · exact holds.streamedOnce other

theorem Holds.mem_cleared (block : β) :
    block ∈ (a.getAndClearBorrowBlocks order getSize stream).1 ↔ block ∈ pooled ∧ getBirthStreamId block = stream := by
  rw [← holds.streamed]
  exact order.mem_iterate ..

theorem Holds.cleared_nodup : (a.getAndClearBorrowBlocks order getSize stream).1.Nodup :=
  (order.perm _).nodup_iff.mpr (holds.streamedOnce stream)

end

theorem KeysFilled.getAndClearBorrowBlocks (filled : a.KeysFilled) (stream : κ) :
    (a.getAndClearBorrowBlocks order getSize stream).2.KeysFilled :=
  foldl_unindex_filled filled _

end Spec
end BorrowAllocator
end GraphEngine.Memory

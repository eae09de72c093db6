import GraphEngine.Memory.Ownership

/-! The ownership invariant across the operations that open a block, pass it between streams and
let it go. Each lemma also says what the operation did, for the invariants built on top. -/
namespace GraphEngine.Memory
open GraphEngine.Lib Function List BorrowAllocator Heap MultiStreamMemBlock

variable {n : Nat} {ε : Type}

/-- What an allocation does: the opened block, if any, is in use by the stream alone, and nothing
else moves in or out of use. -/
structure Opened (h h' : Heap n ε) (place place' : BlockId n → Place n ε) (stream : Fin n)
    (opened : Option (BlockId n)) : Prop where
  lists : ∀ at_, (h'.allocators at_).localRecycleBlocks = (h.allocators at_).localRecycleBlocks
  kept : ∀ id, opened ≠ some id → h'.blocks id = h.blocks id ∧ (place' id = .inUse ↔ place id = .inUse)
  unused : ∀ id, opened = some id → place id ≠ .inUse ∧ place' id = .inUse
  version : ∀ id, h'.getVersion id = h.getVersion id
  marks : ∀ id, opened = some id → ∀ row other, (h'.blocks id).Marks row other ↔ other = stream
  trace : h'.trace = h.trace ∨ ∃ id, h'.trace = ⟨stream,.acquire (h.versionBlock id)⟩ :: h.trace ∨
    h'.trace = ⟨stream,.borrow (h.versionBlock id)⟩ :: h.trace

namespace Owned
variable {setup : Setup n ε} {h : Heap n ε} {f : Flight n ε} {place : BlockId n → Place n ε}
  {extendSize : Nat} {stream : Fin n} {id : BlockId n} {h' : Heap n ε} {size : Nat}
  {order : IterationOrder (BlockId n)}

abbrev Extension (p : MultiStreamMemBlockPool n) (extendSize : Nat) (stream : Fin n) (id : BlockId n) : Prop :=
  id.pool = stream ∧ p.constructed ≤ id.index ∧ id.index < p.constructed + extendSize

theorem mem_extend {p : MultiStreamMemBlockPool n} :
    id ∈ (p.extend extendSize stream).free ↔ Extension p extendSize stream id ∨ id ∈ p.free := by
  simp only [MultiStreamMemBlockPool.extend,mem_append,mem_reverse,mem_map,mem_range]
  refine or_congr_left ⟨?_,?_⟩
  · rintro ⟨i,small,rfl⟩
    exact ⟨rfl,Nat.le_add_right ..,Nat.add_lt_add_left small _⟩
  · rintro ⟨rfl,low,high⟩
    refine ⟨id.index - p.constructed,by omega,?_⟩
    rw [Nat.add_sub_cancel' low]

abbrev withPool (h : Heap n ε) (stream : Fin n) (pool : MultiStreamMemBlockPool n) : Heap n ε :=
  h.setAllocator stream {h.allocators stream with msBlockPool := pool}

theorem withPool_lent (pool : MultiStreamMemBlockPool n) (at_ : Fin n) :
    ((withPool h stream pool).allocators at_).borrowAllocator = (h.allocators at_).borrowAllocator :=
  setAllocator_field (·.borrowAllocator) h stream (a := {h.allocators stream with msBlockPool := pool}) rfl at_

theorem withPool_lists (pool : MultiStreamMemBlockPool n) (at_ : Fin n) :
    ((withPool h stream pool).allocators at_).localRecycleBlocks = (h.allocators at_).localRecycleBlocks :=
  setAllocator_field (·.localRecycleBlocks) h stream (a := {h.allocators stream with msBlockPool := pool}) rfl at_

variable (owned : Owned setup h f place)
include owned

theorem extend (extendSize : Nat) (stream : Fin n) :
    Owned setup (withPool h stream ((h.allocators stream).msBlockPool.extend extendSize stream)) f
      (fun id => if Extension (h.allocators stream).msBlockPool extendSize stream id then .returned else place id) := by
  have wasFresh : ∀ id, Extension (h.allocators stream).msBlockPool extendSize stream id → place id = .fresh := by
    rintro id ⟨rfl,low,-⟩
    exact (owned.fresh id).mpr low
  have elsewhere : ∀ {id seen}, seen ≠ Place.fresh → seen ≠ .returned →
      ((if Extension (h.allocators stream).msBlockPool extendSize stream id then .returned else place id) = seen ↔
        place id = seen) := by
    intro id seen old new
    split
    next inside => exact iff_of_false (Ne.symm new) (wasFresh id inside ▸ Ne.symm old)
    next => rfl
  constructor
  case fresh =>
    intro id
    have before := owned.fresh id
    by_cases here : id.pool = stream
    · subst here
      simp only [setAllocator_allocators,update_self,MultiStreamMemBlockPool.extend]
      split <;> grind
    · simpa [Extension,here] using before
  case returned =>
    intro at_ id
    have before := owned.returned at_ id
    by_cases here : at_ = stream
    · subst here
      simp only [setAllocator_allocators,update_self,mem_extend]
      split <;> grind
    · simp only [setAllocator_allocators,update_of_ne here]
      split <;> grind
  case returnedOnce =>
    intro at_
    by_cases here : at_ = stream
    · subst here
      simp only [setAllocator_allocators,update_self,MultiStreamMemBlockPool.extend]
      rw [nodup_append]
      refine ⟨?_,owned.returnedOnce at_,?_⟩
      · rw [nodup_reverse]
        apply List.Nodup.map _ nodup_range
        intro i j same
        simpa using same
      · rintro id inside other outside rfl
        have fresh : place id = .fresh := by
          apply (owned.fresh id).mpr
          simp only [mem_reverse,mem_map] at inside
          obtain ⟨i,-,rfl⟩ := inside
          simp
        have back := ((owned.returned at_ id).mp outside).2
        rw [fresh] at back
        cases back
    · simpa [here] using owned.returnedOnce at_
  case borrowed =>
    intro at_
    rw [withPool_lent]
    simp only [elsewhere (show Place.borrowed at_ ≠ .fresh by simp) (show Place.borrowed at_ ≠ .returned by simp)]
    exact owned.borrowed at_
  case migrating =>
    intro carrier id
    rw [owned.migrating,elsewhere (by simp) (by simp)]
  case migratingOnce => exact owned.migratingOnce
  case homeward =>
    intro event id away
    exact owned.homeward event id ((elsewhere (by simp) (by simp)).mp away)
  case state =>
    intro id
    split
    next inside =>
      have before := owned.state id
      rw [wasFresh id inside] at before
      exact before
    next => exact owned.state id
  case entries =>
    intro at_ entry member
    rw [withPool_lists] at member
    obtain ⟨older,current⟩ := owned.entries at_ entry member
    exact ⟨older,fun same => (elsewhere (by simp) (by simp)).mpr (current same)⟩
  case news =>
    intro event news member
    obtain ⟨older,current⟩ := owned.news event news member
    exact ⟨older,fun same => (elsewhere (by simp) (by simp)).mpr (current same)⟩
  case honest => exact owned.honest
  case acquired =>
    intro id
    rw [setAllocator_trace,owned.acquired id]
    split
    next inside => simp [wasFresh id inside]
    next => rfl

theorem open_ (few : n ≤ 63) (id : BlockId n) (block : MultiStreamMemBlock n)
    (stream : Fin n) (unlent : ∀ carrier, place id ≠ .migrating carrier) (known : place id ≠ .fresh)
    (idle : place id ≠ .inUse) (memory : block.memBlock ≠ none) (birth : block.birthAllocator = some id.pool)
    (version : block.version = h.getVersion id)
    (blocks : h'.blocks = update h.blocks id (block.reInitMifs.newAccessStream stream))
    (constructed : ∀ at_, (h'.allocators at_).msBlockPool.constructed = (h.allocators at_).msBlockPool.constructed)
    (lists : ∀ at_, (h'.allocators at_).localRecycleBlocks = (h.allocators at_).localRecycleBlocks)
    (free : ∀ at_ other, other ∈ (h'.allocators at_).msBlockPool.free ↔
      other ∈ (h.allocators at_).msBlockPool.free ∧ other ≠ id) (freeOnce : ∀ at_, (h'.allocators at_).msBlockPool.free.Nodup)
    (lent : ∀ at_, (h'.allocators at_).borrowAllocator.Holds h.getSize h.getBirthStreamId
      ({other | place other = .borrowed at_} \ {id}))
    (trace : place id = .returned ∧ h'.trace = ⟨stream,.acquire (h.versionBlock id)⟩ :: h.trace ∨
      place id ≠ .returned ∧ h'.trace = ⟨stream,.borrow (h.versionBlock id)⟩ :: h.trace) :
    Owned setup h' f (update place id .inUse) ∧ Opened h h' place (update place id .inUse) stream (some id) := by
  constructor
  · apply owned.moved known (by simp) (by simp) blocks
    case state =>
      refine ⟨memory,birth,reInitMifs_disciplined.newAccessStream few stream,fun row => ⟨stream,?_⟩⟩
      exact (marks_newAccessStream few ..).mpr (.inr rfl)
    case version => exact .inl ⟨version,rfl⟩
    case constructed => exact constructed
    case lists => exact lists
    case free =>
      intro at_ other
      rw [free]
      split <;> simp_all
    case freeOnce => exact freeOnce
    case lent =>
      intro at_
      have pooled : {other | update place id .inUse other = .borrowed at_} =
          {other | place other = .borrowed at_} \ {id} := by
        ext other
        by_cases here : other = id
        · subst here; simp
        · simp [here]
      rw [pooled]
      apply (lent at_).congr
      · intro other there
        have away : other ≠ id := there.2
        simp [Heap.getSize,blocks,away]
      · intro other there
        have away : other ≠ id := there.2
        simp [Heap.getBirthStreamId,blocks,away]
    case news => rfl
    case left =>
      intro carrier other
      rw [owned.migrating]
      exact ⟨fun away => ⟨away,by rintro rfl; exact unlent carrier away⟩,And.left⟩
    case leftOnce => exact owned.migratingOnce
    case honest =>
      rcases trace with ⟨back,logged⟩ | ⟨-,logged⟩
      · have closed := (owned.acquired id).not.mpr (by simp [back])
        rw [logged]
        exact ⟨owned.honest,by simpa [Heap.versionBlock] using closed⟩
      · rw [logged]
        exact ⟨owned.honest,trivial⟩
    case acquired =>
      intro other
      have before := owned.acquired id
      rcases trace with ⟨back,logged⟩ | ⟨out,logged⟩ <;>
        simp only [logged,outstanding,Heap.versionBlock] <;> grind
  · constructor
    case lists => exact lists
    case kept =>
      intro other different
      have away : other ≠ id := by rintro rfl; exact different rfl
      simp [blocks,away]
    case unused =>
      rintro other same
      cases same
      simp [idle]
    case version =>
      intro other
      by_cases here : other = id
      · subst here
        rw [Heap.getVersion,blocks,update_self]
        exact version
      · simp [Heap.getVersion,blocks,here]
    case marks =>
      rintro other same row stream'
      cases same
      rw [blocks,update_self,marks_newAccessStream few]
      exact or_iff_right (not_marks_reInitMifs _ _)
    case trace => exact .inr ⟨id,trace.imp And.right And.right⟩

theorem reInit (few : n ≤ 63)
    {rest : List (BlockId n)} (top : (h.allocators stream).msBlockPool.free = id :: rest) (size : Nat) :
    ∃ h', h' = ((withPool h stream {(h.allocators stream).msBlockPool with free := rest}).setBlock id
        ((h.blocks id).reInit stream size).2).log stream (.acquire (h.versionBlock id)) ∧
      ((h.blocks id).reInit stream size).1 = .success ∧ Owned setup h' f (update place id .inUse) ∧
      Opened h h' place (update place id .inUse) stream (some id) := by
  obtain ⟨home,back⟩ := (owned.returned stream id).mp (top ▸ mem_cons_self)
  have state := owned.state id
  rw [back] at state
  have done : (h.blocks id).reInit stream size = (.success,
      ({h.blocks id with memBlock := some size, birthAllocator := some stream} :
        MultiStreamMemBlock n).reInitMifs.newAccessStream stream) := by
    simp [MultiStreamMemBlock.reInit,state.1]
  have once := owned.returnedOnce stream
  rw [top,nodup_cons] at once
  refine ⟨_,rfl,by rw [done],?_⟩
  apply owned.open_ few id {h.blocks id with memBlock := some size, birthAllocator := some stream} stream
  case unlent => simp [back]
  case known => simp [back]
  case idle => simp [back]
  case memory => simp
  case birth => simp [home]
  case version => rfl
  case blocks => simp [done]
  case constructed => exact setAllocator_field (·.msBlockPool.constructed) h stream rfl
  case lists => exact setAllocator_field (·.localRecycleBlocks) h stream rfl
  case free =>
    intro at_ other
    by_cases here : at_ = stream
    · subst here
      simp only [log_allocators,setBlock_allocators,setAllocator_allocators,update_self,top,
        mem_cons]
      grind
    · have absent : id ∉ (h.allocators at_).msBlockPool.free := by
        rw [owned.returned,home]
        exact fun both => here both.1.symm
      simp only [log_allocators,setBlock_allocators,setAllocator_allocators,
        update_of_ne here]
      grind
  case freeOnce =>
    intro at_
    by_cases here : at_ = stream
    · subst here; simpa using once.2
    · simpa [here] using owned.returnedOnce at_
  case lent =>
    intro at_
    have outside : {other | place other = .borrowed at_} \ {id} = {other | place other = .borrowed at_} := by
      apply Set.sdiff_singleton_eq_self
      simp [back]
    rw [outside]
    exact (withPool_lent ..).symm ▸ owned.borrowed at_
  case trace => exact .inl ⟨back,rfl⟩

theorem ready (extendSize : Nat) (stream : Fin n) :
    ∃ place', Owned setup (withPool h stream ((h.allocators stream).msBlockPool.ready extendSize stream)) f place' ∧
      ∀ id, place' id = .inUse ↔ place id = .inUse := by
  unfold MultiStreamMemBlockPool.ready
  split
  next =>
    refine ⟨_,owned.extend extendSize stream,?_⟩
    intro id
    split
    next inside =>
      obtain ⟨rfl,low,-⟩ := inside
      simp [(owned.fresh id).mpr low]
    next => rfl
  next =>
    have same : withPool h stream (h.allocators stream).msBlockPool = h := by
      simp [setAllocator]
    exact ⟨place,same.symm ▸ owned,fun _ => Iff.rfl⟩

theorem acquire (few : n ≤ 63) (extendSize : Nat) (stream : Fin n) (size : Nat) :
    ∃ place', Owned setup (h.acquire extendSize stream size).2 f place' ∧
      Opened h (h.acquire extendSize stream size).2 place place' stream (h.acquire extendSize stream size).1 := by
  obtain ⟨place₁,owned₁,use₁⟩ := owned.ready extendSize stream
  cases top : ((h.allocators stream).msBlockPool.ready extendSize stream).free with
  | nil =>
    have refused : h.acquire extendSize stream size =
        (none,withPool h stream ((h.allocators stream).msBlockPool.ready extendSize stream)) := by
      simp [Heap.acquire,top]
    rw [refused]
    refine ⟨place₁,owned₁,withPool_lists _,?_,?_,?_,?_,.inl rfl⟩
    · exact fun id _ => ⟨rfl,use₁ id⟩
    · simp
    · exact fun _ => rfl
    · simp
  | cons id rest =>
    have first : ((withPool h stream ((h.allocators stream).msBlockPool.ready extendSize stream)).allocators
        stream).msBlockPool.free = id :: rest := by simpa using top
    obtain ⟨h',written,done,owned',opened⟩ := owned₁.reInit few first size
    have served : h.acquire extendSize stream size = (some id,h') := by
      rw [setAllocator_blocks] at done written
      rw [written]
      cases born : (h.blocks id).reInit stream size with
      | mk status block =>
        rw [born] at done
        cases done
        simp [Heap.acquire,top,born,Heap.setAllocator,Heap.setBlock,Heap.log,Heap.versionBlock,Heap.getVersion]
    rw [served]
    refine ⟨_,owned',?_,?_,?_,opened.version,opened.marks,opened.trace⟩
    · intro at_
      rw [opened.lists,withPool_lists]
    · intro other different
      obtain ⟨blocks,use⟩ := opened.kept other different
      exact ⟨blocks,use.trans (use₁ other)⟩
    · intro other here
      obtain ⟨idle,used⟩ := opened.unused other here
      exact ⟨fun before => idle ((use₁ other).mpr before),used⟩

theorem borrow (few : n ≤ 63) {pool : BorrowAllocator (BlockId n) (Option (Fin n))}
    (served : (h.allocators stream).borrowAllocator.alloc order h.getBirthStreamId size = some (some id,pool)) :
    ∃ h', h' = ((h.setAllocator stream {h.allocators stream with borrowAllocator := pool}).setBlock id
        ((h.blocks id).newAccessStream stream)).log stream (.borrow (h.versionBlock id)) ∧
      Owned setup h' f (update place id .inUse) ∧
      Opened h h' place (update place id .inUse) stream (some id) := by
  have lent : place id = .borrowed stream := by
    obtain ⟨key,-,inside,-⟩ := alloc_some served
    exact (((owned.borrowed stream).sized key id).mp inside).1
  have state := owned.state id
  rw [lent] at state
  obtain ⟨memory,birth,blank,unheld⟩ := state
  have clean : (h.blocks id).reInitMifs = h.blocks id := by
    have counts : (h.blocks id).streamIdsToOccupyCount = fun _ => 0 := funext unheld
    rw [reInitMifs,← blank,← counts]
  have free := setAllocator_field (·.msBlockPool.free) h stream (a := {h.allocators stream with borrowAllocator := pool}) rfl
  refine ⟨_,rfl,?_⟩
  apply owned.open_ few id (h.blocks id) stream
  case unlent => simp [lent]
  case known => simp [lent]
  case idle => simp [lent]
  case memory => exact memory
  case birth => exact birth
  case version => rfl
  case blocks => simp [clean]
  case constructed => exact setAllocator_field (·.msBlockPool.constructed) h stream rfl
  case lists => exact setAllocator_field (·.localRecycleBlocks) h stream rfl
  case free =>
    intro at_ other
    have absent : id ∉ (h.allocators at_).msBlockPool.free := by
      rw [owned.returned,lent]
      simp
    simp only [log_allocators,setBlock_allocators,setAllocator_allocators,free]
    grind
  case freeOnce => exact fun at_ => (free at_).symm ▸ owned.returnedOnce at_
  case lent =>
    intro at_
    by_cases here : at_ = stream
    · subst here
      simpa using (owned.borrowed at_).alloc served
    · have outside : {other | place other = .borrowed at_} \ {id} = {other | place other = .borrowed at_} := by
        apply Set.sdiff_singleton_eq_self
        simpa [lent] using Ne.symm here
      rw [outside]
      simpa [here] using owned.borrowed at_
  case trace => exact .inr ⟨by simp [lent],rfl⟩

theorem malloc (few : n ≤ 63) {own : Option Nat} {opened : Option (BlockId n)}
    (done : h.malloc order extendSize stream size own = some (opened,h')) :
    ∃ place', Owned setup h' f place' ∧ Opened h h' place place' stream opened := by
  cases own with
  | some block =>
    obtain ⟨place',owned',effect⟩ := owned.acquire few extendSize stream block
    simp only [Heap.malloc,Option.some.injEq] at done
    rw [done] at owned' effect
    exact ⟨place',owned',effect⟩
  | none =>
    cases asked : (h.allocators stream).borrowAllocator.alloc order h.getBirthStreamId size with
    | none => simp [Heap.malloc,asked] at done
    | some reply =>
      obtain ⟨block,pool⟩ := reply
      cases block with
      | none =>
        obtain ⟨-,rfl⟩ := alloc_none asked
        have same : h.setAllocator stream (h.allocators stream) = h := by simp [Heap.setAllocator]
        simp only [Heap.malloc,asked,same,Option.some.injEq,Prod.mk.injEq] at done
        obtain ⟨rfl,rfl⟩ := done
        exact ⟨place,owned,fun _ => rfl,fun _ _ => ⟨rfl,Iff.rfl⟩,by simp,fun _ => rfl,by simp,.inl rfl⟩
      | some id =>
        obtain ⟨h'',written,owned',effect⟩ := owned.borrow few asked
        simp only [Heap.malloc,asked,← written,Option.some.injEq,Prod.mk.injEq] at done
        obtain ⟨rfl,rfl⟩ := done
        exact ⟨_,owned',effect⟩

end Owned
end GraphEngine.Memory

import GraphEngine.Memory.GertEvent

/-! Where every block is: unused, in use, in the borrow pool of a stream, on its way home, or back
in its birth pool. The invariant ties the place of a block to every list it may stand in. -/
namespace GraphEngine.Memory
open GraphEngine.Lib Function Heap

/-- A block on its way home is in the space of an event, or in the hands of the running kernel. -/
inductive Place (n : Nat) (ε : Type) where
  | fresh
  | returned
  | inUse
  | borrowed (stream : Fin n)
  | migrating (carrier : Option ε)
  deriving DecidableEq

structure Flight (n : Nat) (ε : Type) where
  news : ε → List (VersionBlock (BlockId n))
  migrations : Option ε → List (BlockId n)

def System.flight {n : Nat} {ε : Type} (s : System n ε) : Flight n ε where
  news event := (s.spaces event).blockFreeBySrcStream
  migrations
    | none => []
    | some event => (s.spaces event).blockNeedReturnBirth

variable {n : Nat} {ε : Type}

def outstanding (id : BlockId n) : List (Point n ε) → Bool
  | [] => false
  | point :: older =>
    match point.mark with
    | .acquire block => if block.block = id then true else outstanding id older
    | .birthRecycle block _ => if block.block = id then false else outstanding id older
    | _ => outstanding id older

/-- Blocks are recycled only when nobody holds them, and returned only when acquired before. -/
def Honest : List (Point n ε) → Prop
  | [] => True
  | point :: older => Honest older ∧
    match point.mark with
    | .birthRecycle block occupied => (∀ stream, occupied stream = 0) ∧ outstanding block.block older = true
    | .borrowRecycle _ occupied => ∀ stream, occupied stream = 0
    | .acquire block => outstanding block.block older = false
    | _ => True

def BlockState (block : MultiStreamMemBlock n) (pool : Fin n) : Place n ε → Prop
  | .fresh | .returned => block.memBlock = none ∧ ∀ stream, block.getCount stream = 0 ∧ ¬ block.Marks stream stream
  | .inUse => block.memBlock ≠ none ∧ block.birthAllocator = some pool ∧ block.Disciplined ∧
      ∀ row, ∃ stream, block.Marks row stream
  | .borrowed _ | .migrating _ => block.memBlock ≠ none ∧ block.birthAllocator = some pool ∧
      block.occupyMif = Mif.reInit ∧ ∀ stream, block.getCount stream = 0

/-- Recycling news never runs ahead of its block, and is current only while the block is in use. -/
def Timely (h : Heap n ε) (place : BlockId n → Place n ε) (news : VersionBlock (BlockId n)) : Prop :=
  news.version ≤ h.getVersion news.block ∧ (news.version = h.getVersion news.block → place news.block = .inUse)

structure Owned (setup : Setup n ε) (h : Heap n ε) (f : Flight n ε) (place : BlockId n → Place n ε) : Prop where
  fresh : ∀ id, place id = .fresh ↔ (h.allocators id.pool).msBlockPool.constructed ≤ id.index
  returned : ∀ stream id, id ∈ (h.allocators stream).msBlockPool.free ↔ id.pool = stream ∧ place id = .returned
  returnedOnce : ∀ stream, (h.allocators stream).msBlockPool.free.Nodup
  borrowed : ∀ stream, (h.allocators stream).borrowAllocator.Holds h.getSize h.getBirthStreamId
    {id | place id = .borrowed stream}
  migrating : ∀ carrier id, id ∈ f.migrations carrier ↔ place id = .migrating carrier
  migratingOnce : ∀ carrier, (f.migrations carrier).Nodup
  homeward : ∀ event id, place id = .migrating (some event) → id.pool = (setup.info event).logicDstStream
  state : ∀ id, BlockState (h.blocks id) id.pool (place id)
  entries : ∀ stream, ∀ entry ∈ (h.allocators stream).localRecycleBlocks, Timely h place entry.versionBlock
  news : ∀ event, ∀ news ∈ f.news event, Timely h place news
  honest : Honest h.trace
  acquired : ∀ id, outstanding id h.trace = true ↔ place id ≠ .fresh ∧ place id ≠ .returned

namespace Owned
variable {setup : Setup n ε} {h : Heap n ε} {f : Flight n ε} {place : BlockId n → Place n ε}

theorem initial : Owned setup Heap.initial (System.initial : System n ε).flight (fun _ => .fresh) where
  fresh id := by simp [Heap.initial]
  returned stream id := by simp [Heap.initial]
  returnedOnce stream := by simp [Heap.initial]
  borrowed stream := by
    have blank : {id : BlockId n | (Place.fresh : Place n ε) = .borrowed stream} = ∅ := by ext; simp
    rw [blank]
    exact BorrowAllocator.holds_empty
  migrating carrier id := by cases carrier <;> simp [System.flight,System.initial]
  migratingOnce carrier := by cases carrier <;> simp [System.flight,System.initial]
  homeward event id away := by cases away
  state id := ⟨rfl,fun _ => ⟨rfl,by simp [Heap.initial,MultiStreamMemBlock.initial,MultiStreamMemBlock.Marks]⟩⟩
  entries stream entry member := by simp [Heap.initial] at member
  news event news member := by simp [System.flight,System.initial] at member
  honest := trivial
  acquired id := by simp [Heap.initial,outstanding]

def Neutral : Mark n ε → Prop
  | .acquire _ | .birthRecycle _ _ | .borrowRecycle _ _ => False
  | _ => True

theorem log (owned : Owned setup h f place) (stream : Fin n) (mark : Mark n ε) (neutral : Neutral mark) :
    Owned setup (h.log stream mark) f place := by
  refine { owned with honest := ⟨owned.honest,?_⟩, acquired := fun id => ?_ }
  · cases mark <;> trivial
  · rw [← owned.acquired id]
    cases mark <;> first | rfl | exact neutral.elim

structure SameLife (block before : MultiStreamMemBlock n) : Prop where
  memBlock : block.memBlock = before.memBlock
  version : block.version = before.version
  birthAllocator : block.birthAllocator = before.birthAllocator

variable {id : BlockId n} {block : MultiStreamMemBlock n} {after : Place n ε}

theorem timely_setBlock (same : block.version = h.getVersion id)
    (news : VersionBlock (BlockId n)) : Timely (h.setBlock id block) place news ↔ Timely h place news := by
  have version : (h.setBlock id block).getVersion news.block = h.getVersion news.block := by
    simp only [getVersion,setBlock_blocks,update_apply]
    split
    next here => rw [here,same,getVersion]
    next => rfl
  rw [Timely,Timely,version]

theorem same_sizes {h' : Heap n ε} (blocks : h'.blocks = update h.blocks id block)
    (memory : block.memBlock = (h.blocks id).memBlock) (birth : block.birthAllocator = (h.blocks id).birthAllocator) :
    h'.getSize = h.getSize ∧ h'.getBirthStreamId = h.getBirthStreamId := by
  constructor <;> funext other <;> by_cases here : other = id
  · subst here; simp [getSize,MultiStreamMemBlock.getSize,blocks,memory]
  · simp [getSize,blocks,here]
  · subst here; simp [getBirthStreamId,blocks,birth]
  · simp [getBirthStreamId,blocks,here]

section

variable (owned : Owned setup h f place)
include owned

theorem touch (inUse : place id = .inUse) (same : SameLife block (h.blocks id)) (disciplined : block.Disciplined)
    (rows : ∀ row, ∃ stream, block.Marks row stream) : Owned setup (h.setBlock id block) f place := by
  obtain ⟨sizes,births⟩ : (h.setBlock id block).getSize = _ ∧ _ := same_sizes rfl same.memBlock same.birthAllocator
  refine { owned with
    borrowed := by rw [sizes,births]; exact owned.borrowed
    state := fun other => ?_
    entries := fun stream entry member => (timely_setBlock same.version _).mpr (owned.entries stream entry member)
    news := fun event news member => (timely_setBlock same.version _).mpr (owned.news event news member) }
  by_cases here : other = id
  · subst here
    have before := owned.state other
    rw [inUse] at before ⊢
    rw [setBlock_blocks,update_self]
    exact ⟨same.memBlock ▸ before.1,same.birthAllocator ▸ before.2.1,disciplined,rows⟩
  · simpa [here] using owned.state other

theorem keepPools {stream : Fin n} {allocator : MultiStreamL2Allocator n}
    (pool : allocator.msBlockPool = (h.allocators stream).msBlockPool)
    (borrow : allocator.borrowAllocator = (h.allocators stream).borrowAllocator)
    (entries : ∀ entry ∈ allocator.localRecycleBlocks, Timely h place entry.versionBlock) :
    Owned setup (h.setAllocator stream allocator) f place := by
  have pools := setAllocator_field (·.msBlockPool) h stream pool
  have lent := setAllocator_field (·.borrowAllocator) h stream borrow
  refine { owned with
    fresh := by simpa only [setAllocator_allocators,pools] using owned.fresh
    returned := by simpa only [setAllocator_allocators,pools] using owned.returned
    returnedOnce := by simpa only [setAllocator_allocators,pools] using owned.returnedOnce
    borrowed := fun at_ => by rw [setAllocator_allocators,lent]; exact owned.borrowed at_
    entries := fun at_ entry member => ?_ }
  by_cases here : at_ = stream
  · subst here
    rw [setAllocator_allocators,update_self] at member
    exact entries entry member
  · rw [setAllocator_allocators,update_of_ne here] at member
    exact owned.entries at_ entry member

theorem localRecycle (stream : Fin n) (inUse : place id = .inUse) : Owned setup (h.localRecycle stream id) f place := by
  apply owned.keepPools
  case pool => rfl
  case borrow => rfl
  case entries =>
    intro entry member
    rcases List.mem_append.mp member with old | new
    · exact owned.entries stream entry old
    · rw [List.mem_singleton.mp new]
      exact ⟨le_rfl,fun _ => inUse⟩

theorem announce (news' : ε → List (VersionBlock (BlockId n))) (known : ∀ event, ∀ news ∈ news' event, news ∈ f.news event ∨
      ∃ stream, ∃ entry ∈ (h.allocators stream).localRecycleBlocks, entry.versionBlock = news) :
    Owned setup h {f with news := news'} place := by
  refine { owned with news := fun event news member => ?_ }
  rcases known event news member with old | ⟨stream,entry,inside,rfl⟩
  · exact owned.news event news old
  · exact owned.entries stream entry inside

theorem relist (stream : Fin n) (blocks : List (StreamedVersionBlock (BlockId n)))
    (known : ∀ entry ∈ blocks, ∃ old ∈ (h.allocators stream).localRecycleBlocks, old.versionBlock = entry.versionBlock) :
    Owned setup (h.setAllocator stream {h.allocators stream with localRecycleBlocks := blocks}) f place := by
  apply owned.keepPools
  case pool => rfl
  case borrow => rfl
  case entries =>
    intro entry member
    obtain ⟨old,inside,same⟩ := known entry member
    exact same ▸ owned.entries stream old inside

theorem live (id : BlockId n) (known : place id ≠ .fresh) (out : place id ≠ .returned) :
    (h.blocks id).memBlock ≠ none ∧ (h.blocks id).birthAllocator = some id.pool := by
  have state := owned.state id
  cases at_ : place id with
  | fresh => exact absurd at_ known
  | returned => exact absurd at_ out
  | inUse => rw [at_] at state; exact ⟨state.1,state.2.1⟩
  | borrowed => rw [at_] at state; exact ⟨state.1,state.2.1⟩
  | migrating => rw [at_] at state; exact ⟨state.1,state.2.1⟩

end

theorem moved_iff {seen : Place n ε} (left : place id ≠ seen) (entered : after ≠ seen)
    (other : BlockId n) : update place id after other = seen ↔ place other = seen := by
  by_cases here : other = id
  · rw [here,update_self]
    exact iff_of_false entered left
  · rw [update_of_ne here]

/-- One block moves: into use by the stream that opens it, or with its next version to a pool. -/
theorem moved (owned : Owned setup h f place) {h' : Heap n ε} {f' : Flight n ε} (known : place id ≠ .fresh)
    (entered : after ≠ .fresh) (settled : ∀ carrier, after ≠ .migrating carrier)
    (blocks : h'.blocks = update h.blocks id block) (state : BlockState block id.pool after)
    (version : block.version = h.getVersion id ∧ after = .inUse ∨ block.version = h.getVersion id + 1)
    (constructed : ∀ at_, (h'.allocators at_).msBlockPool.constructed = (h.allocators at_).msBlockPool.constructed)
    (lists : ∀ at_, (h'.allocators at_).localRecycleBlocks = (h.allocators at_).localRecycleBlocks)
    (free : ∀ at_ other, other ∈ (h'.allocators at_).msBlockPool.free ↔
      if other = id then id.pool = at_ ∧ after = .returned else other ∈ (h.allocators at_).msBlockPool.free)
    (freeOnce : ∀ at_, (h'.allocators at_).msBlockPool.free.Nodup)
    (lent : ∀ at_, (h'.allocators at_).borrowAllocator.Holds h'.getSize h'.getBirthStreamId
      {other | update place id after other = .borrowed at_}) (news : f'.news = f.news)
    (left : ∀ carrier other, other ∈ f'.migrations carrier ↔ other ∈ f.migrations carrier ∧ other ≠ id)
    (leftOnce : ∀ carrier, (f'.migrations carrier).Nodup) (honest : Honest h'.trace)
    (acquired : ∀ other, outstanding other h'.trace = true ↔
      if other = id then after ≠ .returned else outstanding other h.trace = true) :
    Owned setup h' f' (update place id after) := by
  have timely : ∀ entry, Timely h place entry → Timely h' (update place id after) entry := by
    intro entry timely
    unfold Timely getVersion at *
    rw [blocks]
    by_cases here : entry.block = id
    · rw [here] at timely ⊢
      simp only [update_self]
      rcases version with ⟨same,rfl⟩ | newer
      · exact ⟨same ▸ timely.1,fun _ => rfl⟩
      · omega
    · simpa [here] using timely
  constructor
  case fresh =>
    intro other
    rw [constructed,moved_iff known entered,owned.fresh]
  case returned =>
    intro at_ other
    rw [free]
    by_cases here : other = id
    · subst here; simp
    · simpa [here] using owned.returned at_ other
  case returnedOnce => exact freeOnce
  case borrowed => exact lent
  case migrating =>
    intro carrier other
    rw [left,owned.migrating]
    by_cases here : other = id
    · subst here; simp [settled]
    · simp [here]
  case migratingOnce => exact leftOnce
  case homeward =>
    intro event other away
    by_cases here : other = id
    · rw [here,update_self] at away
      exact absurd away (settled _)
    · rw [update_of_ne here] at away
      exact owned.homeward event other away
  case state =>
    intro other
    rw [blocks]
    by_cases here : other = id
    · subst here; simpa using state
    · simpa [here] using owned.state other
  case entries =>
    intro at_ entry member
    rw [lists] at member
    exact timely _ (owned.entries at_ entry member)
  case news =>
    intro event entry member
    rw [news] at member
    exact timely _ (owned.news event entry member)
  case honest => exact honest
  case acquired =>
    intro other
    rw [acquired]
    by_cases here : other = id
    · subst here; simp [entered]
    · simpa [here] using owned.acquired other

section Recycle
variable {id : BlockId n} {block : MultiStreamMemBlock n} (owned : Owned setup h f place)
include owned

theorem birthRecycle_eq (known : place id ≠ .fresh) (out : place id ≠ .returned) (same : SameLife block (h.blocks id)) :
    (h.setBlock id block).birthRecycle id.pool id = (.success,((h.setBlock id block).release id.pool id).log id.pool
      (.birthRecycle (h.versionBlock id) block.streamIdsToOccupyCount)) := by
  obtain ⟨memory,birth⟩ := owned.live id known out
  have memory' : block.memBlock ≠ none := same.memBlock ▸ memory
  have birth' : block.birthAllocator = some id.pool := same.birthAllocator ▸ birth
  simp [birthRecycle,getBirthStreamId,versionBlock,getVersion,memory',birth',same.version]

theorem birthRecycle (known : place id ≠ .fresh) (out : place id ≠ .returned)
    (unlent : ∀ stream, place id ≠ .borrowed stream) (same : SameLife block (h.blocks id))
    (unheld : ∀ stream, block.getCount stream = 0 ∧ ¬ block.Marks stream stream) (migrations : Option ε → List (BlockId n))
    (left : ∀ carrier other, other ∈ migrations carrier ↔ other ∈ f.migrations carrier ∧ other ≠ id)
    (leftOnce : ∀ carrier, (migrations carrier).Nodup) :
    Owned setup ((h.setBlock id block).birthRecycle id.pool id).2 {f with migrations := migrations}
      (update place id .returned) := by
  rw [owned.birthRecycle_eq known out same]
  have blocks : ((h.setBlock id block).release id.pool id).blocks =
      update h.blocks id block.plusVersion.clearMemBlock := by
    simp [release]
  apply owned.moved known
  case entered => simp
  case settled => simp
  case blocks => exact blocks
  case state => exact ⟨rfl,unheld⟩
  case version => exact .inr (congrArg (· + 1) same.version)
  case constructed => exact setAllocator_field (·.msBlockPool.constructed) h id.pool rfl
  case lists => exact setAllocator_field (·.localRecycleBlocks) h id.pool rfl
  case free =>
    intro stream other
    by_cases pool : stream = id.pool
    · subst pool
      by_cases here : other = id
      · subst here; simp [release]
      · simp [release,here]
    · have before := owned.returned stream other
      by_cases here : other = id
      · subst here
        simpa [release,pool,Ne.symm pool] using before
      · simp [release,pool,here]
  case freeOnce =>
    intro stream
    by_cases pool : stream = id.pool
    · subst pool
      have absent : id ∉ (h.allocators id.pool).msBlockPool.free := by
        rw [owned.returned]
        exact fun both => out both.2
      simpa [release] using ⟨absent,owned.returnedOnce id.pool⟩
    · simpa [release,pool] using owned.returnedOnce stream
  case lent =>
    intro stream
    have away : ∀ {other}, place other = .borrowed stream → other ≠ id := by
      rintro other there rfl
      exact unlent stream there
    simp only [moved_iff (unlent stream) (show Place.returned ≠ .borrowed stream by simp)]
    have lent : ∀ at_, (((h.setBlock id block).release id.pool id).allocators at_).borrowAllocator =
        (h.allocators at_).borrowAllocator := setAllocator_field (·.borrowAllocator) h id.pool rfl
    rw [log_allocators,lent]
    apply (owned.borrowed stream).congr
    · intro other there
      simp [release,getSize,away there]
    · intro other there
      simp [release,getBirthStreamId,away there]
  case news => rfl
  case left => exact left
  case leftOnce => exact leftOnce
  case honest =>
    exact ⟨owned.honest,fun stream => (unheld stream).1,(owned.acquired id).mpr ⟨known,out⟩⟩
  case acquired =>
    intro other
    by_cases here : other = id
    · subst here
      simp [outstanding,versionBlock]
    · simp [outstanding,versionBlock,here,Ne.symm here,release]

theorem borrowRecycle (inUse : place id = .inUse)
    (same : SameLife block (h.blocks id)) (unheld : ∀ stream, block.getCount stream = 0) (at_ : Fin n) :
    Owned setup ((h.setBlock id block).borrowRecycle at_ id) f (update place id (.borrowed at_)) := by
  obtain ⟨memory,birth⟩ := owned.live id (by simp [inUse]) (by simp [inUse])
  have version : (h.setBlock id block).versionBlock id = h.versionBlock id := by
    simp [Heap.versionBlock,Heap.getVersion,same.version]
  have pools : ∀ stream, (((h.setBlock id block).borrowRecycle at_ id).allocators stream).msBlockPool =
      (h.allocators stream).msBlockPool := setAllocator_field (·.msBlockPool) h at_ rfl
  have blocks : ((h.setBlock id block).borrowRecycle at_ id).blocks =
      update h.blocks id block.plusVersion.reInitMifs := by
    simp [Heap.borrowRecycle]
  have trace : ((h.setBlock id block).borrowRecycle at_ id).trace =
      ⟨at_,.borrowRecycle (h.versionBlock id) block.streamIdsToOccupyCount⟩ :: h.trace := by
    simp [Heap.borrowRecycle,version]
  apply owned.moved
  case known => simp [inUse]
  case entered => simp
  case settled => simp
  case blocks => exact blocks
  case state => exact ⟨same.memBlock ▸ memory,same.birthAllocator ▸ birth,rfl,fun _ => rfl⟩
  case version => exact .inr (congrArg (· + 1) same.version)
  case constructed => simp only [pools,implies_true]
  case lists => exact setAllocator_field (·.localRecycleBlocks) h at_ rfl
  case free =>
    intro stream other
    rw [pools]
    by_cases here : other = id
    · subst here; simp [owned.returned,inUse]
    · simp [here]
  case freeOnce => simpa only [pools] using owned.returnedOnce
  case lent =>
    intro stream
    obtain ⟨sizes,births⟩ := same_sizes blocks same.memBlock same.birthAllocator
    obtain ⟨sizes',births'⟩ : (h.setBlock id block).getSize = _ ∧ _ :=
      same_sizes rfl same.memBlock same.birthAllocator
    rw [sizes,births]
    by_cases there : stream = at_
    · subst there
      have pooled : {other | update place id (.borrowed stream) other = .borrowed stream} =
          insert id {other | place other = .borrowed stream} := by
        ext other
        by_cases here : other = id
        · subst here; simp
        · simp [here]
      have filed : (((h.setBlock id block).borrowRecycle stream id).allocators stream).borrowAllocator =
          (h.allocators stream).borrowAllocator.free h.getSize h.getBirthStreamId id := by
        simp [Heap.borrowRecycle,sizes',births']
      rw [pooled,filed]
      exact (owned.borrowed stream).free id
    · have kept : (((h.setBlock id block).borrowRecycle at_ id).allocators stream).borrowAllocator =
          (h.allocators stream).borrowAllocator := by
        simp [Heap.borrowRecycle,there]
      have elsewhere : (.borrowed at_ : Place n ε) ≠ .borrowed stream := by simpa using Ne.symm there
      simp only [moved_iff (show place id ≠ .borrowed stream by simp [inUse]) elsewhere]
      rw [kept]
      exact owned.borrowed stream
  case news => rfl
  case left =>
    intro carrier other
    rw [owned.migrating]
    exact ⟨fun away => ⟨away,by rintro rfl; simp [inUse] at away⟩,And.left⟩
  case leftOnce => exact owned.migratingOnce
  case honest =>
    rw [trace]
    exact ⟨owned.honest,unheld⟩
  case acquired =>
    intro other
    rw [trace]
    change outstanding other h.trace = true ↔ _
    by_cases here : other = id
    · subst here; simp [owned.acquired,inUse]
    · simp [here]

end Recycle

end Owned
end GraphEngine.Memory

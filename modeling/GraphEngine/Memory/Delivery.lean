import GraphEngine.Memory.OwnershipSteps

/-! News of a local recycle is never lost: as long as a stream still believes that another one
occupies a block that the other has let go, the news waits in its list or is on its way. -/
namespace GraphEngine.Memory
open GraphEngine.Lib MultiStreamMemBlock Heap

variable {n : Nat} {ε : Type}

def Covered (setup : Setup n ε) (h : Heap n ε) (f : Flight n ε) (id : BlockId n) (owner view : Fin n) : Prop :=
  (∃ entry ∈ (h.allocators owner).localRecycleBlocks, entry.versionBlock = h.versionBlock id ∧
    FlagWord.has entry.sentFlags view = false) ∨
  ∃ event, (setup.info event).logicSrcStream = owner ∧ (setup.info event).logicDstStream = view ∧
    h.versionBlock id ∈ f.news event

def Delivered (setup : Setup n ε) (h : Heap n ε) (f : Flight n ε) (place : BlockId n → Place n ε) : Prop :=
  ∀ id, place id = .inUse → ∀ owner view, owner ≠ view → ¬ (h.blocks id).Marks owner owner → (h.blocks id).Marks view owner →
    Covered setup h f id owner view

variable {setup : Setup n ε} {h : Heap n ε} {f : Flight n ε} {place : BlockId n → Place n ε}
  {h' : Heap n ε} {f' : Flight n ε} {place' : BlockId n → Place n ε} {id : BlockId n} {stream : Fin n}

theorem Delivered.frame (delivered : Delivered setup h f place) (id : BlockId n)
    (kept : ∀ other, other ≠ id → place' other = .inUse → place other = .inUse ∧ h'.blocks other = h.blocks other)
    (entries : ∀ stream, ∀ entry ∈ (h.allocators stream).localRecycleBlocks, entry.versionBlock.block ≠ id →
      entry ∈ (h'.allocators stream).localRecycleBlocks)
    (news : ∀ event, ∀ news ∈ f.news event, news.block ≠ id → news ∈ f'.news event)
    (here : place' id = .inUse → ∀ owner view, owner ≠ view → ¬ (h'.blocks id).Marks owner owner →
      (h'.blocks id).Marks view owner → Covered setup h' f' id owner view) : Delivered setup h' f' place' := by
  intro other inUse owner view apart cleared marked
  by_cases same : other = id
  · subst same
    exact here inUse owner view apart cleared marked
  · obtain ⟨before,block⟩ := kept other same inUse
    have version : h'.versionBlock other = h.versionBlock other := by
      simp [versionBlock,getVersion,block]
    rw [block] at cleared marked
    rcases delivered other before owner view apart cleared marked with ⟨entry,member,current,unsent⟩ | ⟨event,src,dst,member⟩
    · refine .inl ⟨entry,entries owner entry member ?_,current.trans version.symm,unsent⟩
      rw [current]
      exact same
    · refine .inr ⟨event,src,dst,?_⟩
      rw [version]
      exact news event _ member same

theorem Covered.mono {owner view : Fin n}
    (covered : Covered setup h f id owner view) (version : h'.versionBlock id = h.versionBlock id)
    (entries : ∀ entry ∈ (h.allocators owner).localRecycleBlocks, entry ∈ (h'.allocators owner).localRecycleBlocks)
    (news : ∀ event, (setup.info event).logicSrcStream = owner → (setup.info event).logicDstStream = view →
      h.versionBlock id ∈ f.news event → h.versionBlock id ∈ f'.news event) : Covered setup h' f' id owner view := by
  rcases covered with ⟨entry,member,current,unsent⟩ | ⟨event,src,dst,member⟩
  · exact .inl ⟨entry,entries entry member,current.trans version.symm,unsent⟩
  · exact .inr ⟨event,src,dst,version ▸ news event src dst member⟩

theorem Delivered.opened (delivered : Delivered setup h f place) {opened : Option (BlockId n)}
    (effect : Opened h h' place place' stream opened) :
    Delivered setup h' f place' := by
  intro id inUse owner view apart cleared marked
  by_cases born : opened = some id
  · rw [effect.marks id born] at cleared marked
    exact absurd marked cleared
  · obtain ⟨block,use⟩ := effect.kept id born
    rw [block] at cleared marked
    apply (delivered id (use.mp inUse) owner view apart cleared marked).mono
    · simp [versionBlock,getVersion,block]
    · intro entry member
      rw [effect.lists]
      exact member
    · exact fun _ _ _ member => member

structure Recycled (h h' : Heap n ε) (place place' : BlockId n → Place n ε) (stream : Fin n) (id : BlockId n) :
    Prop where
  lists : ∀ at_, (h'.allocators at_).localRecycleBlocks = (h.allocators at_).localRecycleBlocks
  kept : ∀ other, other ≠ id → h'.blocks other = h.blocks other ∧ place' other = place other
  left : place' id = if stream = id.pool then .returned else .borrowed stream
  version : h'.getVersion id = h.getVersion id + 1
  unheld : ∀ at_, (h'.blocks id).getCount at_ = 0
  trace : ∃ occupied, h'.trace = ⟨stream,.birthRecycle (h.versionBlock id) occupied⟩ :: h.trace ∨
    h'.trace = ⟨stream,.borrowRecycle (h.versionBlock id) occupied⟩ :: h.trace

theorem Delivered.recycled (delivered : Delivered setup h f place) (effect : Recycled h h' place place' stream id) :
    Delivered setup h' f place' := by
  apply delivered.frame id
  · intro other away inUse
    obtain ⟨block,same⟩ := effect.kept other away
    exact ⟨same ▸ inUse,block⟩
  · intro stream entry member _
    rw [effect.lists]
    exact member
  · exact fun _ _ member _ => member
  · intro inUse
    rw [effect.left] at inUse
    split at inUse <;> cases inUse

/-- What the head of `Free` leaves of a disciplined block. -/
structure Dropped (block dropped : MultiStreamMemBlock n) (stream : Fin n) (last : Bool) : Prop where
  same : Owned.SameLife dropped block
  disciplined : dropped.Disciplined
  marks : ∀ row other, dropped.Marks row other ↔ block.Marks row other ∧ ¬ (row = stream ∧ other = stream ∧ last = true)
  last : last = true ↔ block.getCount stream = 1

theorem dropCount_spec (few : n ≤ 63) {block : MultiStreamMemBlock n} (disciplined : block.Disciplined)
    (stream : Fin n) : Dropped block (dropCount block stream).2 stream (dropCount block stream).1 := by
  unfold dropCount
  split
  next held =>
    have less : (block.subCount stream).getCount stream = block.getCount stream - 1 := by
      simp [getCount,subCount]
    split
    next gone =>
      have last : block.getCount stream = 1 := by omega
      refine ⟨⟨rfl,rfl,rfl⟩,disciplined.lastCount few last,?_,by simp [last]⟩
      intro row other
      rw [marks_updateLocalRecycleMif few]
      simp [MultiStreamMemBlock.Marks,subCount]
    next more =>
      have several : 1 < block.getCount stream := by omega
      refine ⟨⟨rfl,rfl,rfl⟩,disciplined.subCount several,?_,?_⟩
      · intro row other
        simp [MultiStreamMemBlock.Marks,subCount]
      · simp only [Bool.false_eq_true,false_iff]
        omega
  next unheld =>
    refine ⟨⟨rfl,rfl,rfl⟩,disciplined,by simp,?_⟩
    simp only [Bool.false_eq_true,false_iff]
    omega

/-- A block let go by one stream only. -/
abbrev letGo (h : Heap n ε) (id : BlockId n) (block : MultiStreamMemBlock n) (stream : Fin n) : Heap n ε :=
  if (dropCount block stream).1 then (h.setBlock id (dropCount block stream).2).localRecycle stream id
  else h.setBlock id (dropCount block stream).2

namespace Owned

variable {id : BlockId n} {block : MultiStreamMemBlock n}

theorem recycle_effect (owned : Owned setup h f place) (inUse : place id = .inUse) (same : SameLife block (h.blocks id))
    (unheld : ∀ at_, block.getCount at_ = 0 ∧ ¬ block.Marks at_ at_) (stream : Fin n) :
    ∃ h' place', (if block.birthAllocator = some stream then ((h.setBlock id block).birthRecycle stream id).2
        else (h.setBlock id block).borrowRecycle stream id) = h' ∧
      Owned setup h' f place' ∧ Recycled h h' place place' stream id := by
  obtain ⟨-,birth⟩ := owned.live id (by simp [inUse]) (by simp [inUse])
  have version : (h.setBlock id block).versionBlock id = h.versionBlock id := by
    simp [versionBlock,getVersion,same.version]
  rw [same.birthAllocator,birth]
  by_cases home : stream = id.pool
  · subst home
    have absent : ∀ carrier, id ∉ f.migrations carrier := by
      intro carrier
      rw [owned.migrating,inUse]
      simp
    refine ⟨_,Function.update place id .returned,rfl,?_,?_⟩
    · rw [if_pos rfl]
      apply owned.birthRecycle (by simp [inUse]) (by simp [inUse]) (by simp [inUse]) same unheld f.migrations
      · intro carrier other
        refine ⟨fun member => ⟨member,?_⟩,And.left⟩
        rintro rfl
        exact absent carrier member
      · exact owned.migratingOnce
    · rw [if_pos rfl,owned.birthRecycle_eq (by simp [inUse]) (by simp [inUse]) same]
      constructor
      case lists => exact setAllocator_field (·.localRecycleBlocks) h id.pool rfl
      case kept =>
        intro other away
        simp [release,away]
      case left => simp
      case version => simp [release,getVersion,clearMemBlock,
        plusVersion,same.version]
      case unheld =>
        intro at_
        simpa [release,getCount,plusVersion,
          clearMemBlock] using (unheld at_).1
      case trace => exact ⟨block.streamIdsToOccupyCount,.inl rfl⟩
  · have differ : ¬ (some id.pool = some stream) := by simpa using Ne.symm home
    refine ⟨_,Function.update place id (.borrowed stream),rfl,?_,?_⟩
    · rw [if_neg differ]
      exact owned.borrowRecycle inUse same (fun at_ => (unheld at_).1) stream
    · rw [if_neg differ]
      constructor
      case lists => exact setAllocator_field (·.localRecycleBlocks) h stream rfl
      case kept =>
        intro other away
        simp [Heap.borrowRecycle,away]
      case left => simp [home]
      case version => simp [Heap.borrowRecycle,getVersion,reInitMifs,
        plusVersion,same.version]
      case unheld =>
        intro at_
        simp [Heap.borrowRecycle,reInitMifs,getCount]
      case trace => exact ⟨block.streamIdsToOccupyCount,.inr (by simp [Heap.borrowRecycle,version])⟩

/-- `Free` on a block in use, whose record may just have been changed: a global recycle when the
row of the stream runs empty, else at most a local one. -/
theorem free_spec (few : n ≤ 63) (owned : Owned setup h f place)
    (inUse : place id = .inUse) (same : SameLife block (h.blocks id)) (disciplined : block.Disciplined)
    (stream : Fin n) (rows : ∀ row, row ≠ stream → ∃ other, block.Marks row other) :
    (∃ place', (∀ other, ¬ (dropCount block stream).2.Marks stream other) ∧
      Owned setup ((h.setBlock id block).free stream id) f place' ∧
      Recycled h ((h.setBlock id block).free stream id) place place' stream id) ∨
    ((h.setBlock id block).free stream id = letGo h id block stream ∧
      (∃ other, (dropCount block stream).2.Marks stream other) ∧ Owned setup ((h.setBlock id block).free stream id) f place) := by
  have dropped := dropCount_spec few disciplined stream
  have life : SameLife (dropCount block stream).2 (h.blocks id) :=
    ⟨dropped.same.memBlock.trans same.memBlock,dropped.same.version.trans same.version,
      dropped.same.birthAllocator.trans same.birthAllocator⟩
  have again : ∀ late, (h.setBlock id block).setBlock id late = h.setBlock id late := by
    intro late
    simp [setBlock]
  cases empty : (dropCount block stream).2.canGlobalRecycle stream with
  | true =>
    have blank := (canGlobalRecycle_iff few dropped.disciplined.supported stream).mp empty
    have zero : ∀ at_, (dropCount block stream).2.getCount at_ = 0 := by
      intro at_
      by_contra held
      have own := (dropped.disciplined.own at_).mpr (Nat.pos_of_ne_zero held)
      exact blank at_ (dropped.disciplined.known at_ own _)
    have unheld : ∀ at_, (dropCount block stream).2.getCount at_ = 0 ∧
        ¬ (dropCount block stream).2.Marks at_ at_ := by
      intro at_
      refine ⟨zero at_,?_⟩
      rw [dropped.disciplined.own,zero at_]
      exact lt_irrefl 0
    obtain ⟨h',place',freed,owned',effect⟩ := owned.recycle_effect inUse life unheld stream
    have result : (h.setBlock id block).free stream id = h' := by
      rw [← freed]
      simp [free,again,empty]
    exact .inl ⟨place',blank,result ▸ owned',result ▸ effect⟩
  | false =>
    have result : (h.setBlock id block).free stream id = letGo h id block stream := by
      simp [free,again,empty]
    have marked : ∃ other, (dropCount block stream).2.Marks stream other := by
      by_contra blank
      have full := (canGlobalRecycle_iff few dropped.disciplined.supported stream).mpr
        (not_exists.mp blank)
      rw [empty] at full
      cases full
    have touched : Owned setup (h.setBlock id (dropCount block stream).2) f place := by
      apply owned.touch inUse life dropped.disciplined
      intro row
      by_cases here : row = stream
      · exact here ▸ marked
      · obtain ⟨other,marked⟩ := rows row here
        exact ⟨other,(dropped.marks row other).mpr ⟨marked,fun both => here both.1⟩⟩
    refine .inr ⟨result,marked,?_⟩
    rw [result,letGo]
    split
    · exact touched.localRecycle stream inUse
    · exact touched

theorem merge_spec (few : n ≤ 63) (owned : Owned setup h f place) (inUse : place id = .inUse) (src dst : Fin n) :
    (((h.blocks id).mergeClearedFrom src dst).occupyMif.isAnySet dst = true ∧
      Owned setup (h.setBlock id ((h.blocks id).mergeClearedFrom src dst)) f place) ∨
    (((h.blocks id).mergeClearedFrom src dst).occupyMif.isAnySet dst = false ∧
      (∀ other, ¬ ((h.blocks id).mergeClearedFrom src dst).Marks dst other) ∧
      ∃ h' place', (h.setBlock id ((h.blocks id).mergeClearedFrom src dst)).freeBlock dst id = some h' ∧
        Owned setup h' f place' ∧ Recycled h h' place place' dst id) := by
  have state := owned.state id
  rw [inUse] at state
  obtain ⟨memory,birth,disciplined,rows⟩ := state
  have merged := disciplined.mergeClearedFrom few src dst
  have others : ∀ row, row ≠ dst → ∃ other, ((h.blocks id).mergeClearedFrom src dst).Marks row other := by
    intro row away
    obtain ⟨other,marked⟩ := rows row
    exact ⟨other,(marks_mergeClearedFrom few ..).mpr ⟨marked,fun here => absurd here away⟩⟩
  have life : SameLife ((h.blocks id).mergeClearedFrom src dst) (h.blocks id) := ⟨rfl,rfl,rfl⟩
  have blank_iff := canGlobalRecycle_iff few merged.supported dst
  cases some_ : ((h.blocks id).mergeClearedFrom src dst).occupyMif.isAnySet dst with
  | true =>
    refine .inl ⟨rfl,owned.touch inUse life merged ?_⟩
    intro row
    by_cases here : row = dst
    · subst here
      by_contra blank
      have full := blank_iff.mpr (not_exists.mp blank)
      simp [canGlobalRecycle,some_] at full
    · exact others row here
  | false =>
    have blank := blank_iff.mp (by simp [canGlobalRecycle,some_])
    have freed : (h.setBlock id ((h.blocks id).mergeClearedFrom src dst)).freeBlock dst id =
        some ((h.setBlock id ((h.blocks id).mergeClearedFrom src dst)).free dst id) := by
      have memory' : ((h.blocks id).mergeClearedFrom src dst).memBlock ≠ none := memory
      have birth' : ((h.blocks id).mergeClearedFrom src dst).birthAllocator = some id.pool := birth
      simp [freeBlock,memory',birth']
    have dropped := dropCount_spec few merged dst
    rcases owned.free_spec few inUse life merged dst others with ⟨place',-,owned',effect⟩ | ⟨-,⟨other,marked⟩,-⟩
    · exact .inr ⟨rfl,blank,_,place',freed,owned',effect⟩
    · exact absurd ((dropped.marks dst other).mp marked).1 (blank other)

end Owned

end GraphEngine.Memory

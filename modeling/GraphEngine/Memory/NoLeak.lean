import GraphEngine.Memory.OwnershipRuns

/-! No block is lost: once every sent event is waited for, a block that nobody holds is recycled or
still announced, and the last sweep brings every such block back to its birth pool. -/
namespace GraphEngine.Memory
open GraphEngine.Lib Function List Heap MultiStreamMemBlock

variable {n : Nat} {ε : Type} {setup : Setup n ε} {h h' h'' : Heap n ε} {f : Flight n ε}
  {place place' place'' : BlockId n → Place n ε} {id : BlockId n}

theorem Recycled.of_setBlock {block : MultiStreamMemBlock n} {stream : Fin n} (version : block.version = h.getVersion id)
    (effect : Recycled (h.setBlock id block) h' place place' stream id) : Recycled h h' place place' stream id := by
  refine { effect with kept := fun other away => ?_, version := ?_, trace := ?_ }
  · have kept := effect.kept other away
    rwa [setBlock_blocks,update_of_ne away] at kept
  · rw [effect.version,← version,getVersion,setBlock_blocks,update_self]
  · have same : (h.setBlock id block).versionBlock id = h.versionBlock id := by
      simpa [versionBlock,getVersion] using version
    have trace := effect.trace
    rwa [same] at trace

/-- The loop of `SyncAllLocalRecycleStatus`: the row of the destination keeps only what every other
stream of the list marks as well. -/
theorem syncAllFrom_spec (few : n ≤ 63) (owned : Owned setup h f place) (inUse : place id = .inUse) (dst : Fin n)
    (streams : List (Fin n)) : ∃ h' place', syncAllFrom dst id streams h = some h' ∧ Owned setup h' f place' ∧
      (Recycled h h' place place' dst id ∨
        place' = place ∧ ∃ block, h' = h.setBlock id block ∧ Owned.SameLife block (h.blocks id) ∧
          block.streamIdsToOccupyCount = (h.blocks id).streamIdsToOccupyCount ∧
          ∀ other, block.Marks dst other → (h.blocks id).Marks dst other ∧
            ∀ stream ∈ streams, stream ≠ dst → (h.blocks id).Marks stream other) := by
  induction streams generalizing h with
  | nil =>
    have same : h.setBlock id (h.blocks id) = h := by simp [setBlock]
    exact ⟨h,place,rfl,owned,.inr ⟨rfl,h.blocks id,same.symm,⟨rfl,rfl,rfl⟩,rfl,fun _ marked => ⟨marked,by simp⟩⟩⟩
  | cons stream streams ih =>
    by_cases self : stream = dst
    · obtain ⟨h',place',done,owned',effect⟩ := ih owned
      refine ⟨h',place',by simpa [syncAllFrom,self] using done,owned',effect.imp_right ?_⟩
      rintro ⟨stay,block,result,life,counts,marks⟩
      refine ⟨stay,block,result,life,counts,fun other marked => ⟨(marks other marked).1,?_⟩⟩
      intro at_ member away
      rcases mem_cons.mp member with rfl | later
      · exact absurd self away
      · exact (marks other marked).2 at_ later away
    · rcases owned.merge_spec few inUse stream dst with ⟨some_,owned₁⟩ | ⟨none_,-,h',place',freed,owned',effect⟩
      · obtain ⟨h',place',done,owned',effect⟩ := ih owned₁
        refine ⟨h',place',by simpa [syncAllFrom,self,some_] using done,owned',?_⟩
        rcases effect with recycled | ⟨stay,block,result,life,counts,marks⟩
        · exact .inl (recycled.of_setBlock (by rfl))
        · rw [setBlock_blocks,update_self] at life counts marks
          refine .inr ⟨stay,block,by simpa [setBlock] using result,⟨life.memBlock,life.version,life.birthAllocator⟩,
            counts,?_⟩
          intro other marked
          obtain ⟨kept,rest⟩ := marks other marked
          rw [marks_mergeClearedFrom few] at kept
          refine ⟨kept.1,?_⟩
          intro at_ member away
          rcases mem_cons.mp member with rfl | later
          · exact kept.2 rfl
          · exact ((marks_mergeClearedFrom few ..).mp (rest at_ later away)).1
      · exact ⟨h',place',by simpa [syncAllFrom,self,none_] using freed,owned',.inl effect⟩

theorem syncToBirth_spec (few : n ≤ 63) (owned : Owned setup h f place) {news : VersionBlock (BlockId n)}
    (inUse : place news.block = .inUse) :
    ∃ h' place', System.syncToBirth h news = some (.success,h') ∧ Owned setup h' f place' ∧
      (Recycled h h' place place' news.block.pool news.block ∨
        place' = place ∧ (∃ block, h' = h.setBlock news.block block ∧ Owned.SameLife block (h.blocks news.block) ∧
          block.streamIdsToOccupyCount = (h.blocks news.block).streamIdsToOccupyCount) ∧
        ∃ stream, 0 < (h.blocks news.block).getCount stream) := by
  obtain ⟨-,birth⟩ := owned.live news.block (by simp [inUse]) (by simp [inUse])
  have state := owned.state news.block
  rw [inUse] at state
  have own := state.2.2.1.own
  obtain ⟨h',place',done,owned',effect⟩ := syncAllFrom_spec few owned inUse news.block.pool (List.finRange n)
  refine ⟨h',place',?_,owned',effect.imp_right ?_⟩
  · simp [System.syncToBirth,getBirthStreamId,birth,syncAllLocalRecycleStatus,done]
  · rintro ⟨stay,block,result,life,counts,marks⟩
    refine ⟨stay,⟨block,result,life,counts⟩,?_⟩
    have rows := owned'.state news.block
    rw [stay,inUse,result,setBlock_blocks,update_self] at rows
    obtain ⟨other,marked⟩ := rows.2.2.2 news.block.pool
    obtain ⟨birthRow,rest⟩ := marks other marked
    by_cases self : other = news.block.pool
    · exact ⟨other,(own other).mp (self ▸ birthRow)⟩
    · exact ⟨other,(own other).mp (rest other (mem_finRange other) self)⟩

/-- What the sweep may do: blocks leave use or the borrow pools, and nothing else moves there. -/
structure Swept (h h' : Heap n ε) (place place' : BlockId n → Place n ε) : Prop where
  lists : ∀ at_, (h'.allocators at_).localRecycleBlocks = (h.allocators at_).localRecycleBlocks
  kept : ∀ id, place' id = .inUse → place id = .inUse ∧ h'.getVersion id = h.getVersion id ∧
    (h'.blocks id).streamIdsToOccupyCount = (h.blocks id).streamIdsToOccupyCount
  lent : ∀ id stream, place' id = .borrowed stream → place id = .borrowed stream

theorem Swept.refl : Swept h h place place :=
  ⟨fun _ => rfl,fun _ inUse => ⟨inUse,rfl,rfl⟩,fun _ _ lent => lent⟩

theorem Swept.trans (first : Swept h h' place place') (second : Swept h' h'' place' place'') : Swept h h'' place place'' where
  lists at_ := (second.lists at_).trans (first.lists at_)
  kept id inUse := by
    obtain ⟨before,version,counts⟩ := second.kept id inUse
    obtain ⟨start,version',counts'⟩ := first.kept id before
    exact ⟨start,version.trans version',counts.trans counts'⟩
  lent id stream lent := first.lent id stream (second.lent id stream lent)

theorem Recycled.swept (effect : Recycled h h' place place' id.pool id) : Swept h h' place place' where
  lists := effect.lists
  kept other inUse := by
    have away : other ≠ id := by
      rintro rfl
      simp [effect.left] at inUse
    obtain ⟨block,same⟩ := effect.kept other away
    exact ⟨same ▸ inUse,by simp [getVersion,block],by rw [block]⟩
  lent other stream lent := by
    have away : other ≠ id := by
      rintro rfl
      simp [effect.left] at lent
    exact (effect.kept other away).2 ▸ lent

/-- The sweep over one local-recycle list: afterwards an entry of a used block that nobody holds had been sent to all other
streams. -/
theorem syncWalk_spec (few : n ≤ 63) (src : Fin n) (entries : List (StreamedVersionBlock (BlockId n)))
    (owned : Owned setup h f place) (inside : ∀ entry ∈ entries, entry ∈ (h.allocators src).localRecycleBlocks) :
    ∃ h' place' left, forEach (System.sweepPolicy src) (toAllBit n src) System.sweepBody (some h) entries =
        (.success,some h',left) ∧
      Owned setup h' f place' ∧ Swept h h' place place' ∧
      left.map (·.versionBlock) ⊆ entries.map (·.versionBlock) ∧
      ∀ id, place' id = .inUse → (∀ stream, (h'.blocks id).getCount stream = 0) →
        ∀ entry ∈ entries, entry.versionBlock = h'.versionBlock id → entry.sentFlags = toAllBit n src := by
  induction entries generalizing h place with
  | nil => exact ⟨h,place,[],rfl,owned,.refl,by simp,by simp⟩
  | cons entry entries ih =>
    have later : ∀ {h₁ : Heap n ε} {place₁ : BlockId n → Place n ε}, Swept h h₁ place place₁ →
        ∀ entry ∈ entries, entry ∈ (h₁.allocators src).localRecycleBlocks := by
      intro h₁ place₁ swept entry member
      rw [swept.lists]
      exact inside entry (mem_cons_of_mem _ member)
    by_cases erased : entry.versionBlock.version ≠ h.getVersion entry.versionBlock.block ∨ entry.sentFlags = toAllBit n src
    · obtain ⟨h',place',left,walked,owned',swept,kept,done⟩ := ih owned (later .refl)
      refine ⟨h',place',left,?_,owned',swept,fun _ member => mem_cons_of_mem _ (kept member),?_⟩
      · rw [forEach_erase (by rcases erased with stale | all <;> simp_all [System.sweepPolicy,findNextForAll])]
        exact walked
      · intro id inUse unheld entry' member same
        rcases mem_cons.mp member with rfl | there
        · refine erased.resolve_left (not_not.mpr ?_)
          rw [same]
          exact (swept.kept id inUse).2.1
        · exact done id inUse unheld entry' there same
    · obtain ⟨current,all⟩ := not_or.mp erased
      rw [not_not] at current
      have inUse := (owned.entries src entry (inside entry mem_cons_self)).2 current
      obtain ⟨h₁,place₁,synced,owned₁,effect⟩ := syncToBirth_spec few owned inUse
      have swept₁ : Swept h h₁ place place₁ := by
        rcases effect with recycled | ⟨rfl,⟨block,rfl,life,counts⟩,-⟩
        · exact recycled.swept
        · refine ⟨fun _ => rfl,fun other inUse => ⟨inUse,?_⟩,fun _ _ lent => lent⟩
          by_cases here : other = entry.versionBlock.block
          · subst here; simp [getVersion,life.version,counts]
          · simp [getVersion,here]
      obtain ⟨h',place',left,walked,owned',swept,kept,done⟩ := ih owned₁ (later swept₁)
      refine ⟨h',place',markSent (toAllBit n src) entry :: left,?_,owned',swept₁.trans swept,cons_subset_cons _ kept,?_⟩
      · have turn : System.sweepPolicy src (some h) entry = .found := by
          simp [System.sweepPolicy,findNextForAll,current,all]
        have body : System.sweepBody (some h) entry.versionBlock = (.success,some h₁) := by simp [System.sweepBody,synced]
        simp only [forEach,turn,body,walked]
      · intro id used unheld entry' member same
        rcases mem_cons.mp member with rfl | there
        · have block : entry'.versionBlock.block = id := congrArg VersionBlock.block same
          obtain ⟨before,-,counts⟩ := swept.kept id used
          rcases effect with recycled | ⟨rfl,⟨block',result,life,counts'⟩,stream,held⟩
          · rw [← block,recycled.left] at before
            simp at before
          · have zero : (h.blocks id).getCount stream = 0 := by
              have now := unheld stream
              rw [block] at result counts'
              simpa [getCount,counts,result,counts'] using now
            rw [block] at held
            omega
        · exact done id used unheld entry' there same

variable [DecidableEq ε]

theorem returnBorrowBlocks_spec (owned : Owned setup h f place) (empty : f.migrations none = []) (src dst : Fin n) :
    ∃ h' place', System.returnBorrowBlocks setup src h dst = some (.success,h') ∧ Owned setup h' f place' ∧
      Swept h h' place place' ∧ ∀ id, place' id = .borrowed src → id.pool ≠ dst := by
  have carried := owned.carry src dst none (by simp)
  rw [empty,nil_append] at carried
  have swept : Swept h (afterReturn setup h src dst) place (carriedPlace src dst none place) := by
    refine ⟨afterReturn_lists setup h src dst,?_,?_⟩
    · intro id inUse
      exact ⟨(carriedPlace_iff (by simp) (by simp) id).mp inUse,rfl,rfl⟩
    · intro id stream lent
      unfold carriedPlace at lent
      split at lent
      · cases lent
      · exact lent
  have gone : ∀ id, carriedPlace src dst none place id = .borrowed src → id.pool ≠ dst := by
    intro id lent home
    unfold carriedPlace at lent
    split at lent
    next => cases lent
    next stays => exact stays ⟨lent,home⟩
  obtain ⟨h',done,place',owned',swept',gone'⟩ := forStatus_rule System.returnToBirth
    (fun targets heap => ∃ place', Owned setup heap {f with migrations := update f.migrations none targets} place' ∧
      Swept h heap place place' ∧ ∀ id, place' id = .borrowed src → id.pool ≠ dst)
    (by
      rintro id targets heap ⟨place',owned',swept',gone'⟩
      have top : ({f with migrations := update f.migrations none (id :: targets)} : Flight n ε).migrations none =
          id :: targets := by simp
      obtain ⟨heap',place'',done,owned'',effect,away⟩ := returnBlock_spec owned' top
      obtain ⟨-,birth⟩ := owned'.live id (by simp [away]) (by simp [away])
      refine ⟨heap',?_,place'',by simpa using owned'',swept'.trans effect.swept,?_⟩
      · simp [System.returnToBirth,getBirthStreamId,birth,done]
      · intro other lent
        exact gone' other (effect.swept.lent other src lent))
    (lentBack setup h src dst).1 _ ⟨_,carried,swept,gone⟩
  refine ⟨h',place',done,?_,swept',gone'⟩
  have same : update f.migrations none [] = f.migrations := by
    rw [← empty,update_eq_self]
  simpa [same] using owned'

def Announced (h : Heap n ε) (id : BlockId n) (stream : Fin n) : Prop :=
  ∃ entry ∈ (h.allocators stream).localRecycleBlocks, entry.versionBlock = h.versionBlock id ∧
    ∃ other, other ≠ stream ∧ FlagWord.has entry.sentFlags other = false

/-- The invariant of the sweep: the streams still to come announce every block that nobody holds,
and the streams behind have no borrowed block left. -/
structure Sweeping (setup : Setup n ε) (f : Flight n ε) (streams : List (Fin n)) (h : Heap n ε)
    (place : BlockId n → Place n ε) : Prop where
  owned : Owned setup h f place
  announced : ∀ id, place id = .inUse → (∀ stream, (h.blocks id).getCount stream = 0) →
    ∃ stream ∈ streams, Announced h id stream
  behind : ∀ stream, stream ∉ streams → ∀ id, place id ≠ .borrowed stream

theorem Sweeping.stream (few : n ≤ 63) (empty : f.migrations none = []) {src : Fin n} {streams : List (Fin n)}
    (fresh : src ∉ streams) (sweeping : Sweeping setup f (src :: streams) h place) :
    ∃ h' place', System.lastWaitStream setup h src = some (.success,h') ∧ Sweeping setup f streams h' place' := by
  obtain ⟨h₁,place₁,left,walked,owned₁,swept₁,kept,done⟩ := syncWalk_spec few src
    (h.allocators src).localRecycleBlocks sweeping.owned (fun _ member => member)
  have relisted := owned₁.relist src left (by
    intro entry member
    rw [swept₁.lists]
    exact mem_map.mp (kept (mem_map_of_mem member)))
  have elsewhere : ∀ at_, at_ ≠ src → ((System.setLocalRecycleBlocks h₁ src left).allocators at_).localRecycleBlocks =
      (h.allocators at_).localRecycleBlocks := by
    intro at_ away
    rw [← swept₁.lists]
    simp [System.setLocalRecycleBlocks,away]
  obtain ⟨h',returned,place',owned',swept',gone⟩ := forStatus_rule (System.returnBorrowBlocks setup src)
    (fun dsts heap => ∃ place', Owned setup heap f place' ∧
      Swept (System.setLocalRecycleBlocks h₁ src left) heap place₁ place' ∧
      ∀ id, place' id = .borrowed src → id.pool ∈ dsts)
    (by
      rintro dst dsts heap ⟨place',owned',swept',left'⟩
      obtain ⟨heap',place'',done',owned'',swept'',gone⟩ := returnBorrowBlocks_spec owned' empty src dst
      refine ⟨heap',done',place'',owned'',swept'.trans swept'',?_⟩
      intro id lent
      have member := left' id (swept''.lent id src lent)
      exact (mem_cons.mp member).resolve_left (gone id lent))
    (List.finRange n) (System.setLocalRecycleBlocks h₁ src left)
    ⟨place₁,relisted,.refl,fun id _ => mem_finRange id.pool⟩
  refine ⟨h',place',?_,owned',?_,?_⟩
  · simp [System.lastWaitStream,System.syncLocalRecycleBlocks,walked,returned]
  · intro id inUse unheld
    obtain ⟨inUse₁,version',counts'⟩ := swept'.kept id inUse
    have unheld₁ : ∀ stream, (h₁.blocks id).getCount stream = 0 := by
      intro stream
      have now := unheld stream
      rwa [getCount,counts'] at now
    obtain ⟨inUse₀,version,counts⟩ := swept₁.kept id inUse₁
    have unheld₀ : ∀ stream, (h.blocks id).getCount stream = 0 := by simpa only [getCount,counts] using unheld₁
    have same : h'.versionBlock id = h.versionBlock id := congrArg (VersionBlock.mk · id) (version'.trans version)
    obtain ⟨stream,member,entry,inside,current,other,away,unsent⟩ := sweeping.announced id inUse₀ unheld₀
    rcases mem_cons.mp member with rfl | later
    · have version₁ : h₁.versionBlock id = h.versionBlock id := congrArg (VersionBlock.mk · id) version
      have sent := done id inUse₁ unheld₁ entry inside (current.trans version₁.symm)
      rw [sent,has_toAllBit few] at unsent
      simp [other.isLt,Fin.val_ne_of_ne away] at unsent
    · refine ⟨stream,later,entry,?_,current.trans same.symm,other,away,unsent⟩
      have apart : stream ≠ src := by
        rintro rfl
        exact fresh later
      rw [swept'.lists,elsewhere stream apart]
      exact inside
  · intro stream absent id lent
    by_cases here : stream = src
    · subst here
      have member := gone id lent
      simp at member
    · have before := swept₁.lent id stream (swept'.lent id stream lent)
      exact sweeping.behind stream (by simp [here,absent]) id before

theorem Sweeping.all (few : n ≤ 63) (empty : f.migrations none = []) (streams : List (Fin n)) (distinct : streams.Nodup)
    (sweeping : Sweeping setup f streams h place) :
    ∃ h' place', forStatus (System.lastWaitStream setup) streams h = some (.success,h') ∧
      Sweeping setup f [] h' place' := by
  obtain ⟨h',done,-,place',swept⟩ := forStatus_rule (System.lastWaitStream setup)
    (fun streams heap => streams.Nodup ∧ ∃ place', Sweeping setup f streams heap place')
    (by
      rintro src streams heap ⟨distinct,place',sweeping⟩
      rw [nodup_cons] at distinct
      obtain ⟨heap',place'',done,sweeping'⟩ := sweeping.stream few empty distinct.1
      exact ⟨heap',done,distinct.2,place'',sweeping'⟩)
    streams h ⟨distinct,place,sweeping⟩
  exact ⟨h',place',done,swept⟩

section Counting

def isAcquire (id : BlockId n) (point : Point n ε) : Bool :=
  match point.mark with
  | .acquire block => block.block = id
  | _ => false

def isReturn (id : BlockId n) (point : Point n ε) : Bool :=
  match point.mark with
  | .birthRecycle block _ => block.block = id
  | _ => false

omit [DecidableEq ε] in
theorem Honest.balance {trace : List (Point n ε)} (honest : Honest trace) (id : BlockId n) :
    trace.countP (isAcquire id) = trace.countP (isReturn id) + if outstanding id trace then 1 else 0 := by
  induction trace with
  | nil => simp [outstanding]
  | cons point older ih =>
    obtain ⟨before,here⟩ := honest
    have balance := ih before
    rw [countP_cons,countP_cons]
    cases mark : point.mark with
    | acquire block =>
      rw [mark] at here
      by_cases same : block.block = id
      · subst same
        simp [isAcquire,isReturn,mark,outstanding,here] at balance ⊢
        omega
      · simp [isAcquire,isReturn,mark,outstanding,same,balance]
    | birthRecycle block occupied =>
      rw [mark] at here
      by_cases same : block.block = id
      · subst same
        simp [isAcquire,isReturn,mark,outstanding,here.2] at balance ⊢
        omega
      · simp [isAcquire,isReturn,mark,outstanding,same,balance]
    | borrow | release | borrowRecycle | recordEvent | waitEvent =>
      simp [isAcquire,isReturn,mark,outstanding,balance]

end Counting

omit [DecidableEq ε] in
theorem Sweeping.waits (events : List ε) {streams : List (Fin n)} (sweeping : Sweeping setup f streams h place) :
    Sweeping setup f streams (events.foldl (fun heap event => heap.log (setup.info event).logicDstStream
      (.waitEvent event)) h) place := by
  induction events generalizing h with
  | nil => exact sweeping
  | cons event events ih =>
    apply ih
    exact ⟨sweeping.owned.log _ (.waitEvent event) trivial,sweeping.announced,sweeping.behind⟩

namespace System

def GloballyRecycled (s : System n ε) (id : BlockId n) : Prop :=
  (∃ stream, s.At id (.borrowPool stream)) ∨ (∃ event, s.At id (.migration event)) ∨ s.At id .birthPool

def AllWaited (s : System n ε) : Prop := ∀ event, pending event s.heap.trace = false

end System

section Sweep
variable {s : System n ε}

theorem Sound.announced (sound : Sound setup s place) (waited : s.AllWaited) (inUse : place id = .inUse)
    (unheld : ∀ stream, (s.heap.blocks id).getCount stream = 0) : ∃ stream, Announced s.heap id stream := by
  have state := sound.owned.state id
  rw [inUse] at state
  obtain ⟨-,-,disciplined,rows⟩ := state
  have clear : ∀ stream, ¬ (s.heap.blocks id).Marks stream stream := by
    intro stream
    rw [disciplined.own,unheld stream]
    exact lt_irrefl 0
  obtain ⟨owner,marked⟩ := rows id.pool
  have apart : owner ≠ id.pool := by
    rintro rfl
    exact clear _ marked
  rcases sound.delivered id inUse owner id.pool apart (clear owner) marked with
    ⟨entry,member,current,unsent⟩ | ⟨event,-,-,member⟩
  · exact ⟨owner,entry,member,current,id.pool,Ne.symm apart,unsent⟩
  · simp [System.flight,sound.quiet event (waited event)] at member

theorem Sound.recycled_or_announced (sound : Sound setup s place) (waited : s.AllWaited) (constructed : s.Constructed id)
    (unheld : ∀ stream, (s.heap.blocks id).getCount stream = 0) :
    s.GloballyRecycled id ∨ ∃ stream, Announced s.heap id stream := by
  obtain ⟨station,there,-⟩ := sound.station constructed
  cases station with
  | use => exact .inr (sound.announced waited (sound.at_use.mp there) unheld)
  | borrowPool stream => exact .inl (.inl ⟨stream,there⟩)
  | migration event => exact .inl (.inr (.inl ⟨event,there⟩))
  | birthPool => exact .inl (.inr (.inr there))

structure SweptClean (s : System n ε) : Prop where
  returned : ∀ id, s.Constructed id → (∀ stream, (s.heap.blocks id).getCount stream = 0) →
    (s.heap.allocators id.pool).msBlockPool.free.count id = 1 ∧
      s.heap.trace.countP (isAcquire id) = s.heap.trace.countP (isReturn id)
  drained : ∀ stream, (∀ key, (s.heap.allocators stream).borrowAllocator.blocksOfSize key = []) ∧
    ∀ birth, (s.heap.allocators stream).borrowAllocator.streamToBorrowBlock birth = []

omit [DecidableEq ε] in
theorem Sweeping.clean {heap : Heap n ε} (migrations : ∀ carrier, s.flight.migrations carrier = [])
    (sweeping : Sweeping setup s.flight [] heap place) : SweptClean {s with heap := heap} where
  returned id constructed unheld := by
    have back : place id = .returned := by
      cases at_ : place id with
      | fresh => exact absurd ((sweeping.owned.fresh id).mp at_) (not_le.mpr constructed)
      | returned => rfl
      | inUse =>
        obtain ⟨stream,absent,-⟩ := sweeping.announced id at_ unheld
        cases absent
      | borrowed stream => exact absurd at_ (sweeping.behind stream not_mem_nil id)
      | migrating carrier =>
        have inside := (sweeping.owned.migrating carrier id).mpr at_
        simp [migrations] at inside
    constructor
    · exact count_eq_one_of_mem (sweeping.owned.returnedOnce id.pool)
        ((sweeping.owned.returned id.pool id).mpr ⟨rfl,back⟩)
    · have closed := (sweeping.owned.acquired id).not.mpr (by simp [back])
      simpa [closed] using sweeping.owned.honest.balance id
  drained stream := by
    have holds := sweeping.owned.borrowed stream
    constructor
    · intro key
      apply eq_nil_iff_forall_not_mem.mpr
      intro id member
      exact sweeping.behind stream not_mem_nil id ((holds.sized key id).mp member).1
    · intro birth
      apply eq_nil_iff_forall_not_mem.mpr
      intro id member
      exact sweeping.behind stream not_mem_nil id ((holds.streamed birth id).mp member).1

theorem Sound.lastWaitEvents (few : n ≤ 63) (sound : Sound setup s place) (waited : s.AllWaited) (events : List ε) :
    ∃ status s', s.lastWaitEvents setup events = some (status,s') ∧ (status = .success ↔ 0 < n) ∧ SweptClean s' := by
  by_cases none_ : n = 0
  · subst none_
    refine ⟨.failed,_,rfl,by simp,?_,?_⟩
    · exact fun id => id.pool.elim0
    · exact fun stream => stream.elim0
  · have empty : ∀ carrier, s.flight.migrations carrier = [] := by
      intro carrier
      cases carrier with
      | none => rfl
      | some event => simp [System.flight,sound.quiet event (waited event)]
    have start : Sweeping setup s.flight (List.finRange n) s.heap place := by
      refine ⟨sound.owned,?_,?_⟩
      · intro id inUse unheld
        obtain ⟨stream,announced⟩ := sound.announced waited inUse unheld
        exact ⟨stream,mem_finRange stream,announced⟩
      · intro stream absent
        exact absurd (mem_finRange stream) absent
    obtain ⟨heap,place',done,swept⟩ := (start.waits events).all few (empty none) _ (nodup_finRange n)
    refine ⟨.success,{s with heap := heap},?_,iff_of_true rfl (Nat.pos_of_ne_zero none_),swept.clean empty⟩
    simp [System.lastWaitEvents,none_,done]

end Sweep

/-- No block leaks: when every event has been waited for, a block that nobody holds is recycled or still announced, and the
last sweep returns every such block and drains the borrow pools. -/
theorem noLeak_of_run (setup : Setup n ε) (few : n ≤ 63) (history : List (System n ε × System.Step n ε))
    (s : System n ε) (run : System.Run setup history s) (waited : s.AllWaited) :
    (∀ id, s.Constructed id → (∀ stream, (s.heap.blocks id).getCount stream = 0) →
      s.GloballyRecycled id ∨ ∃ stream, Announced s.heap id stream) ∧
    ∀ events, ∃ status s', s.lastWaitEvents setup events = some (status,s') ∧ (status = .success ↔ 0 < n) ∧
      SweptClean s' := by
  obtain ⟨place,sound⟩ := sound_of_run few run
  exact ⟨fun id constructed unheld => sound.recycled_or_announced waited constructed unheld,
    sound.lastWaitEvents few waited⟩

theorem noLeak_of_leftAnnounced : ∃ history s, System.play threeStreams leftAnnounced = some (history,s) ∧
    ∃ status s', s.lastWaitEvents threeStreams [] = some (status,s') ∧ (status = .success ↔ 0 < 3) ∧ SweptClean s' := by
  obtain ⟨⟨history,s⟩,played⟩ := Option.isSome_iff_exists.mp
    (show (System.play threeStreams leftAnnounced).isSome = true by decide +kernel)
  have quiet : ((System.play threeStreams leftAnnounced).all fun reached =>
      decide (∀ event, pending event reached.2.heap.trace = false)) = true := by decide +kernel
  rw [played,Option.all_some,decide_eq_true_iff] at quiet
  exact ⟨history,s,played,
    (noLeak_of_run threeStreams (by decide) history s (System.run_of_play played) quiet).2 []⟩

end GraphEngine.Memory

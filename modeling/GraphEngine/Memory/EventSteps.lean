import GraphEngine.Memory.Delivery

/-! One turn of each loop in the event kernels, and the effect of sending an event: what moves, who
learns of it, and that the robustness assertions hold. -/
namespace GraphEngine.Memory
open GraphEngine.Lib Function List Heap MultiStreamMemBlock

variable {n : Nat} {ε : Type} {setup : Setup n ε} {h : Heap n ε} {f : Flight n ε} {place : BlockId n → Place n ε}

/-- What one piece of news does to the stream that hears it: nothing when stale, else a merge of the sender's present row,
with the recycle of an empty row. -/
inductive Heard (setup : Setup n ε) (info : EventInfo n) (h h' : Heap n ε) (f : Flight n ε)
    (place place' : BlockId n → Place n ε) (news : VersionBlock (BlockId n)) : Prop where
  | stale (old : news.version ≠ h.getVersion news.block) (same : h' = h) (stay : place' = place)
  | merged (current : news = h.versionBlock news.block) (inUse : place news.block = .inUse) (stay : place' = place)
      (block : h' = h.setBlock news.block
        ((h.blocks news.block).mergeClearedFrom info.logicSrcStream info.logicDstStream))
  | recycled (current : news = h.versionBlock news.block) (inUse : place news.block = .inUse)
      (blank : ∀ other, ¬ ((h.blocks news.block).mergeClearedFrom info.logicSrcStream info.logicDstStream).Marks
        info.logicDstStream other)
      (effect : Recycled h h' place place' info.logicDstStream news.block)

theorem waitBlock_spec (few : n ≤ 63) (owned : Owned setup h f place) {news : VersionBlock (BlockId n)}
    (info : EventInfo n) (timely : Timely h place news) :
    ∃ h' place', System.waitBlock info h news = some (.success,h') ∧ Owned setup h' f place' ∧
      Heard setup info h h' f place place' news := by
  by_cases current : news.version = h.getVersion news.block
  · have inUse := timely.2 current
    have state := owned.state news.block
    rw [inUse] at state
    have known := state.2.2.1.known
    have first : (h.blocks news.block).occupyMif.isSet info.logicDstStream info.logicDstStream ≤
        (h.blocks news.block).occupyMif.isSet info.logicSrcStream info.logicDstStream :=
      fun own => known info.logicDstStream own info.logicSrcStream
    have second : (h.blocks news.block).occupyMif.isSet info.logicSrcStream info.logicSrcStream ≤
        (h.blocks news.block).occupyMif.isSet info.logicDstStream info.logicSrcStream :=
      fun own => known info.logicSrcStream own info.logicDstStream
    have same : news = h.versionBlock news.block := by
      cases news
      simpa [versionBlock] using current
    rcases owned.merge_spec few inUse info.logicSrcStream info.logicDstStream with
      ⟨marked,owned'⟩ | ⟨empty,blank,h',place',freed,owned',effect⟩
    · refine ⟨_,place,?_,owned',.merged same inUse rfl rfl⟩
      simp [System.waitBlock,syncLocalRecycleStatus,current,first,second,marked]
    · refine ⟨h',place',?_,owned',.recycled same inUse blank effect⟩
      simp [System.waitBlock,syncLocalRecycleStatus,current,first,second,empty,freed]
  · exact ⟨h,place,by simp [System.waitBlock,current],owned,.stale current rfl rfl⟩

theorem Delivered.heard (few : n ≤ 63) (owned : Owned setup h f place) (delivered : Delivered setup h f place)
    {event : ε} {news : VersionBlock (BlockId n)} {h' : Heap n ε} {place' : BlockId n → Place n ε}
    (heard : Heard setup (setup.info event) h h' f place place' news) {left : ε → List (VersionBlock (BlockId n))}
    (kept : ∀ other, ∀ message ∈ f.news other, message ∈ left other ∨ other = event ∧ message = news) :
    Delivered setup h' {f with news := left} place' := by
  cases heard with
  | stale old same stay =>
    subst same stay
    intro id inUse owner view apart cleared marked
    apply (delivered id inUse owner view apart cleared marked).mono rfl (fun _ member => member)
    intro other _ _ member
    rcases kept other _ member with there | ⟨-,rfl⟩
    · exact there
    · exact absurd rfl old
  | merged current inUse stay block =>
    subst block stay
    have state := owned.state news.block
    rw [inUse] at state
    have disciplined := state.2.2.1
    apply delivered.frame news.block
    · intro other away use
      simp [away,use]
    · exact fun _ _ member _ => member
    · intro other message member away
      rcases kept other message member with there | ⟨-,rfl⟩
      · exact there
      · exact absurd rfl away
    · intro _ owner view apart cleared marked
      rw [setBlock_blocks,update_self] at cleared marked
      rw [marks_mergeClearedFrom few] at cleared marked
      have unmarked : ¬(h.blocks news.block).Marks owner owner := fun own => cleared ⟨own,fun _ => disciplined.known _ own _⟩
      have version : (h.setBlock news.block ((h.blocks news.block).mergeClearedFrom (setup.info event).logicSrcStream
          (setup.info event).logicDstStream)).versionBlock news.block = h.versionBlock news.block := by
        simp [versionBlock,getVersion,mergeClearedFrom]
      apply (delivered news.block inUse owner view apart unmarked marked.1).mono version (fun _ member => member)
      intro other src dst member
      rcases kept other _ member with there | ⟨rfl,-⟩
      · exact there
      · rw [src] at marked
        exact absurd (marked.2 dst.symm) unmarked
  | recycled current inUse blank effect =>
    have lost := delivered.recycled effect
    intro id use owner view apart cleared marked
    have away : id ≠ news.block := by
      rintro rfl
      rw [effect.left] at use
      split at use <;> cases use
    apply (lost id use owner view apart cleared marked).mono rfl (fun _ member => member)
    intro other _ _ member
    rcases kept other _ member with there | ⟨-,same⟩
    · exact there
    · exact absurd (congrArg VersionBlock.block same) away

variable [DecidableEq ε]

theorem returnBlock_spec (owned : Owned setup h f place) {carrier : Option ε} {id : BlockId n}
    {rest : List (BlockId n)} (top : f.migrations carrier = id :: rest) :
    ∃ h' place', h.birthRecycle id.pool id = (.success,h') ∧
      Owned setup h' {f with migrations := update f.migrations carrier rest} place' ∧
      Recycled h h' place place' id.pool id ∧ place id = .migrating carrier := by
  have away : place id = .migrating carrier := (owned.migrating carrier id).mp (top ▸ mem_cons_self)
  have state := owned.state id
  rw [away] at state
  have once := owned.migratingOnce carrier
  rw [top,nodup_cons] at once
  have same : h.setBlock id (h.blocks id) = h := by simp [setBlock]
  have life : Owned.SameLife (h.blocks id) (h.blocks id) := ⟨rfl,rfl,rfl⟩
  have equation := owned.birthRecycle_eq (by simp [away]) (by simp [away]) life
  have unheld : ∀ at_, (h.blocks id).getCount at_ = 0 ∧ ¬ (h.blocks id).Marks at_ at_ := by
    intro at_
    refine ⟨state.2.2.2 at_,?_⟩
    simp [MultiStreamMemBlock.Marks,state.2.2.1]
  have owned' := owned.birthRecycle (by simp [away]) (by simp [away]) (by simp [away]) life unheld
    (update f.migrations carrier rest) (by
      intro other_ other
      by_cases here : other_ = carrier
      · subst here
        rw [update_self,top,mem_cons]
        grind
      · have absent : id ∉ f.migrations other_ := by
          rw [owned.migrating,away]
          simpa using Ne.symm here
        rw [update_of_ne here]
        grind) (by
      intro other_
      by_cases here : other_ = carrier
      · subst here; simpa using once.2
      · simpa [here] using owned.migratingOnce other_)
  rw [same] at equation owned'
  rw [equation] at owned' ⊢
  refine ⟨_,_,rfl,owned',?_,away⟩
  constructor
  case lists => exact setAllocator_field (·.localRecycleBlocks) h id.pool rfl
  case kept =>
    intro other apart
    simp [release,apart]
  case left => simp
  case version => simp [release,getVersion,clearMemBlock,plusVersion]
  case unheld =>
    intro at_
    simpa [release,getCount,plusVersion,
      clearMemBlock] using state.2.2.2 at_
  case trace => exact ⟨_,.inl rfl⟩

def carriedPlace (src dst : Fin n) (carrier : Option ε) (place : BlockId n → Place n ε) (id : BlockId n) : Place n ε :=
  if place id = .borrowed src ∧ id.pool = dst then .migrating carrier else place id

theorem carriedPlace_iff {src dst : Fin n} {carrier : Option ε} {seen : Place n ε}
    (unlent : seen ≠ .borrowed src) (still : seen ≠ .migrating carrier) (id : BlockId n) :
    carriedPlace src dst carrier place id = seen ↔ place id = seen := by
  unfold carriedPlace
  split
  next moved => exact iff_of_false (Ne.symm still) (moved.1 ▸ Ne.symm unlent)
  next => rfl

abbrev lentBack (setup : Setup n ε) (h : Heap n ε) (src dst : Fin n) :=
  (h.allocators src).borrowAllocator.getAndClearBorrowBlocks setup.order h.getSize (some dst)

abbrev afterReturn (setup : Setup n ε) (h : Heap n ε) (src dst : Fin n) : Heap n ε :=
  h.setAllocator src {h.allocators src with borrowAllocator := (lentBack setup h src dst).2}

omit [DecidableEq ε] in
theorem afterReturn_lists (setup : Setup n ε) (h : Heap n ε) (src dst at_ : Fin n) :
    ((afterReturn setup h src dst).allocators at_).localRecycleBlocks = (h.allocators at_).localRecycleBlocks := by
  apply setAllocator_field (·.localRecycleBlocks)
  rfl

theorem Owned.carry (owned : Owned setup h f place) (src dst : Fin n) (carrier : Option ε)
    (home : ∀ event, carrier = some event → dst = (setup.info event).logicDstStream) :
    Owned setup (afterReturn setup h src dst)
      {f with migrations := update f.migrations carrier (f.migrations carrier ++ (lentBack setup h src dst).1)}
      (carriedPlace src dst carrier place) := by
  have birth : ∀ stream id, place id = .borrowed stream → h.getBirthStreamId id = some id.pool := by
    intro stream id lent
    exact (owned.live id (by simp [lent]) (by simp [lent])).2
  have cleared : ∀ id, id ∈ (lentBack setup h src dst).1 ↔ place id = .borrowed src ∧ id.pool = dst := by
    intro id
    rw [(owned.borrowed _).mem_cleared,Set.mem_ofPred_eq]
    apply and_congr_right
    intro lent
    rw [birth _ id lent,Option.some.injEq]
  have timely : ∀ news, Timely h place news → Timely h (carriedPlace src dst carrier place) news := by
    rintro news ⟨older,current⟩
    exact ⟨older,fun same => (carriedPlace_iff (by simp) (by simp) _).mpr (current same)⟩
  have pools : ∀ at_, ((afterReturn setup h src dst).allocators at_).msBlockPool = (h.allocators at_).msBlockPool := by
    apply setAllocator_field (·.msBlockPool)
    rfl
  constructor
  case fresh =>
    intro id
    rw [pools,carriedPlace_iff (by simp) (by simp),owned.fresh]
  case returned =>
    intro stream id
    rw [pools,carriedPlace_iff (by simp) (by simp),owned.returned]
  case returnedOnce => simpa only [pools] using owned.returnedOnce
  case borrowed =>
    intro stream
    by_cases here : stream = src
    · subst here
      have pooled : {id | carriedPlace stream dst carrier place id = .borrowed stream} =
          {id ∈ {id | place id = .borrowed stream} | h.getBirthStreamId id ≠ some dst} := by
        ext id
        simp only [Set.mem_ofPred_eq,carriedPlace]
        by_cases lent : place id = .borrowed stream
        · simp [lent,birth _ id lent]
        · simp [lent]
      rw [pooled]
      simpa using (owned.borrowed stream).getAndClearBorrowBlocks (some dst)
    · have pooled : {id | carriedPlace src dst carrier place id = .borrowed stream} =
          {id | place id = .borrowed stream} := by
        ext id
        exact carriedPlace_iff (by simpa using here) (by simp) id
      rw [pooled]
      simpa [here] using owned.borrowed stream
  case migrating =>
    intro other id
    dsimp only
    by_cases here : other = carrier
    · subst here
      rw [update_self,mem_append,owned.migrating,cleared,carriedPlace]
      split <;> simp_all
    · rw [update_of_ne here,owned.migrating,carriedPlace_iff (by simp) (by simpa using here)]
  case migratingOnce =>
    intro other
    dsimp only
    by_cases here : other = carrier
    · subst here
      rw [update_self,nodup_append]
      refine ⟨owned.migratingOnce other,(owned.borrowed _).cleared_nodup _,?_⟩
      rintro id inside _ new rfl
      have away := (owned.migrating other id).mp inside
      have lent := ((cleared id).mp new).1
      rw [away] at lent
      cases lent
    · simpa [here] using owned.migratingOnce other
  case homeward =>
    intro event id away
    unfold carriedPlace at away
    split at away
    next moved =>
      cases away
      exact moved.2.trans (home event rfl)
    next => exact owned.homeward event id away
  case state =>
    intro id
    rw [setAllocator_blocks,carriedPlace]
    split
    next moved =>
      have before := owned.state id
      rw [moved.1] at before
      exact before
    next => exact owned.state id
  case entries =>
    intro at_ entry member
    rw [afterReturn_lists] at member
    exact timely _ (owned.entries at_ entry member)
  case news =>
    intro event news member
    exact timely _ (owned.news event news member)
  case honest => exact owned.honest
  case acquired =>
    intro id
    rw [setAllocator_trace,owned.acquired,ne_eq,ne_eq,ne_eq,ne_eq,carriedPlace_iff (by simp) (by simp),
      carriedPlace_iff (by simp) (by simp)]

section Send
variable {s : System n ε}

def sentPlace (setup : Setup n ε) (event : ε) (place : BlockId n → Place n ε) : BlockId n → Place n ε :=
  carriedPlace (setup.info event).logicSrcStream (setup.info event).logicDstStream (some event) place

abbrev recycleSplit (setup : Setup n ε) (s : System n ε) (event : ε) :=
  clearLocalRecycleBlocks s.heap.getVersion n (setup.info event).logicSrcStream (setup.info event).logicDstStream
    (s.heap.allocators (setup.info event).logicSrcStream).localRecycleBlocks

theorem sendEvent_lists (s : System n ε) (event : ε) (stream : Fin n) :
    ((s.sendEvent setup event).heap.allocators stream).localRecycleBlocks =
      if stream = (setup.info event).logicSrcStream then (recycleSplit setup s event).2
      else (s.heap.allocators stream).localRecycleBlocks := by
  simp only [System.sendEvent,log_allocators,setAllocator_allocators,update_apply]
  split <;> rfl

theorem sendEvent_news (s : System n ε) (event other : ε) : (s.sendEvent setup event).flight.news other =
      if other = event then s.flight.news other ++ (recycleSplit setup s event).1 else s.flight.news other := by
  simp only [System.flight,System.sendEvent,update_apply]
  split
  next here => rw [here]
  next => rfl

theorem sendEvent_flight (s : System n ε) (event : ε) : (s.sendEvent setup event).flight =
    ⟨update s.flight.news event (s.flight.news event ++ (recycleSplit setup s event).1),
      update s.flight.migrations (some event) (s.flight.migrations (some event) ++
        (lentBack setup s.heap (setup.info event).logicSrcStream (setup.info event).logicDstStream).1)⟩ := by
  rw [show (s.sendEvent setup event).flight = ⟨(s.sendEvent setup event).flight.news,
    (s.sendEvent setup event).flight.migrations⟩ from rfl]
  congr 1
  · funext other
    rw [sendEvent_news,update_apply]
    split
    next here => rw [here]
    next => rfl
  · funext carrier
    cases carrier with
    | none => simp [System.flight]
    | some other =>
      simp only [System.flight,System.sendEvent,update_apply,Option.some.injEq]
      split <;> rfl

theorem Owned.sendEvent (owned : Owned setup s.heap s.flight place) (event : ε) :
    Owned setup (s.sendEvent setup event).heap (s.sendEvent setup event).flight (sentPlace setup event place) := by
  have announced := owned.announce (update s.flight.news event (s.flight.news event ++ (recycleSplit setup s event).1)) (by
    intro other news member
    rw [update_apply] at member
    split at member
    next here =>
      subst here
      rcases mem_append.mp member with old | new
      · exact .inl old
      · obtain ⟨entry,inside,-,same⟩ := mem_clearLocalRecycleBlocks_sent.mp new
        exact .inr ⟨_,entry,inside,same⟩
    next => exact .inl member)
  have carried := announced.carry (setup.info event).logicSrcStream (setup.info event).logicDstStream (some event)
    (by rintro _ ⟨⟩; rfl)
  have relisted := carried.relist (setup.info event).logicSrcStream (recycleSplit setup s event).2 (by
    intro entry member
    obtain ⟨old,inside,-,rfl⟩ := mem_clearLocalRecycleBlocks_left.mp member
    refine ⟨old,by simpa using inside,?_⟩
    split <;> rfl)
  have logged := relisted.log (setup.info event).logicSrcStream (.recordEvent event) trivial
  rw [sendEvent_flight]
  simpa [System.sendEvent,sentPlace,setAllocator,log] using logged

theorem Delivered.sendEvent (few : n ≤ 63) (delivered : Delivered setup s.heap s.flight place) (event : ε) :
    Delivered setup (s.sendEvent setup event).heap (s.sendEvent setup event).flight (sentPlace setup event place) := by
  intro id inUse owner view apart cleared marked
  have before : place id = .inUse := (carriedPlace_iff (by simp) (by simp) id).mp inUse
  rcases delivered id before owner view apart cleared marked with ⟨entry,member,current,unsent⟩ | ⟨other,src,dst,member⟩
  · by_cases here : owner = (setup.info event).logicSrcStream
    · subst here
      have kept : findNext s.heap.getVersion (toBit (setup.info event).logicDstStream)
          (toAllBit n (setup.info event).logicSrcStream) entry ≠ .erase := by
        rw [ne_eq,findNext_erase_iff]
        rintro (stale | all)
        · rw [current] at stale
          exact stale rfl
        · rw [all,has_toAllBit few] at unsent
          simp [view.isLt,Fin.val_ne_of_ne (Ne.symm apart)] at unsent
      by_cases found : findNext s.heap.getVersion (toBit (setup.info event).logicDstStream)
          (toAllBit n (setup.info event).logicSrcStream) entry = .found
      · by_cases there : view = (setup.info event).logicDstStream
        · refine .inr ⟨event,rfl,there.symm,?_⟩
          rw [sendEvent_news,if_pos rfl,mem_append]
          exact .inr (mem_clearLocalRecycleBlocks_sent.mpr ⟨entry,member,found,current⟩)
        · refine .inl ⟨markSent (toBit (setup.info event).logicDstStream) entry,?_,current,?_⟩
          · rw [sendEvent_lists,if_pos rfl]
            exact mem_clearLocalRecycleBlocks_left.mpr ⟨entry,member,kept,by rw [if_pos found]⟩
          · have narrow : (setup.info event).logicDstStream.val < n := (setup.info event).logicDstStream.isLt
            rw [markSent,FlagWord.has_or,unsent,Mif.toBit_has (show n ≤ 64 by omega) narrow]
            simpa using Fin.val_ne_of_ne there
      · refine .inl ⟨entry,?_,current,unsent⟩
        rw [sendEvent_lists,if_pos rfl]
        exact mem_clearLocalRecycleBlocks_left.mpr ⟨entry,member,kept,by rw [if_neg found]⟩
    · refine .inl ⟨entry,?_,current,unsent⟩
      rw [sendEvent_lists,if_neg here]
      exact member
  · refine .inr ⟨other,src,dst,?_⟩
    rw [sendEvent_news]
    split
    · exact mem_append_left _ member
    · exact member

end Send

end GraphEngine.Memory

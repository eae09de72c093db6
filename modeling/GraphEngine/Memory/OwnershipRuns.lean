import GraphEngine.Memory.EventSteps

/-! The invariant over whole runs: every step of every client keeps it, whatever the interleaving,
and from it each block is in exactly one place and is returned once for each acquisition. -/
namespace GraphEngine.Memory
open GraphEngine.Lib Function MultiStreamMemBlock Option Heap

variable {n : Nat} {ε : Type} [DecidableEq ε] {setup : Setup n ε} {s s' : System n ε} {place : BlockId n → Place n ε}

def pending (event : ε) : List (Point n ε) → Bool
  | [] => false
  | point :: older =>
    match point.mark with
    | .recordEvent other => if other = event then true else pending event older
    | .waitEvent other => if other = event then false else pending event older
    | _ => pending event older

structure Sound (setup : Setup n ε) (s : System n ε) (place : BlockId n → Place n ε) : Prop where
  owned : Owned setup s.heap s.flight place
  delivered : Delivered setup s.heap s.flight place
  quiet : ∀ event, pending event s.heap.trace = false → s.spaces event = ⟨[],[]⟩

theorem sound_initial : Sound setup (System.initial : System n ε) (fun _ => .fresh) :=
  ⟨Owned.initial,nofun,fun _ _ => rfl⟩

variable {h : Heap n ε} {f : Flight n ε} {id : BlockId n} {stream : Fin n} {h' : Heap n ε}
  {place' : BlockId n → Place n ε} {opened : Option (BlockId n)} {news : VersionBlock (BlockId n)} {event : ε}

omit [DecidableEq ε] in
theorem Owned.inUse_of_count (owned : Owned setup h f place) (held : 0 < (h.blocks id).getCount stream) : place id = .inUse := by
  have state := owned.state id
  cases at_ : place id with
  | inUse => rfl
  | fresh => rw [at_] at state; have := (state.2 stream).1; omega
  | returned => rw [at_] at state; have := (state.2 stream).1; omega
  | borrowed => rw [at_] at state; have := state.2.2.2 stream; omega
  | migrating => rw [at_] at state; have := state.2.2.2 stream; omega

theorem pending_opened (effect : Opened h h' place place' stream opened) (event : ε) :
    pending event h'.trace = pending event h.trace := by
  rcases effect.trace with same | ⟨id,acquired | borrowed⟩
  · rw [same]
  · rw [acquired]; rfl
  · rw [borrowed]; rfl

theorem pending_recycled
    (effect : Recycled h h' place place' stream id) (event : ε) : pending event h'.trace = pending event h.trace := by
  obtain ⟨occupied,birth | borrow⟩ := effect.trace
  · rw [birth]; rfl
  · rw [borrow]; rfl

theorem Sound.malloc (few : n ≤ 63) (sound : Sound setup s place) {size : Nat} {own : Option Nat} {heap : Heap n ε}
    (done : s.heap.malloc setup.order setup.extendSize stream size own = some (opened,heap)) :
    ∃ place', Sound setup {s with heap := heap} place' := by
  obtain ⟨place',owned,effect⟩ := sound.owned.malloc few done
  refine ⟨place',owned,sound.delivered.opened effect,?_⟩
  intro event quiet
  rw [pending_opened effect] at quiet
  exact sound.quiet event quiet

theorem Sound.touch (sound : Sound setup s place) {block : MultiStreamMemBlock n}
    (inUse : place id = .inUse) (same : Owned.SameLife block (s.heap.blocks id)) (disciplined : block.Disciplined)
    (more : ∀ row other, (s.heap.blocks id).Marks row other → block.Marks row other)
    (own : ∀ row other, block.Marks row other → (s.heap.blocks id).Marks row other ∨ block.Marks other other) :
    Sound setup {s with heap := s.heap.setBlock id block} place := by
  refine ⟨sound.owned.touch inUse same disciplined ?_,?_,sound.quiet⟩
  · intro row
    have state := sound.owned.state id
    rw [inUse] at state
    obtain ⟨other,marked⟩ := state.2.2.2 row
    exact ⟨other,more row other marked⟩
  · apply sound.delivered.frame id
    · intro other away use
      simp [away,use]
    · exact fun _ _ member _ => member
    · exact fun _ _ member _ => member
    · intro _ owner view apart cleared marked
      rw [setBlock_blocks,update_self] at cleared marked
      have before : (s.heap.blocks id).Marks view owner := (own view owner marked).resolve_right cleared
      have clear : ¬ (s.heap.blocks id).Marks owner owner := fun marks => cleared (more owner owner marks)
      apply (sound.delivered id inUse owner view apart clear before).mono
      · simp [versionBlock,getVersion,same.version]
      · exact fun _ member => member
      · exact fun _ _ _ member => member

theorem Sound.addCount (sound : Sound setup s place) (held : 0 < (s.heap.blocks id).getCount stream) :
    Sound setup {s with heap := s.heap.setBlock id ((s.heap.blocks id).addCount stream)} place := by
  have inUse := sound.owned.inUse_of_count held
  have state := sound.owned.state id
  rw [inUse] at state
  exact sound.touch inUse ⟨rfl,rfl,rfl⟩ (state.2.2.1.addCount held) (fun _ _ marked => marked)
    (fun _ _ marked => .inl marked)

section

variable (few : n ≤ 63)
include few

theorem Sound.newAccessStream (sound : Sound setup s place) {src : Fin n} (dst : Fin n)
    (held : 0 < (s.heap.blocks id).getCount src) :
    Sound setup {s with heap := s.heap.setBlock id ((s.heap.blocks id).newAccessStream dst)} place := by
  have inUse := sound.owned.inUse_of_count held
  have state := sound.owned.state id
  rw [inUse] at state
  refine sound.touch inUse ⟨rfl,rfl,rfl⟩ (state.2.2.1.newAccessStream few dst) ?_ ?_
  · intro row other marked
    exact (marks_newAccessStream few ..).mpr (.inl marked)
  · intro row other marked
    rcases (marks_newAccessStream few ..).mp marked with old | rfl
    · exact .inl old
    · exact .inr ((marks_newAccessStream few ..).mpr (.inr rfl))

omit [DecidableEq ε] in
theorem Delivered.dropped (delivered : Delivered setup h f place) (inUse : place id = .inUse)
    (disciplined : (h.blocks id).Disciplined) (stream : Fin n) :
    Delivered setup (letGo h id (h.blocks id) stream) f place := by
  have dropped := dropCount_spec few disciplined stream
  have version : (h.setBlock id (dropCount (h.blocks id) stream).2).versionBlock id = h.versionBlock id := by
    simp [versionBlock,getVersion,dropped.same.version]
  have longer : ∀ at_, ∀ entry ∈ (h.allocators at_).localRecycleBlocks, entry ∈
      (((h.setBlock id (dropCount (h.blocks id) stream).2).localRecycle stream id).allocators at_).localRecycleBlocks := by
    intro at_ entry member
    by_cases here : at_ = stream
    · subst here; simp [localRecycle,member]
    · simpa [localRecycle,here] using member
  unfold letGo
  split
  next last =>
    apply delivered.frame id
    · intro other away use
      simp [localRecycle,away,use]
    · exact fun at_ entry member _ => longer at_ entry member
    · exact fun _ _ member _ => member
    · intro _ owner view apart cleared marked
      by_cases own : owner = stream
      · subst own
        exact .inl ⟨⟨h.versionBlock id,0⟩,by simp [localRecycle,version],version.symm,FlagWord.has_zero _⟩
      · have blocks : ((h.setBlock id (dropCount (h.blocks id) stream).2).localRecycle stream id).blocks id =
            (dropCount (h.blocks id) stream).2 := by simp [localRecycle]
        rw [blocks,dropped.marks] at cleared marked
        have clear : ¬ (h.blocks id).Marks owner owner := fun marks => cleared ⟨marks,fun both => own both.1⟩
        exact (delivered id inUse owner view apart clear marked.1).mono version (longer owner) fun _ _ _ member => member
  next more =>
    apply delivered.frame id
    · intro other away use
      simp [away,use]
    · exact fun _ _ member _ => member
    · exact fun _ _ member _ => member
    · intro _ owner view apart cleared marked
      rw [setBlock_blocks,update_self,dropped.marks] at cleared marked
      have clear : ¬ (h.blocks id).Marks owner owner := fun marks => cleared ⟨marks,fun both => more both.2.2⟩
      exact (delivered id inUse owner view apart clear marked.1).mono version (fun _ member => member)
        fun _ _ _ member => member

omit [DecidableEq ε] in
theorem Owned.freeBlock (owned : Owned setup h f place) (held : 0 < (h.blocks id).getCount stream) :
    ∃ h', h.freeBlock stream id = some h' ∧
      ((∃ place', (∀ other, ¬ (dropCount (h.blocks id) stream).2.Marks stream other) ∧
          Owned setup h' f place' ∧ Recycled h h' place place' stream id) ∨
        h' = letGo h id (h.blocks id) stream ∧ Owned setup h' f place) := by
  have inUse := owned.inUse_of_count held
  have state := owned.state id
  rw [inUse] at state
  obtain ⟨memory,birth,disciplined,rows⟩ := state
  have same : h.setBlock id (h.blocks id) = h := by simp [setBlock]
  have spec := owned.free_spec few inUse ⟨rfl,rfl,rfl⟩ disciplined stream (fun row _ => rows row)
  rw [same] at spec
  refine ⟨h.free stream id,by simp [Heap.freeBlock,memory,birth],?_⟩
  rcases spec with recycled | ⟨result,-,owned'⟩
  · exact .inl recycled
  · exact .inr ⟨result,owned'⟩

theorem Sound.free (sound : Sound setup s place) (held : 0 < (s.heap.blocks id).getCount stream) :
    ∃ heap place', (s.heap.log stream (.release (s.heap.versionBlock id))).freeBlock stream id = some heap ∧
      Sound setup {s with heap := heap} place' := by
  have owned := sound.owned.log stream (.release (s.heap.versionBlock id)) trivial
  have delivered : Delivered setup (s.heap.log stream (.release (s.heap.versionBlock id))) s.flight place :=
    sound.delivered
  have inUse := sound.owned.inUse_of_count held
  have state := sound.owned.state id
  rw [inUse] at state
  obtain ⟨heap,freed,⟨place',-,owned',effect⟩ | ⟨result,owned'⟩⟩ := owned.freeBlock few held
  · refine ⟨heap,place',freed,owned',delivered.recycled effect,?_⟩
    intro event quiet
    rw [pending_recycled effect] at quiet
    exact sound.quiet event quiet
  · refine ⟨heap,place,freed,owned',?_,?_⟩
    · rw [result]
      exact delivered.dropped few inUse state.2.2.1 stream
    · intro event quiet
      apply sound.quiet event
      rw [result,letGo] at quiet
      split at quiet <;> exact quiet

theorem Sound.sendEvent (sound : Sound setup s place) (event : ε) :
    Sound setup (s.sendEvent setup event) (sentPlace setup event place) := by
  refine ⟨sound.owned.sendEvent event,sound.delivered.sendEvent few event,?_⟩
  intro other quiet
  change (if event = other then true else pending other s.heap.trace) = false at quiet
  split at quiet
  next => cases quiet
  next away =>
    have spaces : (s.sendEvent setup event).spaces other = s.spaces other := by
      simp [System.sendEvent,Ne.symm away]
    rw [spaces]
    exact sound.quiet other quiet

end

/-- The flight while an event is being waited for: what is left of its news and of its blocks. -/
def leftover (f : Flight n ε) (event : ε) (news : List (VersionBlock (BlockId n))) (blocks : List (BlockId n)) :
    Flight n ε := ⟨Function.update f.news event news,Function.update f.migrations (some event) blocks⟩

theorem leftover_self (s : System n ε) (event : ε) : leftover s.flight event (s.spaces event).blockFreeBySrcStream
    (s.spaces event).blockNeedReturnBirth = s.flight := by
  have news : s.flight.news event = (s.spaces event).blockFreeBySrcStream := rfl
  have blocks : s.flight.migrations (some event) = (s.spaces event).blockNeedReturnBirth := rfl
  rw [leftover,← news,← blocks,update_eq_self,update_eq_self]

theorem leftover_flight (s : System n ε) (heap : Heap n ε) (event : ε) (space : EventSpace n) :
    (⟨heap,update s.spaces event space⟩ : System n ε).flight =
      leftover s.flight event space.blockFreeBySrcStream space.blockNeedReturnBirth := by
  have news : ∀ other, (⟨heap,update s.spaces event space⟩ : System n ε).flight.news other =
      (leftover s.flight event space.blockFreeBySrcStream space.blockNeedReturnBirth).news other := by
    intro other
    by_cases here : other = event
    · subst here; simp [System.flight,leftover]
    · simp [System.flight,leftover,here]
  have blocks : ∀ carrier, (⟨heap,update s.spaces event space⟩ : System n ε).flight.migrations carrier =
      (leftover s.flight event space.blockFreeBySrcStream space.blockNeedReturnBirth).migrations carrier := by
    intro carrier
    cases carrier with
    | none => simp [System.flight,leftover]
    | some other =>
      by_cases here : other = event
      · subst here; simp [System.flight,leftover]
      · simp [System.flight,leftover,here]
  rw [show (⟨heap,update s.spaces event space⟩ : System n ε).flight = ⟨_,_⟩ from rfl]
  exact congrArg₂ Flight.mk (funext news) (funext blocks)

/-- The heap between two turns of the loops of `WaitEvent`. -/
structure Waiting (setup : Setup n ε) (s : System n ε) (event : ε) (news : List (VersionBlock (BlockId n)))
    (blocks : List (BlockId n)) (h : Heap n ε) (place : BlockId n → Place n ε) : Prop where
  owned : Owned setup h (leftover s.flight event news blocks) place
  delivered : Delivered setup h (leftover s.flight event news blocks) place
  quiet : ∀ other, pending other h.trace = if event = other then false else pending other s.heap.trace

theorem Waiting.hear (few : n ≤ 63) {rest : List (VersionBlock (BlockId n))} {blocks : List (BlockId n)}
    (waiting : Waiting setup s event (news :: rest) blocks h place) :
    ∃ h' place', System.waitBlock (setup.info event) h news = some (.success,h') ∧
      Waiting setup s event rest blocks h' place' ∧
      Heard setup (setup.info event) h h' (leftover s.flight event (news :: rest) blocks) place place' news := by
  have timely := waiting.owned.news event news (by simp [leftover])
  obtain ⟨h',place',done,owned,heard⟩ := waitBlock_spec few waiting.owned (setup.info event) timely
  refine ⟨h',place',done,⟨?_,?_,?_⟩,heard⟩
  · have fewer : ∀ other, (leftover s.flight event rest blocks).news other ⊆
        (leftover s.flight event (news :: rest) blocks).news other := by
      intro other
      by_cases here : other = event
      · subst here; simp [leftover]
      · simp [leftover,here]
    exact owned.announce _ fun other news member => .inl (fewer other member)
  · apply waiting.delivered.heard few waiting.owned heard
    intro other message member
    by_cases here : other = event
    · subst here
      simp only [leftover,update_self,List.mem_cons] at member ⊢
      rcases member with same | old
      · exact .inr ⟨trivial,same⟩
      · exact .inl old
    · simp only [leftover,update_of_ne here] at member ⊢
      exact .inl member
  · intro other
    rw [← waiting.quiet]
    cases heard with
    | stale _ same _ => rw [same]
    | merged _ _ _ block => rw [block]; rfl
    | recycled _ _ _ effect => exact pending_recycled effect other

theorem Waiting.giveBack {rest : List (BlockId n)} (waiting : Waiting setup s event [] (id :: rest) h place) :
    ∃ h' place', System.returnBlock (setup.info event).logicDstStream h id = some (.success,h') ∧
      Waiting setup s event [] rest h' place' ∧ Recycled h h' place place' id.pool id ∧
      place id = .migrating (some event) := by
  have top : (leftover s.flight event [] (id :: rest)).migrations (some event) = id :: rest := by simp [leftover]
  obtain ⟨h',place',done,owned,effect,away⟩ := returnBlock_spec waiting.owned top
  have home := waiting.owned.homeward event id away
  have left : {leftover s.flight event [] (id :: rest) with
      migrations := update (leftover s.flight event [] (id :: rest)).migrations (some event) rest} =
      leftover s.flight event [] rest := by
    simp [leftover]
  refine ⟨h',place',?_,⟨?_,?_,?_⟩,effect,away⟩
  · rw [System.returnBlock,← home,done]
  · exact left ▸ owned
  · have delivered := waiting.delivered.recycled effect
    exact delivered
  · intro other
    rw [pending_recycled effect,waiting.quiet]

theorem Sound.waiting (sound : Sound setup s place) (event : ε) :
    Waiting setup s event (s.spaces event).blockFreeBySrcStream (s.spaces event).blockNeedReturnBirth
      (s.heap.log (setup.info event).logicDstStream (.waitEvent event)) place := by
  refine ⟨?_,?_,fun _ => rfl⟩
  · rw [leftover_self]
    exact sound.owned.log _ (.waitEvent event) trivial
  · rw [leftover_self]
    exact sound.delivered

theorem Waiting.done (sound : Sound setup s place) (waiting : Waiting setup s event [] [] h place') :
    Sound setup ⟨h,update s.spaces event ⟨[],[]⟩⟩ place' := by
  have flight := leftover_flight s h event ⟨[],[]⟩
  refine ⟨?_,?_,?_⟩
  · rw [flight]
    exact waiting.owned
  · rw [flight]
    exact waiting.delivered
  · intro other quiet
    have before := waiting.quiet other
    by_cases here : other = event
    · subst here; simp
    · rw [if_neg (Ne.symm here),quiet] at before
      simpa [here] using sound.quiet other before.symm

theorem Sound.waitEvent (few : n ≤ 63) (sound : Sound setup s place) (event : ε) :
    ∃ s' place', s.waitEvent setup event = some (.success,s') ∧ Sound setup s' place' := by
  obtain ⟨h,waited,place',waiting⟩ := System.waitEvent_rule
    (fun news blocks h => ∃ place', Waiting setup s event news blocks h place')
    (by
      rintro news rest blocks h ⟨place',waiting⟩
      obtain ⟨h',place'',done,waiting',-⟩ := waiting.hear few
      exact ⟨h',done,place'',waiting'⟩)
    (by
      rintro id rest h ⟨place',waiting⟩
      obtain ⟨h',place'',done,waiting',-⟩ := waiting.giveBack
      exact ⟨h',done,place'',waiting'⟩)
    ⟨place,sound.waiting event⟩
  exact ⟨_,place',waited,waiting.done sound⟩

theorem Sound.step (few : n ≤ 63) (sound : Sound setup s place) {action : System.Step n ε} {status : GraphStatus}
    (allowed : s.Allowed action) (done : s.step setup action = some (status,s')) :
    status = .success ∧ ∃ place', Sound setup s' place' := by
  cases action with
  | malloc stream size own =>
    cases reply : s.heap.malloc setup.order setup.extendSize stream size own with
    | none => simp [System.step,reply] at done
    | some result =>
      simp only [System.step,reply,map_some,some.injEq,Prod.mk.injEq] at done
      obtain ⟨rfl,rfl⟩ := done
      exact ⟨rfl,sound.malloc few reply⟩
  | addCount stream id =>
    cases done
    exact ⟨rfl,place,sound.addCount allowed⟩
  | newAccessStream src dst id =>
    cases done
    exact ⟨rfl,place,sound.newAccessStream few dst allowed⟩
  | free stream id =>
    obtain ⟨heap,place',freed,sound'⟩ := sound.free few allowed
    simp only [System.step,freed,map_some,some.injEq,Prod.mk.injEq] at done
    obtain ⟨rfl,rfl⟩ := done
    exact ⟨rfl,place',sound'⟩
  | sendEvent event =>
    cases done
    exact ⟨rfl,_,sound.sendEvent few event⟩
  | waitEvent event =>
    obtain ⟨s'',place',waited,sound'⟩ := sound.waitEvent few event
    simp only [System.step,waited,some.injEq,Prod.mk.injEq] at done
    obtain ⟨rfl,rfl⟩ := done
    exact ⟨rfl,place',sound'⟩

theorem sound_of_run (few : n ≤ 63) {history : List (System n ε × System.Step n ε)}
    (run : System.Run setup history s) : ∃ place, Sound setup s place := by
  induction run with
  | start => exact ⟨_,sound_initial⟩
  | next _ allowed done ih =>
    obtain ⟨place,sound⟩ := ih
    exact (sound.step few allowed done).2

namespace System

variable (s : System n ε) (id : BlockId n)

def Held : Prop := ∃ stream, 0 < (s.heap.blocks id).getCount stream

/-- News of the current version of the block waits in a local-recycle list or is in flight. -/
def PendingLocalRecycle : Prop :=
  (∃ stream, ∃ entry ∈ (s.heap.allocators stream).localRecycleBlocks, entry.versionBlock = s.heap.versionBlock id) ∨
    ∃ event, s.heap.versionBlock id ∈ (s.spaces event).blockFreeBySrcStream

inductive Station (n : Nat) (ε : Type) where
  | use
  | borrowPool (stream : Fin n)
  | migration (event : ε)
  | birthPool

def At : Station n ε → Prop
  | .use => s.Held id ∨ s.PendingLocalRecycle id
  | .borrowPool stream => ∃ birth, id ∈ (s.heap.allocators stream).borrowAllocator.streamToBorrowBlock birth
  | .migration event => id ∈ (s.spaces event).blockNeedReturnBirth
  | .birthPool => id ∈ (s.heap.allocators id.pool).msBlockPool.free

def Constructed : Prop := id.index < (s.heap.allocators id.pool).msBlockPool.constructed

end System

section Places
variable {id : BlockId n} (sound : Sound setup s place)
include sound

theorem Sound.at_use : s.At id .use ↔ place id = .inUse := by
  constructor
  · rintro (⟨stream,held⟩ | ⟨stream,entry,member,current⟩ | ⟨event,member⟩)
    · exact sound.owned.inUse_of_count held
    · have timely := sound.owned.entries stream entry member
      rw [current] at timely
      exact timely.2 rfl
    · exact (sound.owned.news event _ member).2 rfl
  · intro inUse
    have state := sound.owned.state id
    rw [inUse] at state
    obtain ⟨-,-,disciplined,rows⟩ := state
    by_cases held : s.Held id
    · exact .inl held
    · have clear : ∀ stream, ¬ (s.heap.blocks id).Marks stream stream := by
        intro stream own
        exact held ⟨stream,(disciplined.own stream).mp own⟩
      obtain ⟨owner,marked⟩ := rows id.pool
      have apart : owner ≠ id.pool := by
        rintro rfl
        exact clear _ marked
      rcases sound.delivered id inUse owner id.pool apart (clear owner) marked with
        ⟨entry,member,current,-⟩ | ⟨event,-,-,member⟩
      · exact .inr (.inl ⟨owner,entry,member,current⟩)
      · exact .inr (.inr ⟨event,member⟩)

theorem Sound.at_borrowPool (stream : Fin n) : s.At id (.borrowPool stream) ↔ place id = .borrowed stream := by
  have streamed := (sound.owned.borrowed stream).streamed
  constructor
  · rintro ⟨birth,member⟩
    exact ((streamed birth id).mp member).1
  · intro lent
    exact ⟨_,(streamed (s.heap.getBirthStreamId id) id).mpr ⟨lent,rfl⟩⟩

theorem Sound.at_birthPool : s.At id .birthPool ↔ place id = .returned := by
  change id ∈ _ ↔ _
  rw [sound.owned.returned]
  exact and_iff_right rfl

theorem Sound.station (constructed : s.Constructed id) : ∃! station, s.At id station := by
  have use : s.At id .use ↔ place id = .inUse := sound.at_use
  have lent : ∀ stream, s.At id (.borrowPool stream) ↔ place id = .borrowed stream := sound.at_borrowPool
  have away : ∀ event, s.At id (.migration event) ↔ place id = .migrating (some event) :=
    fun event => sound.owned.migrating (some event) id
  have back : s.At id .birthPool ↔ place id = .returned := sound.at_birthPool
  have once : ∀ station, s.At id station → ∃! station, s.At id station := by
    intro station here
    refine ⟨station,here,fun other there => ?_⟩
    cases station <;> cases other <;> simp_all
  cases at_ : place id with
  | fresh => exact absurd ((sound.owned.fresh id).mp at_) (not_le.mpr constructed)
  | returned => exact once .birthPool (back.mpr at_)
  | inUse => exact once .use (use.mpr at_)
  | borrowed stream => exact once (.borrowPool stream) ((lent stream).mpr at_)
  | migrating carrier =>
    cases carrier with
    | none =>
      have inside := (sound.owned.migrating none id).mpr at_
      simp [System.flight] at inside
    | some event => exact once (.migration event) ((away event).mpr at_)

end Places

section Trace
variable {trace newer middle older : List (Point n ε)} {point : Point n ε} {block : VersionBlock (BlockId n)}
  {occupied : Fin n → Nat}

omit [DecidableEq ε]

theorem Honest.suffix (honest : Honest (newer ++ older)) : Honest older := by
  induction newer with
  | nil => exact honest
  | cons _ newer ih => exact ih honest.1

theorem Honest.unheld (honest : Honest trace) (member : point ∈ trace)
    (recycled : point.mark = .birthRecycle block occupied ∨ point.mark = .borrowRecycle block occupied)
    (stream : Fin n) : occupied stream = 0 := by
  obtain ⟨newer,older,rfl⟩ := List.append_of_mem member
  have here := honest.suffix.2
  rcases recycled with birth | borrow
  · rw [birth] at here
    exact here.1 stream
  · rw [borrow] at here
    exact here stream

theorem acquired_between {id : BlockId n} (returned : point.mark = .birthRecycle block occupied) (same : block.block = id)
    (out : outstanding id (middle ++ point :: older) = true) :
    ∃ between ∈ middle, ∃ acquired, between.mark = .acquire acquired ∧ acquired.block = id := by
  induction middle with
  | nil => simp [outstanding,returned,same] at out
  | cons between middle ih =>
    have later : outstanding id (middle ++ point :: older) = true →
        ∃ other ∈ between :: middle, ∃ acquired, other.mark = .acquire acquired ∧ acquired.block = id := by
      intro still
      obtain ⟨other,member,found⟩ := ih still
      exact ⟨other,List.mem_cons_of_mem _ member,found⟩
    cases mark : between.mark with
    | acquire acquired =>
      by_cases here : acquired.block = id
      · exact ⟨between,List.mem_cons_self,acquired,mark,here⟩
      · exact later (by simpa [outstanding,mark,here] using out)
    | birthRecycle other count =>
      by_cases here : other.block = id
      · simp [outstanding,mark,here] at out
      · exact later (by simpa [outstanding,mark,here] using out)
    | borrow | release | borrowRecycle | recordEvent | waitEvent =>
      exact later (by simpa [outstanding,mark] using out)

end Trace

structure OwnershipInvariant (setup : Setup n ε) (s : System n ε) : Prop where
  recycledUnheld : ∀ point ∈ s.heap.trace, ∀ block occupied,
    point.mark = .birthRecycle block occupied ∨ point.mark = .borrowRecycle block occupied →
      ∀ stream, occupied stream = 0
  flagKnown : ∀ id stream, (s.heap.blocks id).Marks stream stream → ∀ row, (s.heap.blocks id).Marks row stream
  waitSucceeds : ∀ event, ∃ s', s.waitEvent setup event = some (.success,s')
  stepSucceeds : ∀ action status s', s.Allowed action → s.step setup action = some (status,s') → status = .success
  station : ∀ id, s.Constructed id → ∃! station, s.At id station
  returnedOnce : ∀ newer second middle first older block occupied block' occupied',
    s.heap.trace = newer ++ second :: (middle ++ first :: older) → second.mark = .birthRecycle block occupied →
      first.mark = .birthRecycle block' occupied' → block'.block = block.block →
        ∃ between ∈ middle, ∃ acquired, between.mark = .acquire acquired ∧ acquired.block = block.block

theorem Sound.flagKnown (sound : Sound setup s place) (id : BlockId n) (stream : Fin n)
    (own : (s.heap.blocks id).Marks stream stream) (row : Fin n) : (s.heap.blocks id).Marks row stream := by
  have state := sound.owned.state id
  cases at_ : place id with
  | inUse => rw [at_] at state; exact state.2.2.1.known stream own row
  | fresh => rw [at_] at state; exact absurd own (state.2 stream).2
  | returned => rw [at_] at state; exact absurd own (state.2 stream).2
  | borrowed => rw [at_] at state; simp [MultiStreamMemBlock.Marks,state.2.2.1] at own
  | migrating => rw [at_] at state; simp [MultiStreamMemBlock.Marks,state.2.2.1] at own

/-- In every run on at most 63 streams a held block is never recycled, the assertions hold, and each block is in one place
and returned once for each acquisition. -/
theorem ownershipInvariant_of_run (setup : Setup n ε) (few : n ≤ 63) (history : List (System n ε × System.Step n ε))
    (s : System n ε) (run : System.Run setup history s) : OwnershipInvariant setup s := by
  obtain ⟨place,sound⟩ := sound_of_run few run
  refine ⟨?_,sound.flagKnown,?_,?_,fun id constructed => sound.station constructed,?_⟩
  · intro point member block occupied recycled stream
    exact sound.owned.honest.unheld member recycled stream
  · intro event
    obtain ⟨s',-,done,-⟩ := sound.waitEvent few event
    exact ⟨s',done⟩
  · intro action status s' allowed done
    exact (sound.step few allowed done).1
  · intro newer second middle first older block occupied block' occupied' trace again before same
    have honest := sound.owned.honest
    rw [trace] at honest
    have here := honest.suffix.2
    rw [again] at here
    exact acquired_between before same here.2

def threeStreams : Setup 3 (Fin 3) where
  order := IterationOrder.insertion
  extendSize := kPoolSize
  info
    | 0 => ⟨0,2⟩
    | 1 => ⟨1,0⟩
    | 2 => ⟨2,0⟩

def firstBlock : BlockId 3 := ⟨0,999⟩

def sharedOnce : List (System.Step 3 (Fin 3)) :=
  [.waitEvent 2,.sendEvent 2,.free 2 firstBlock,.free 0 firstBlock,.newAccessStream 0 2 firstBlock,
    .malloc 0 64 (some 64)]

def leftAnnounced : List (System.Step 3 (Fin 3)) :=
  [.free 2 firstBlock,.free 0 firstBlock,.newAccessStream 0 2 firstBlock,.malloc 0 64 (some 64)]

/-- A block of stream 0 that streams 1 and 2 use too. Stream 0 sends event 0 to stream 2 and then hears from stream 1; stream
2, which waits for event 0, takes over that news. -/
def heardMeanwhile : List (System.Step 3 (Fin 3)) :=
  [.waitEvent 0,.free 2 firstBlock,.waitEvent 1,.sendEvent 1,.free 1 firstBlock,.sendEvent 0,.free 0 firstBlock,
    .newAccessStream 0 2 firstBlock,.newAccessStream 0 1 firstBlock,.malloc 0 64 (some 64)]

theorem ownershipInvariant_of_sharedOnce : ∃ history s,
    System.play threeStreams sharedOnce = some (history,s) ∧ OwnershipInvariant threeStreams s := by
  obtain ⟨⟨history,s⟩,played⟩ := isSome_iff_exists.mp
    (show (System.play threeStreams sharedOnce).isSome = true by decide +kernel)
  exact ⟨history,s,played,ownershipInvariant_of_run threeStreams (by decide) history s (System.run_of_play played)⟩

end GraphEngine.Memory

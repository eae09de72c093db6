import GraphEngine.Memory.DeviceOrder

/-! Runs in which every wait hears of a block only while the sender's row is the one the event was sent with: there a recycle
comes after every release by another stream. Otherwise memory can be reused that another stream still reads. -/
namespace GraphEngine.Memory
open GraphEngine.Lib Causality Function Heap MultiStreamMemBlock Option

variable {n : Nat} {ε : Type} [DecidableEq ε] {setup : Setup n ε} {place place' : BlockId n → Place n ε} {id : BlockId n}

/-- No flag of the row that the source of the event keeps for the block was cleared since the event
was sent last. -/
def RowKept (setup : Setup n ε) (event : ε) (id : BlockId n) : List (System n ε × System.Step n ε) → System n ε → Prop
  | [],_ => False
  | (before,action) :: older,now => action = .sendEvent event ∨
      (∀ stream, (before.heap.blocks id).Marks (setup.info event).logicSrcStream stream →
        (now.heap.blocks id).Marks (setup.info event).logicSrcStream stream) ∧ RowKept setup event id older before

/-- Every wait of the run hears only of blocks whose row at the source has lost no flag since the
event was sent. -/
def Undisturbed (setup : Setup n ε) : List (System n ε × System.Step n ε) → Prop
  | [] => True
  | (before,.waitEvent event) :: older => Undisturbed setup older ∧
      ∀ news ∈ (before.spaces event).blockFreeBySrcStream, news.version = before.heap.getVersion news.block →
        RowKept setup event news.block older before
  | _ :: older => Undisturbed setup older

instance decidableRowKept (setup : Setup n ε) (event : ε) (id : BlockId n) :
    (history : List (System n ε × System.Step n ε)) → (s : System n ε) → Decidable (RowKept setup event id history s)
  | [],_ => isFalse False.elim
  | (before,_) :: older,_ =>
    have := decidableRowKept setup event id older before
    inferInstanceAs (Decidable (_ ∨ _ ∧ _))

instance decidableUndisturbed (setup : Setup n ε) :
    (history : List (System n ε × System.Step n ε)) → Decidable (Undisturbed setup history)
  | [] => isTrue trivial
  | (_,.waitEvent _) :: older =>
    have := decidableUndisturbed setup older
    inferInstanceAs (Decidable (_ ∧ ∀ _ ∈ _, _))
  | (_,.malloc ..) :: older | (_,.addCount ..) :: older | (_,.newAccessStream ..) :: older
  | (_,.free ..) :: older | (_,.sendEvent _) :: older => decidableUndisturbed setup older

/-- The clock of an event covers the releases that its source's row has seen, as long as the row is
kept. -/
structure Traced (setup : Setup n ε) (history : List (System n ε × System.Step n ε)) (s : System n ε)
    (place : BlockId n → Place n ε) : Prop where
  sound : Sound setup s place
  causal : Causal s.heap place
  recorded : ∀ event id, RowKept setup event id history s → ∀ stream i,
    ¬ (s.heap.blocks id).Marks (setup.info event).logicSrcStream stream → Released s.heap i stream id →
      i ∈ (clock deviceView s.heap.trace).sent event

section Steps
variable {s s' : System n ε} {history : List (System n ε × System.Step n ε)} {action : System.Step n ε}

omit [DecidableEq ε] in
theorem silent_event (event : ε) : Silent (.recordEvent event : Mark n ε) ∧ Silent (.waitEvent event : Mark n ε) := by
  constructor <;> exact fun other => ⟨by simp,by rintro ⟨occupied,same | same⟩ <;> cases same⟩

/-- Between two turns of the loops of `WaitEvent` the waiting stream knows of the releases that the
rest of the news speaks of. -/
structure Hearing (setup : Setup n ε) (s : System n ε) (event : ε) (news : List (VersionBlock (BlockId n)))
    (blocks : List (BlockId n)) (h : Heap n ε) (place : BlockId n → Place n ε) : Prop where
  waiting : Waiting setup s event news blocks h place
  causal : Causal h place
  carried : Carried s.heap h
  informed : ∀ message ∈ news, message = h.versionBlock message.block → ∀ stream i,
    ¬ (h.blocks message.block).Marks (setup.info event).logicSrcStream stream → Released h i stream message.block →
      Knows h (setup.info event).logicDstStream i

section Turns
variable {event : ε} {h : Heap n ε}

theorem Hearing.hear (few : n ≤ 63) {news : VersionBlock (BlockId n)} {rest : List (VersionBlock (BlockId n))}
    {blocks : List (BlockId n)} (hearing : Hearing setup s event (news :: rest) blocks h place) :
    ∃ h' place', System.waitBlock (setup.info event) h news = some (.success,h') ∧
      Hearing setup s event rest blocks h' place' := by
  obtain ⟨h',place',done,waiting,heard⟩ := hearing.waiting.hear few
  refine ⟨h',place',done,?_⟩
  have fewer : ∀ message ∈ rest, message ∈ news :: rest := fun message member => List.mem_cons_of_mem _ member
  cases heard with
  | stale old same stay =>
    subst same stay
    exact ⟨waiting,hearing.causal,hearing.carried,fun message member => hearing.informed message (fewer message member)⟩
  | merged current inUse stay block =>
    have informed := hearing.informed news List.mem_cons_self current
    have version : ((h.blocks news.block).mergeClearedFrom (setup.info event).logicSrcStream
        (setup.info event).logicDstStream).version = h.getVersion news.block := rfl
    have carried := carried_setBlock version
    subst block stay
    refine ⟨waiting,?_,hearing.carried.trans carried,?_⟩
    · apply hearing.causal.setBlock version
      intro row stream i clear marked released
      rw [marks_mergeClearedFrom few] at clear
      obtain ⟨rfl,unmarked⟩ : row = (setup.info event).logicDstStream ∧
          ¬ (h.blocks news.block).Marks (setup.info event).logicSrcStream stream := by
        by_contra apart
        exact clear ⟨marked,fun here => by_contra fun unmarked => apart ⟨here,unmarked⟩⟩
      exact informed stream i unmarked released
    · intro message member same stream i clear released
      have before := carried.released message.block i stream released
      have unchanged : (h.setBlock news.block ((h.blocks news.block).mergeClearedFrom (setup.info event).logicSrcStream
          (setup.info event).logicDstStream)).versionBlock message.block = h.versionBlock message.block := by
        by_cases here : message.block = news.block
        · rw [here]; simp [versionBlock,getVersion,mergeClearedFrom]
        · simp [versionBlock,getVersion,here]
      apply hearing.informed message (fewer message member) (same.trans unchanged) stream i _ before
      intro marked
      apply clear
      by_cases here : message.block = news.block
      · rw [here,setBlock_blocks,update_self,marks_mergeClearedFrom few]
        rw [here] at marked
        exact ⟨marked,fun _ => marked⟩
      · rwa [setBlock_blocks,update_of_ne here]
  | recycled current inUse blank effect =>
    have informed := hearing.informed news List.mem_cons_self current
    have causal : Causal h' place' := by
      apply hearing.causal.recycled effect
      intro other i apart released
      by_cases marked : (h.blocks news.block).Marks (setup.info event).logicDstStream other
      · apply informed other i _ released
        intro sender
        exact blank other ((marks_mergeClearedFrom few ..).mpr ⟨marked,fun _ => sender⟩)
      · exact hearing.causal.known news.block _ other i marked released
    have carried := effect.carried hearing.causal
    refine ⟨waiting,causal,hearing.carried.trans carried,?_⟩
    intro message member same stream i clear released
    by_cases here : message.block = news.block
    · have use := (causal.timely i stream _ released).2 rfl
      simp only [versionBlock] at use
      rw [here,effect.left] at use
      split at use <;> cases use
    · have record := (effect.kept message.block here).1
      rw [record] at clear
      have unchanged : h'.versionBlock message.block = h.versionBlock message.block := by
        simp [versionBlock,getVersion,record]
      have known := hearing.informed message (fewer message member) (same.trans unchanged) stream i clear
        (carried.released message.block i stream released)
      obtain ⟨occupied,trace | trace⟩ := effect.trace
      all_goals
        rw [Knows,trace]
        exact known_subset_cons _ _ _ known

theorem Hearing.giveBack {rest : List (BlockId n)} (hearing : Hearing setup s event [] (id :: rest) h place) :
    ∃ h' place', System.returnBlock (setup.info event).logicDstStream h id = some (.success,h') ∧
      Hearing setup s event [] rest h' place' := by
  obtain ⟨h',place',done,waiting,effect,away⟩ := hearing.waiting.giveBack
  refine ⟨h',place',done,waiting,?_,hearing.carried.trans (effect.carried hearing.causal),by simp⟩
  apply hearing.causal.recycled effect
  intro other i apart released
  have use : place id = .inUse := (hearing.causal.timely i other _ released).2 rfl
  rw [away] at use
  cases use

end Turns

variable (traced : Traced setup history s place)
include traced

theorem Traced.recorded_next (unrecorded : ∀ event, action ≠ .sendEvent event)
    (released : ∀ id i stream, Released s'.heap i stream id →
      Released s.heap i stream id ∨ ∀ row, (s.heap.blocks id).Marks row stream)
    (sent : ∀ event, (clock deviceView s'.heap.trace).sent event = (clock deviceView s.heap.trace).sent event)
    (event : ε) (id : BlockId n) (kept : RowKept setup event id ((s,action) :: history) s') (stream : Fin n) (i : Nat)
    (clear : ¬ (s'.heap.blocks id).Marks (setup.info event).logicSrcStream stream)
    (there : Released s'.heap i stream id) : i ∈ (clock deviceView s'.heap.trace).sent event := by
  rcases kept with send | ⟨still,kept⟩
  · exact absurd send (unrecorded event)
  · have before : ¬ (s.heap.blocks id).Marks (setup.info event).logicSrcStream stream :=
      fun marked => clear (still stream marked)
    rw [sent]
    rcases released id i stream there with old | held
    · exact traced.recorded event id kept stream i before old
    · exact absurd (held _) before

variable {stream : Fin n} {heap : Heap n ε}

theorem Traced.malloc (few : n ≤ 63) {size : Nat} {own : Option Nat} {opened : Option (BlockId n)}
    (done : s.heap.malloc setup.order setup.extendSize stream size own = some (opened,heap)) :
    ∃ place', Traced setup ((s,.malloc stream size own) :: history) {s with heap := heap} place' := by
  obtain ⟨place',owned,effect⟩ := traced.sound.owned.malloc few done
  have carried := effect.carried
  refine ⟨place',⟨owned,traced.sound.delivered.opened effect,?_⟩,traced.causal.opened effect,?_⟩
  · intro event quiet
    rw [pending_opened effect] at quiet
    exact traced.sound.quiet event quiet
  · exact traced.recorded_next (by simp) (fun id i stream there => .inl (carried.released id i stream there)) carried.sent

theorem Traced.touch {block : MultiStreamMemBlock n}
    (unrecorded : ∀ event, action ≠ .sendEvent event) (version : block.version = s.heap.getVersion id)
    (more : ∀ row stream, (s.heap.blocks id).Marks row stream → block.Marks row stream)
    (sound : Sound setup {s with heap := s.heap.setBlock id block} place) :
    Traced setup ((s,action) :: history) {s with heap := s.heap.setBlock id block} place := by
  refine ⟨sound,?_,?_⟩
  · apply traced.causal.setBlock version
    intro row stream i clear marked
    exact absurd (more row stream marked) clear
  · have carried : Carried s.heap (s.heap.setBlock id block) := carried_setBlock version
    exact traced.recorded_next unrecorded (fun id i stream there => .inl (carried.released id i stream there)) carried.sent

theorem Traced.free (few : n ≤ 63) (held : 0 < (s.heap.blocks id).getCount stream)
    (done : (s.heap.log stream (.release (s.heap.versionBlock id))).freeBlock stream id = some heap) :
    ∃ place', Traced setup ((s,.free stream id) :: history) {s with heap := heap} place' := by
  have inUse := traced.sound.owned.inUse_of_count held
  have state := traced.sound.owned.state id
  rw [inUse] at state
  have disciplined := state.2.2.1
  have marked : ∀ row, (s.heap.blocks id).Marks row stream :=
    disciplined.known stream ((disciplined.own stream).mpr held)
  have owned := traced.sound.owned.log stream (.release (s.heap.versionBlock id)) trivial
  have causal := traced.causal.release inUse marked
  have unsent : ∀ event, (clock deviceView (s.heap.log stream (.release (s.heap.versionBlock id))).trace).sent event =
      (clock deviceView s.heap.trace).sent event := by
    intro event
    exact sent_cons (by simp [deviceView]) _
  have new : ∀ other i at_, Released (s.heap.log stream (.release (s.heap.versionBlock id))) i at_ other →
      Released s.heap i at_ other ∨ ∀ row, (s.heap.blocks other).Marks row at_ := by
    rintro other i at_ (⟨-,same⟩ | earlier)
    · have block : other = id := congrArg VersionBlock.block (Mark.release.inj (congrArg Point.mark same))
      have by_ : at_ = stream := congrArg Point.stream same
      rw [block,by_]
      exact .inr marked
    · exact .inl earlier
  have delivered : Delivered setup (s.heap.log stream (.release (s.heap.versionBlock id))) s.flight place :=
    traced.sound.delivered
  obtain ⟨heap',freed,outcome⟩ := owned.freeBlock few held
  obtain rfl := some.inj (freed.symm.trans done)
  rcases outcome with ⟨place',blank,owned',effect⟩ | ⟨result,owned'⟩
  · have dropped := dropCount_spec few disciplined stream
    have carried := effect.carried causal
    refine ⟨place',⟨owned',delivered.recycled effect,?_⟩,causal.recycled effect ?_,?_⟩
    · intro event quiet
      rw [pending_recycled effect] at quiet
      exact traced.sound.quiet event quiet
    · intro other i apart released
      apply causal.known id stream other i _ released
      intro marks
      exact blank other ((dropped.marks stream other).mpr ⟨marks,fun all => apart all.2.1⟩)
    · exact traced.recorded_next (by simp) (fun other i at_ there => new other i at_ (carried.released other i at_ there))
        fun event => (carried.sent event).trans (unsent event)
  · have carried : Carried (s.heap.log stream (.release (s.heap.versionBlock id))) heap' := by
      have dropped := dropCount_spec few disciplined stream
      have touched := carried_setBlock (h := s.heap.log stream (.release (s.heap.versionBlock id))) dropped.same.version
      rw [result,letGo]
      split
      · exact ⟨touched.released,touched.sent⟩
      · exact touched
    refine ⟨place,⟨owned',?_,?_⟩,?_,?_⟩
    · rw [result]
      exact delivered.dropped few inUse disciplined stream
    · intro event quiet
      apply traced.sound.quiet event
      rw [result,letGo] at quiet
      split at quiet <;> exact quiet
    · rw [result]
      exact causal.dropped few disciplined stream
    · exact traced.recorded_next (by simp) (fun other i at_ there => new other i at_ (carried.released other i at_ there))
        fun event => (carried.sent event).trans (unsent event)

theorem Traced.sendEvent (few : n ≤ 63) (event : ε) :
    Traced setup ((s,.sendEvent event) :: history) (s.sendEvent setup event) (sentPlace setup event place) := by
  refine ⟨traced.sound.sendEvent few event,?_,?_⟩
  · have moved : Causal s.heap (sentPlace setup event place) :=
      {traced.causal with timely := fun i stream block at_ =>
        have old := traced.causal.timely i stream block at_
        ⟨old.1,fun same => (carriedPlace_iff (by simp) (by simp) _).mpr (old.2 same)⟩}
    exact (moved.setAllocator _ _).log _ (silent_event event).1
  · intro other id kept stream i clear there
    have released : Released s.heap i stream id := by
      rcases there with ⟨-,same⟩ | earlier
      · cases congrArg Point.mark same
      · exact earlier
    by_cases here : event = other
    · subst here
      exact known_subset_record (by rfl) _ (traced.causal.known id _ stream i clear released)
    · rcases kept with send | ⟨-,kept⟩
      · exact absurd (System.Step.sendEvent.inj send) here
      · have unsent : (clock deviceView (s.sendEvent setup event).heap.trace).sent other =
            (clock deviceView s.heap.trace).sent other :=
          sent_cons (fun record => here (Action.record.inj record)) _
        rw [unsent]
        exact traced.recorded other id kept stream i clear released

theorem Traced.hearing (event : ε)
    (kept : ∀ news ∈ (s.spaces event).blockFreeBySrcStream, news.version = s.heap.getVersion news.block →
      RowKept setup event news.block history s) :
    Hearing setup s event (s.spaces event).blockFreeBySrcStream (s.spaces event).blockNeedReturnBirth
      (s.heap.log (setup.info event).logicDstStream (.waitEvent event)) place := by
  have carried : Carried s.heap (s.heap.log (setup.info event).logicDstStream (.waitEvent event)) :=
    carried_log _ (by simp) (by simp)
  refine ⟨traced.sound.waiting event,traced.causal.log _ (silent_event event).2,carried,?_⟩
  intro message member current stream i clear released
  have version : message.version = s.heap.getVersion message.block := congrArg VersionBlock.version current
  have sent := traced.recorded event message.block (kept message member version) stream i clear
    (carried.released message.block i stream released)
  exact sent_subset_wait (by rfl) _ sent

theorem Traced.waitEvent (few : n ≤ 63) (event : ε)
    (kept : ∀ news ∈ (s.spaces event).blockFreeBySrcStream, news.version = s.heap.getVersion news.block →
      RowKept setup event news.block history s) : ∃ s' place', s.waitEvent setup event = some (.success,s') ∧
      Traced setup ((s,.waitEvent event) :: history) s' place' := by
  obtain ⟨h,waited,place',hearing⟩ := System.waitEvent_rule
    (fun news blocks h => ∃ place', Hearing setup s event news blocks h place')
    (by
      rintro news rest blocks h ⟨place',hearing⟩
      obtain ⟨h',place'',done,hearing'⟩ := hearing.hear few
      exact ⟨h',done,place'',hearing'⟩)
    (by
      rintro id rest h ⟨place',hearing⟩
      obtain ⟨h',place'',done,hearing'⟩ := hearing.giveBack
      exact ⟨h',done,place'',hearing'⟩)
    ⟨place,traced.hearing event kept⟩
  have carried := hearing.carried
  refine ⟨_,place',waited,hearing.waiting.done traced.sound,hearing.causal,?_⟩
  exact traced.recorded_next (by simp) (fun id i stream there => .inl (carried.released id i stream there)) carried.sent

theorem Traced.step (few : n ≤ 63) {status : GraphStatus}
    (allowed : s.Allowed action) (done : s.step setup action = some (status,s'))
    (undisturbed : Undisturbed setup ((s,action) :: history)) : ∃ place', Traced setup ((s,action) :: history) s' place' := by
  cases action with
  | malloc stream size own =>
    cases reply : s.heap.malloc setup.order setup.extendSize stream size own with
    | none => simp [System.step,reply] at done
    | some result =>
      simp only [System.step,reply,map_some,some.injEq,Prod.mk.injEq] at done
      obtain ⟨-,rfl⟩ := done
      exact traced.malloc few reply
  | addCount stream id =>
    cases done
    exact ⟨place,traced.touch (by simp) rfl (fun _ _ marked => marked) (traced.sound.addCount allowed)⟩
  | newAccessStream src dst id =>
    cases done
    refine ⟨place,traced.touch (by simp) rfl ?_ (traced.sound.newAccessStream few dst allowed)⟩
    intro row stream marked
    exact (marks_newAccessStream few ..).mpr (.inl marked)
  | free stream id =>
    obtain ⟨heap,-,freed,-⟩ := traced.sound.free few allowed
    simp only [System.step,freed,map_some,some.injEq,Prod.mk.injEq] at done
    obtain ⟨-,rfl⟩ := done
    exact traced.free few allowed freed
  | sendEvent event =>
    cases done
    exact ⟨_,traced.sendEvent few event⟩
  | waitEvent event =>
    obtain ⟨s'',place',waited,traced'⟩ := traced.waitEvent few event undisturbed.2
    simp only [System.step,waited,some.injEq,Prod.mk.injEq] at done
    obtain ⟨-,rfl⟩ := done
    exact ⟨place',traced'⟩

end Steps

theorem traced_initial : Traced setup [] (System.initial : System n ε) (fun _ => .fresh) :=
  ⟨sound_initial,⟨fun _ _ _ at_ => at_.elim,fun _ _ _ _ _ released => released.elim,fun _ _ _ at_ => at_.elim,
    fun _ _ _ _ _ at_ => at_.elim⟩,fun _ _ kept => kept.elim⟩

variable {s : System n ε} {history : List (System n ε × System.Step n ε)}

omit [DecidableEq ε] in
theorem Undisturbed.older {action : System.Step n ε}
    (undisturbed : Undisturbed setup ((s,action) :: history)) : Undisturbed setup history := by
  cases action with
  | waitEvent event => exact undisturbed.1
  | _ => exact undisturbed

/-- In every undisturbed run on at most 63 streams each global recycle of a block version comes
after all releases of that version by other streams, in the order of the device. -/
theorem ordered_of_undisturbed (setup : Setup n ε) (few : n ≤ 63) (history : List (System n ε × System.Step n ε))
    (s : System n ε) (run : System.Run setup history s) (undisturbed : Undisturbed setup history) :
    Ordered s.heap.trace := by
  have tracing : ∃ place, Traced setup history s place := by
    induction run with
    | start => exact ⟨_,traced_initial⟩
    | next _ allowed done ih =>
      obtain ⟨place,traced⟩ := ih undisturbed.older
      exact traced.step few allowed done undisturbed
  obtain ⟨place,traced⟩ := tracing
  exact traced.causal.ordered

theorem ordered_of_sharedOnce : ∃ history s, System.play threeStreams sharedOnce = some (history,s) ∧
    Undisturbed threeStreams history ∧ Ordered s.heap.trace := by
  obtain ⟨⟨history,s⟩,played,undisturbed⟩ : ∃ result ∈ System.play threeStreams sharedOnce,
      Undisturbed threeStreams result.1 := by decide +kernel
  exact ⟨history,s,played,undisturbed,
    ordered_of_undisturbed threeStreams (by decide) history s (System.run_of_play played) undisturbed⟩

/-- Stream 2 reuses the block although nothing orders the release by stream 1 before that. -/
theorem ordered_fails_on_heardMeanwhile : ∃ history s, System.play threeStreams heardMeanwhile = some (history,s) ∧
    System.Run threeStreams history s ∧ ¬ Ordered s.heap.trace := by
  obtain ⟨⟨history,s⟩,played,released,last,head,onTwo,recycles,unknown⟩ :
      ∃ result ∈ System.play threeStreams heardMeanwhile, At result.2.heap.trace 3 ⟨1,.release ⟨0,firstBlock⟩⟩ ∧
        ∃ last ∈ result.2.heap.trace.head?, last.stream = 2 ∧ Recycles last.mark ⟨0,firstBlock⟩ ∧
          3 ∉ pastAt deviceView result.2.heap.trace (result.2.heap.trace.length - 1) := by decide +kernel
  refine ⟨history,s,played,System.run_of_play played,fun ordered => unknown ?_⟩
  exact happensBefore_iff.mp (ordered _ 3 _ _ _ released rfl (at_head head) recycles (by rw [onTwo]; decide))

end GraphEngine.Memory

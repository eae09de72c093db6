import GraphEngine.Lib.Causality
import GraphEngine.Memory.OwnershipRuns

/-! Reuse of memory against the order on the device: each stream runs in program order, and an event orders what precedes its
last record before what follows a wait for it. A wait merges the row that the sender has by then, which may have heard more
than the event carries. -/
namespace GraphEngine.Memory
open GraphEngine.Lib Causality Heap

variable {n : Nat} {ε : Type}

def deviceView : View (Point n ε) (Fin n) ε where
  actor := Point.stream
  action point := match point.mark with
    | .recordEvent event => .record event
    | .waitEvent event => .wait event
    | _ => .internal

def Recycles (mark : Mark n ε) (block : VersionBlock (BlockId n)) : Prop :=
  ∃ occupied, mark = .birthRecycle block occupied ∨ mark = .borrowRecycle block occupied

instance (mark : Mark n ε) (block : VersionBlock (BlockId n)) : Decidable (Recycles mark block) :=
  match mark with
  | .birthRecycle other occupied => decidable_of_iff (other = block) ⟨by rintro rfl; exact ⟨occupied,.inl rfl⟩,
      by rintro ⟨_,same | same⟩ <;> cases same; rfl⟩
  | .borrowRecycle other occupied => decidable_of_iff (other = block) ⟨by rintro rfl; exact ⟨occupied,.inr rfl⟩,
      by rintro ⟨_,same | same⟩ <;> cases same; rfl⟩
  | .acquire _ | .borrow _ | .release _ | .recordEvent _ | .waitEvent _ =>
    isFalse (by rintro ⟨_,same | same⟩ <;> cases same)

def Ordered (trace : List (Point n ε)) : Prop :=
  ∀ block i k released recycled, At trace i released → released.mark = .release block → At trace k recycled →
    Recycles recycled.mark block → released.stream ≠ recycled.stream → HappensBefore deviceView trace i k

def Released (h : Heap n ε) (i : Nat) (stream : Fin n) (id : BlockId n) : Prop :=
  At h.trace i ⟨stream,.release (h.versionBlock id)⟩

variable [DecidableEq ε]

def Knows (h : Heap n ε) (stream : Fin n) (i : Nat) : Prop := i ∈ (clock deviceView h.trace).known stream

structure Causal (h : Heap n ε) (place : BlockId n → Place n ε) : Prop where
  timely : ∀ i stream block, At h.trace i ⟨stream,.release block⟩ → Timely h place block
  known : ∀ id row stream i, ¬ (h.blocks id).Marks row stream → Released h i stream id → Knows h row i
  spent : ∀ k point block, At h.trace k point → Recycles point.mark block → block.version < h.getVersion block.block
  ordered : Ordered h.trace

variable {setup : Setup n ε} {h h' : Heap n ε} {place place' : BlockId n → Place n ε} {id : BlockId n}

omit [DecidableEq ε] in
theorem Ordered.cons {trace : List (Point n ε)} (ordered : Ordered trace) (point : Point n ε)
    (unreleased : ∀ block, point.mark ≠ .release block ∨ ∀ k recycled, At trace k recycled → ¬ Recycles recycled.mark block)
    (before : ∀ block, Recycles point.mark block → ∀ i released, At trace i released → released.mark = .release block →
      released.stream ≠ point.stream → HappensBefore deviceView (point :: trace) i trace.length) :
    Ordered (point :: trace) := by
  intro block i k released recycled atI release atK recycles apart
  rcases atK with ⟨rfl,rfl⟩ | earlierK
  · rcases atI with ⟨-,rfl⟩ | earlierI
    · obtain ⟨occupied,birth | borrow⟩ := recycles
      · rw [birth] at release; cases release
      · rw [borrow] at release; cases release
    · exact before block recycles i released earlierI release apart
  · rcases atI with ⟨-,rfl⟩ | earlierI
    · rcases unreleased block with other | none_
      · exact absurd release other
      · exact absurd recycles (none_ k recycled earlierK)
    · exact (ordered block i k released recycled earlierI release earlierK recycles apart).cons point

def Silent (mark : Mark n ε) : Prop := ∀ block, mark ≠ .release block ∧ ¬ Recycles mark block

variable {mark : Mark n ε} {block : MultiStreamMemBlock n} {stream : Fin n}

theorem Causal.log (causal : Causal h place) (stream : Fin n) (silent : Silent mark) : Causal (h.log stream mark) place where
  timely i at_ block there := by
    rcases there with ⟨-,same⟩ | earlier
    · exact absurd (congrArg Point.mark same).symm (silent block).1
    · exact causal.timely i at_ block earlier
  known id row at_ i clear released := by
    rcases released with ⟨-,same⟩ | earlier
    · exact absurd (congrArg Point.mark same).symm (silent _).1
    · exact known_subset_cons _ _ _ (causal.known id row at_ i clear earlier)
  spent k point block at_ recycles := by
    rcases at_ with ⟨-,rfl⟩ | earlier
    · exact absurd recycles (silent block).2
    · exact causal.spent k point block earlier recycles
  ordered := by
    apply causal.ordered.cons
    · exact fun block => .inl (silent block).1
    · exact fun block recycles => absurd recycles (silent block).2

theorem Causal.setBlock (causal : Causal h place) (version : block.version = h.getVersion id)
    (learned : ∀ row stream i, ¬ block.Marks row stream → (h.blocks id).Marks row stream → Released h i stream id →
      Knows h row i) : Causal (h.setBlock id block) place := by
  have same : ∀ other, (h.setBlock id block).versionBlock other = h.versionBlock other := by
    intro other
    by_cases here : other = id
    · subst here; simpa [versionBlock,getVersion] using version
    · simp [versionBlock,getVersion,here]
  constructor
  · intro i stream news at_
    exact (Owned.timely_setBlock version news).mpr (causal.timely i stream news at_)
  · intro other row stream i clear released
    have before : Released h i stream other := by
      rw [Released,same] at released
      exact released
    by_cases here : other = id
    · subst here
      rw [setBlock_blocks,Function.update_self] at clear
      by_cases marked : (h.blocks other).Marks row stream
      · exact learned row stream i clear marked before
      · exact causal.known other row stream i marked before
    · rw [setBlock_blocks,Function.update_of_ne here] at clear
      exact causal.known other row stream i clear before
  · intro k point news at_ recycles
    have older := causal.spent k point news at_ recycles
    have version := congrArg VersionBlock.version (same news.block)
    simp only [versionBlock] at version
    rwa [version]
  · exact causal.ordered

theorem Causal.setAllocator (causal : Causal h place) (stream : Fin n) (a : MultiStreamL2Allocator n) :
    Causal (h.setAllocator stream a) place := ⟨causal.timely,causal.known,causal.spent,causal.ordered⟩

omit [DecidableEq ε] in
theorem silent_opened {block : VersionBlock (BlockId n)} :
    Silent (.acquire block : Mark n ε) ∧ Silent (.borrow block : Mark n ε) := by
  constructor <;> exact fun other => ⟨by simp,by rintro ⟨occupied,same | same⟩ <;> cases same⟩

theorem Causal.opened (causal : Causal h place) {opened : Option (BlockId n)}
    (effect : Opened h h' place place' stream opened) : Causal h' place' := by
  have same : ∀ other, h'.versionBlock other = h.versionBlock other := by
    intro other
    simp [versionBlock,effect.version]
  have use : ∀ other, place other = .inUse → place' other = .inUse := by
    intro other inUse
    by_cases here : opened = some other
    · exact (effect.unused other here).2
    · exact (effect.kept other here).2.mpr inUse
  -- the trace grows by at most one silent point, and the blocks keep their versions
  have base : Causal {h with trace := h'.trace} place := by
    rcases effect.trace with trace | ⟨other,trace | trace⟩
    · rw [trace]
      exact causal
    · rw [trace]
      exact causal.log stream silent_opened.1
    · rw [trace]
      exact causal.log stream silent_opened.2
  constructor
  · intro i at_ block there
    obtain ⟨older,current⟩ := base.timely i at_ block there
    rw [Timely,effect.version]
    exact ⟨older,fun equal => use _ (current equal)⟩
  · intro other row at_ i clear released
    rw [Released,same] at released
    by_cases here : opened = some other
    · have idle := (effect.unused other here).1
      exact absurd ((base.timely i at_ _ released).2 rfl) idle
    · rw [(effect.kept other here).1] at clear
      exact base.known other row at_ i clear released
  · intro k point block at_ recycles
    rw [effect.version]
    exact base.spent k point block at_ recycles
  · exact base.ordered

theorem Causal.recycled (causal : Causal h place) (effect : Recycled h h' place place' stream id)
    (learned : ∀ other i, other ≠ stream → Released h i other id → Knows h stream i) : Causal h' place' := by
  obtain ⟨occupied,cases_⟩ := effect.trace
  obtain ⟨mark,trace,silent,marks⟩ : ∃ mark, h'.trace = ⟨stream,mark⟩ :: h.trace ∧ (∀ block, mark ≠ .release block) ∧
      ∀ block, Recycles mark block → block = h.versionBlock id := by
    rcases cases_ with birth | borrow
    · refine ⟨_,birth,by simp,?_⟩
      rintro block ⟨other,same | same⟩ <;> cases same
      rfl
    · refine ⟨_,borrow,by simp,?_⟩
      rintro block ⟨other,same | same⟩ <;> cases same
      rfl
  have old : ∀ {i at_ block}, At h'.trace i ⟨at_,.release block⟩ → At h.trace i ⟨at_,.release block⟩ := by
    intro i at_ block there
    rw [trace] at there
    rcases there with ⟨-,same⟩ | earlier
    · exact absurd (congrArg Point.mark same).symm (silent block)
    · exact earlier
  have timely : ∀ i at_ block, At h'.trace i ⟨at_,.release block⟩ → Timely h' place' block := by
    intro i at_ block there
    obtain ⟨older,current⟩ := causal.timely i at_ block (old there)
    by_cases here : block.block = id
    · rw [Timely,here,effect.version]
      rw [here] at older
      omega
    · obtain ⟨record,stay⟩ := effect.kept block.block here
      rw [Timely,getVersion,record,stay]
      exact ⟨older,current⟩
  constructor
  · exact timely
  · intro other row at_ i clear released
    by_cases here : other = id
    · subst here
      have equal := (timely i at_ _ released).2 rfl
      simp only [versionBlock] at equal
      rw [effect.left] at equal
      split at equal <;> cases equal
    · have record := (effect.kept other here).1
      have same : h'.versionBlock other = h.versionBlock other := by
        simp [versionBlock,getVersion,record]
      rw [Released,same] at released
      rw [record] at clear
      rw [Knows,trace]
      exact known_subset_cons _ _ _ (causal.known other row at_ i clear (old released))
  · intro k point block at_ recycles
    have grows : h.getVersion block.block ≤ h'.getVersion block.block := by
      by_cases here : block.block = id
      · rw [here,effect.version]
        omega
      · simp [getVersion,(effect.kept _ here).1]
    rw [trace] at at_
    rcases at_ with ⟨-,rfl⟩ | earlier
    · rw [marks block recycles]
      change h.getVersion id < h'.getVersion id
      rw [effect.version]
      omega
    · exact (causal.spent k point block earlier recycles).trans_le grows
  · rw [trace]
    apply causal.ordered.cons
    · exact fun block => .inl (silent block)
    · intro block recycles i released there release apart
      have version := marks block recycles
      apply happensBefore_next
      apply learned released.stream i apart
      rw [Released,← version,← release]
      exact there

theorem Causal.release (causal : Causal h place) (inUse : place id = .inUse)
    (marked : ∀ row, (h.blocks id).Marks row stream) : Causal (h.log stream (.release (h.versionBlock id))) place where
  timely i at_ block there := by
    rcases there with ⟨-,same⟩ | earlier
    · cases same
      exact ⟨le_rfl,fun _ => inUse⟩
    · exact causal.timely i at_ block earlier
  known other row at_ i clear released := by
    rcases released with ⟨-,same⟩ | earlier
    · have block : other = id := congrArg VersionBlock.block (Mark.release.inj (congrArg Point.mark same))
      have by_ : at_ = stream := congrArg Point.stream same
      rw [block,by_] at clear
      exact absurd (marked row) clear
    · exact known_subset_cons _ _ _ (causal.known other row at_ i clear earlier)
  spent k point block at_ recycles := by
    rcases at_ with ⟨-,rfl⟩ | earlier
    · obtain ⟨occupied,same | same⟩ := recycles <;> cases same
    · exact causal.spent k point block earlier recycles
  ordered := by
    apply causal.ordered.cons
    · intro block
      by_cases same : block = h.versionBlock id
      · right
        intro k recycled at_ recycles
        have older := causal.spent k recycled block at_ recycles
        rw [same] at older
        exact lt_irrefl _ older
      · left
        intro release
        exact same (Mark.release.inj release).symm
    · rintro block ⟨occupied,same | same⟩ <;> cases same

theorem Causal.dropped (few : n ≤ 63) (causal : Causal h place) (disciplined : (h.blocks id).Disciplined)
    (stream : Fin n) : Causal (letGo h id (h.blocks id) stream) place := by
  have dropped := dropCount_spec few disciplined stream
  have touched : Causal (h.setBlock id (dropCount (h.blocks id) stream).2) place := by
    apply causal.setBlock dropped.same.version
    intro row other i clear marked released
    rw [dropped.marks] at clear
    have own : row = stream ∧ other = stream := by
      by_contra apart
      exact clear ⟨marked,fun all => apart ⟨all.1,all.2.1⟩⟩
    obtain ⟨rfl,rfl⟩ := own
    exact mem_known released
  unfold letGo
  split
  · exact touched.setAllocator _ _
  · exact touched

/-- Between two heaps no release of a current version was added and no event was recorded. -/
structure Carried (h h' : Heap n ε) : Prop where
  released : ∀ id i stream, Released h' i stream id → Released h i stream id
  sent : ∀ event, (clock deviceView h'.trace).sent event = (clock deviceView h.trace).sent event

theorem Carried.refl : Carried h h := ⟨fun _ _ _ released => released,fun _ => rfl⟩

theorem Carried.trans {h'' : Heap n ε} (first : Carried h h') (second : Carried h' h'') : Carried h h'' :=
  ⟨fun id i stream released => first.released id i stream (second.released id i stream released),
    fun event => (second.sent event).trans (first.sent event)⟩

theorem carried_log (stream : Fin n) (silent : ∀ block, mark ≠ .release block)
    (unrecorded : ∀ event, mark ≠ .recordEvent event) : Carried h (h.log stream mark) where
  released id i at_ released := by
    rcases released with ⟨-,same⟩ | earlier
    · exact absurd (congrArg Point.mark same).symm (silent _)
    · exact earlier
  sent event := by
    apply sent_cons
    intro record
    cases mark with
    | recordEvent other => exact unrecorded other rfl
    | _ => cases record

theorem carried_setBlock (version : block.version = h.getVersion id) : Carried h (h.setBlock id block) where
  released other i stream released := by
    have same : (h.setBlock id block).versionBlock other = h.versionBlock other := by
      by_cases here : other = id
      · subst here; simpa [versionBlock,getVersion] using version
      · simp [versionBlock,getVersion,here]
    rw [Released,same] at released
    exact released
  sent _ := rfl

theorem Opened.carried {opened : Option (BlockId n)} (effect : Opened h h' place place' stream opened) : Carried h h' := by
  have same : ∀ other, h'.versionBlock other = h.versionBlock other := by
    intro other
    simp [versionBlock,effect.version]
  have base : Carried h {h with trace := h'.trace} := by
    rcases effect.trace with trace | ⟨other,trace | trace⟩
    · rw [trace]; exact .refl
    all_goals rw [trace]; exact carried_log stream (by simp) (by simp)
  refine ⟨?_,base.sent⟩
  intro other i at_ released
  rw [Released,same] at released
  exact base.released other i at_ released

theorem Recycled.carried (causal : Causal h place) (effect : Recycled h h' place place' stream id) : Carried h h' := by
  obtain ⟨occupied,cases_⟩ := effect.trace
  have base : Carried h {h with trace := h'.trace} := by
    rcases cases_ with trace | trace
    all_goals rw [trace]; exact carried_log stream (by simp) (by simp)
  refine ⟨?_,base.sent⟩
  intro other i at_ released
  by_cases here : other = id
  · subst here
    have old : At h.trace i ⟨at_,.release (h'.versionBlock other)⟩ := by
      rcases cases_ with trace | trace
      all_goals
        rw [Released,trace] at released
        exact released.resolve_left (by simp)
    have older := (causal.timely i at_ _ old).1
    simp only [versionBlock,effect.version] at older
    omega
  · have same : h'.versionBlock other = h.versionBlock other := by
      simp [versionBlock,getVersion,(effect.kept other here).1]
    rw [Released,same] at released
    exact base.released other i at_ released

end GraphEngine.Memory

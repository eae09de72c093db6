import Mathlib.Data.List.Nodup
import GraphEngine.Memory.VersionBlocks

/-! The stream count that `AcquireStreams` admits, every one below 2024, against the 64-bit words of the memory kernels. The
recycling flags, the sent marks and the delivery of local-recycled entries are all sound up to 63 streams and none is beyond.
-/
namespace GraphEngine.Memory
open GraphEngine.Lib List FlagWord

namespace StreamAllocator

def kMaxStreamNum : Nat := 2024

/-- `AcquireStreams`: the number of streams afterwards, `none` for the null pointer. `create i` is the answer of
`rtStreamCreateWithFlags` for the stream `i`. -/
def acquireStreams (create : Nat → Bool) (size streamNum : Nat) : Option Nat :=
  if streamNum < kMaxStreamNum then
    if (List.range' size (streamNum - size)).all create then some (max size streamNum) else none
  else none

def Admits (streamNum : Nat) : Prop := ∃ create size streams, acquireStreams create size streamNum = some streams

theorem admits_iff (streamNum : Nat) : Admits streamNum ↔ streamNum < kMaxStreamNum := by
  constructor
  · rintro ⟨create,size,streams,acquired⟩
    by_contra refused
    simp [acquireStreams,refused] at acquired
  · intro small
    exact ⟨fun _ => true,0,max 0 streamNum,by simp [acquireStreams,small]⟩

end StreamAllocator

/-- The local-recycle list of one stream with two ghosts: entries carry a number that
tells them apart, and every block handed to a walk is written down. -/
structure Ledger (n : Nat) (β : Type) where
  blocks : List (StreamedVersionBlock (Nat × β))
  pushed : Nat
  delivered : List (Nat × Fin n)

namespace Ledger
variable {n : Nat} {β : Type}

/-- `LocalRecycle` on the stream, or a `SendEvent` to a stream while the blocks have
the given versions. -/
inductive Op (n : Nat) (β : Type) where
  | push (version : Int) (block : β)
  | send (dst : Fin n) (version : β → Int)

def initial : Ledger n β := ⟨[],0,[]⟩

def walk (stream dst : Fin n) (version : β → Int) (l : Ledger n β) :=
  clearLocalRecycleBlocks (fun b => version b.2) n stream dst l.blocks

def step (stream : Fin n) (l : Ledger n β) : Op n β → Ledger n β
  | .push version block =>
    {l with blocks := l.blocks ++ [⟨⟨version,(l.pushed,block)⟩,0⟩], pushed := l.pushed + 1}
  | .send dst version =>
    let walked := l.walk stream dst version
    {l with blocks := walked.2, delivered := l.delivered ++ walked.1.map (fun b => (b.block.1,dst))}

def run (stream : Fin n) (ops : List (Op n β)) : Ledger n β := ops.foldl (step stream) initial

abbrev number (entry : StreamedVersionBlock (Nat × β)) : Nat := entry.versionBlock.block.1

structure Sound (l : Ledger n β) : Prop where
  distinct : (l.blocks.map number).Nodup
  numbered : ∀ entry ∈ l.blocks, number entry < l.pushed
  marks : ∀ entry ∈ l.blocks, ∀ i, FlagWord.has entry.sentFlags i = true ↔ ∃ d : Fin n, d.val = i ∧ (number entry,d) ∈ l.delivered
  known : ∀ pair ∈ l.delivered, pair.1 < l.pushed
  once : l.delivered.Nodup

theorem initial_sound : (initial : Ledger n β).Sound := by
  constructor <;> simp [initial]

theorem push_sound (stream : Fin n) (l : Ledger n β) (version : Int) (block : β) (sound : l.Sound) :
    (step stream l (.push version block)).Sound := by
  constructor
  · have fresh : l.pushed ∉ l.blocks.map number := by
      intro member
      obtain ⟨entry,inside,same⟩ := mem_map.mp member
      have bound := sound.numbered entry inside
      omega
    simp only [step,map_append,map_cons,map_nil]
    exact nodup_append.mpr ⟨sound.distinct,by simp,by
      intro a inside b last equal
      simp only [mem_singleton] at last
      subst b; subst a
      exact fresh inside⟩
  · intro entry member
    simp only [step,mem_append,mem_singleton] at member
    rcases member with old | rfl
    · exact Nat.lt_succ_of_lt (sound.numbered entry old)
    · exact Nat.lt_succ_self _
  · intro entry member i
    simp only [step,mem_append,mem_singleton] at member
    rcases member with old | rfl
    · exact sound.marks entry old i
    · constructor
      · intro held
        simp at held
      · rintro ⟨d,_,given⟩
        exact absurd (sound.known _ given) (lt_irrefl _)
  · intro pair given
    exact Nat.lt_succ_of_lt (sound.known pair given)
  · exact sound.once

theorem send_sound (few : n ≤ 63) (stream dst : Fin n) (l : Ledger n β) (version : β → Int) (sound : l.Sound) :
    (step stream l (.send dst version)).Sound := by
  let turn := findNext (fun b : Nat × β => version b.2) (toBit dst) (toAllBit n stream)
  have walked : l.walk stream dst version = _ := clearLocalRecycleBlocks_eq _ n stream dst l.blocks
  have unsent : ∀ entry ∈ l.blocks, turn entry = .found → (number entry,dst) ∉ l.delivered := by
    intro entry member found given
    have absent := ((findNext_found_iff _ _ _ _).mp found).2.2
    rw [toBit_eq_one,and_one_eq_zero_iff _ (by omega)] at absent
    have held := (sound.marks entry member dst).mpr ⟨dst,rfl,given⟩
    simp [absent] at held
  have numbers : ∀ entry, number (if turn entry = .found then markSent (toBit dst) entry else entry) = number entry := by
    intro entry
    split <;> rfl
  have kept : (step stream l (.send dst version)).blocks = (l.blocks.filter (fun e => turn e ≠ .erase)).map
      (fun e => if turn e = .found then markSent (toBit dst) e else e) := by
    simp only [step,walked]
    rfl
  have handed : (step stream l (.send dst version)).delivered = l.delivered ++
      (l.blocks.filter (fun e => turn e = .found)).map (fun e => (number e,dst)) := by
    simp only [step,walked,map_map]
    rfl
  have injective : ∀ first ∈ l.blocks, ∀ second ∈ l.blocks, number first = number second → first = second :=
    fun first h₁ second h₂ same => inj_on_of_nodup_map sound.distinct h₁ h₂ same
  constructor
  · rw [kept,map_map]
    have same : (number ∘ fun e => if turn e = .found then markSent (toBit dst) e else e) = number := funext numbers
    rw [same]
    exact (filter_sublist.map number).nodup sound.distinct
  · intro entry member
    rw [kept] at member
    obtain ⟨old,inside,rfl⟩ := mem_map.mp member
    rw [numbers]
    exact sound.numbered old (mem_filter.mp inside).1
  · intro entry member i
    rw [kept] at member
    obtain ⟨old,inside,rfl⟩ := mem_map.mp member
    have present := (mem_filter.mp inside).1
    rw [numbers,handed]
    by_cases found : turn old = .found
    · simp only [found,if_true,markSent,has_or,Bool.or_eq_true,sound.marks old present i,
        Mif.toBit_has (show n ≤ 64 by omega) dst.isLt,decide_eq_true_eq,mem_append]
      constructor
      · rintro (⟨d,at_,given⟩ | rfl)
        · exact ⟨d,at_,Or.inl given⟩
        · exact ⟨dst,rfl,Or.inr (mem_map.mpr ⟨old,by simp [present,found],rfl⟩)⟩
      · rintro ⟨d,at_,given | new⟩
        · exact Or.inl ⟨d,at_,given⟩
        · obtain ⟨other,_,equal⟩ := mem_map.mp new
          have target : dst = d := congrArg Prod.snd equal
          exact Or.inr (by rw [← at_,target])
    · simp only [found,if_false,sound.marks old present i,mem_append]
      constructor
      · rintro ⟨d,at_,given⟩
        exact ⟨d,at_,Or.inl given⟩
      · rintro ⟨d,at_,given | new⟩
        · exact ⟨d,at_,given⟩
        · obtain ⟨other,chosen,equal⟩ := mem_map.mp new
          have picked := mem_filter.mp chosen
          have same := injective other picked.1 old present (Prod.mk.inj equal).1
          subst other
          exact absurd (by simpa using picked.2) found
  · intro pair given
    rw [handed,mem_append] at given
    rcases given with old | new
    · exact sound.known pair old
    · obtain ⟨entry,chosen,rfl⟩ := mem_map.mp new
      exact sound.numbered entry (mem_filter.mp chosen).1
  · rw [handed]
    refine nodup_append.mpr ⟨sound.once,?_,?_⟩
    · have fresh : ((l.blocks.filter (fun e => turn e = .found)).map number).Nodup :=
        (filter_sublist.map number).nodup sound.distinct
      refine List.Nodup.of_map Prod.fst ?_
      rw [map_map]
      exact fresh
    · intro pair old other new equal
      subst other
      obtain ⟨entry,chosen,rfl⟩ := mem_map.mp new
      have picked := mem_filter.mp chosen
      exact unsent entry picked.1 (by simpa using picked.2) old

theorem run_sound (few : n ≤ 63) (stream : Fin n) (ops : List (Op n β)) : (run stream ops).Sound := by
  suffices steps : ∀ l : Ledger n β, l.Sound → (ops.foldl (step stream) l).Sound from steps _ initial_sound
  induction ops with
  | nil => exact fun _ sound => sound
  | cons op rest ih =>
    intro l sound
    cases op with
    | push version block => exact ih _ (push_sound stream l version block sound)
    | send dst version => exact ih _ (send_sound few stream dst l version sound)

theorem dropped_spec (few : n ≤ 63) (stream dst : Fin n) (l : Ledger n β) (version : β → Int) (sound : l.Sound)
    (entry : StreamedVersionBlock (Nat × β)) (member : entry ∈ l.blocks)
    (dropped : number entry ∉ (step stream l (.send dst version)).blocks.map number) :
    entry.versionBlock.version ≠ version entry.versionBlock.block.2 ∨
      ∀ d : Fin n, d ≠ stream → (number entry,d) ∈ l.delivered := by
  have erased : findNext (fun b : Nat × β => version b.2) (toBit dst) (toAllBit n stream) entry = .erase := by
    by_contra remains
    apply dropped
    have walked : l.walk stream dst version = _ := clearLocalRecycleBlocks_eq _ n stream dst l.blocks
    simp only [step,walked,map_map]
    refine mem_map.mpr ⟨entry,by simp [member,remains],?_⟩
    simp only [Function.comp]
    split <;> rfl
  rcases (findNext_erase_iff _ _ _ _).mp erased with stale | full
  · exact Or.inl stale
  · refine Or.inr (fun d other => ?_)
    have held : has entry.sentFlags d = true := by
      rw [full,has_toAllBit few]
      simp [Fin.val_ne_of_ne other]
    obtain ⟨e,same,given⟩ := (sound.marks entry member d).mp held
    exact Fin.ext same ▸ given

end Ledger

/-- What the flags of distinct streams, the all-sent mask and the delivery of entries
are meant to satisfy for a given stream count. -/
structure FlagsIndependent (n : Nat) : Prop where
  rowSet : ∀ (m : Mif n) (at_ i row j : Fin n),
    (m.set at_ i).isSet row j = (m.isSet row j || (decide (row = at_) && decide (j = i)))
  rowSetAll : ∀ (m : Mif n) (row i j : Fin n), (m.setAll i).isSet row j = (m.isSet row j || decide (j = i))
  rowClear : ∀ (m : Mif n) (at_ i row j : Fin n),
    (m.clear at_ i).isSet row j = (m.isSet row j && !(decide (row = at_) && decide (j = i)))
  sentSet : ∀ (w : UInt64) (i j : Fin n), (w ||| toBit i) &&& toBit j ≠ 0 ↔ w &&& toBit j ≠ 0 ∨ j = i
  mask : ∀ (stream : Fin n) (i : Nat), FlagWord.has (toAllBit n stream) i = true ↔ i < n ∧ i ≠ stream
  onceEach : ∀ (β : Type) (stream : Fin n) (ops : List (Ledger.Op n β)), (Ledger.run stream ops).delivered.Nodup
  dropped : ∀ (β : Type) (stream dst : Fin n) (ops : List (Ledger.Op n β)) (version : β → Int),
    ∀ entry ∈ (Ledger.run stream ops).blocks,
      Ledger.number entry ∉ (Ledger.run stream (ops ++ [.send dst version])).blocks.map Ledger.number →
      entry.versionBlock.version ≠ version entry.versionBlock.block.2 ∨
        ∀ d : Fin n, d ≠ stream → (Ledger.number entry,d) ∈ (Ledger.run stream ops).delivered

theorem flagsIndependent_of_le {n : Nat} (few : n ≤ 63) : FlagsIndependent n := by
  have word : n ≤ 64 := by omega
  constructor
  · intro m at_ i row j
    exact Mif.isSet_set word m at_ i row j
  · intro m row i j
    exact Mif.isSet_setAll word m i row j
  · intro m at_ i row j
    exact Mif.isSet_clear word m at_ i row j
  · intro w i j
    have narrow : j.val < 64 := by omega
    simp only [ne_eq,toBit_eq_one j,and_one_eq_zero_iff _ narrow,has_or,
      Mif.toBit_has word i.isLt,Fin.ext_iff]
    simp [imp_iff_not_or,or_comm]
  · intro stream i
    rw [has_toAllBit few]
    simp
  · intro β stream ops
    exact (Ledger.run_sound few stream ops).once
  · intro β stream dst ops version entry member gone
    rw [Ledger.run,foldl_append] at gone
    exact Ledger.dropped_spec few stream dst _ version (Ledger.run_sound few stream ops) entry member gone

/-- No mask ever holds stream 63: from 64 streams on, the shift that should produce the
bit after the last stream wraps around. -/
theorem mask_incomplete (n stream : Nat) : has (toAllBit n stream) 63 = false := by
  have wrapped : toBit n = one (n % 64) := by
    apply ext_has
    intro i
    rw [toBit_eq_one,has_one,has_one,Nat.mod_mod]
  rw [toAllBit,has_and_not,wrapped,has_one_sub_one (Nat.mod_lt n (by omega))]
  have short : ¬ 63 < n % 64 := by omega
  simp [short]

/-- Among the stream counts that `AcquireStreams` admits, those up to 63 and no others
keep the flags of distinct streams apart. -/
theorem flagsIndependent_iff (streamNum : Nat) (_admitted : StreamAllocator.Admits streamNum) :
    FlagsIndependent streamNum ↔ streamNum ≤ 63 := by
  refine ⟨?_,flagsIndependent_of_le⟩
  intro independent
  by_contra many
  have expected := (independent.mask ⟨0,by omega⟩ 63).mpr ⟨by omega,by simp⟩
  rw [mask_incomplete] at expected
  simp at expected

theorem flagsIndependent_iff_eight :
    StreamAllocator.Admits 8 ∧ (FlagsIndependent 8 ↔ 8 ≤ 63) :=
  ⟨(StreamAllocator.admits_iff 8).mpr (by decide),
    flagsIndependent_iff 8 ((StreamAllocator.admits_iff 8).mpr (by decide))⟩

theorem flagsIndependent_fails_at_64 : StreamAllocator.Admits 64 ∧ ¬ FlagsIndependent 64 := by
  refine ⟨(StreamAllocator.admits_iff 64).mpr (by decide),?_⟩
  intro independent
  have expected := (independent.mask ⟨0,by decide⟩ 63).mpr ⟨by decide,by decide⟩
  rw [mask_incomplete] at expected
  simp at expected

end GraphEngine.Memory

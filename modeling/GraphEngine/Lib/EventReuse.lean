import GraphEngine.Lib.Precedence

/-! Two streams that synchronise by events. A use of an event is one send with the wait that it serves. Uses of one
identifier never overlap if the wait of the old use stands before the send of the new one in one stream. -/

namespace GraphEngine.Lib
open List
variable {U ι : Type}

inductive EventOp (U : Type) where
  | send (use : U)
  | wait (use : U)
  deriving DecidableEq

def EventOp.Ready (log : List (EventOp U)) : EventOp U → Prop
  | .send _ => True
  | .wait use => .send use ∈ log

inductive EventRun (first second : List (EventOp U)) :
    List (EventOp U) → List (EventOp U) → List (EventOp U) → Prop
  | start : EventRun first second first second []
  | left {op : EventOp U} {rest other log : List (EventOp U)} (run : EventRun first second (op :: rest) other log)
      (ready : op.Ready log) : EventRun first second rest other (log ++ [op])
  | right {op : EventOp U} {rest other log : List (EventOp U)} (run : EventRun first second other (op :: rest) log)
      (ready : op.Ready log) : EventRun first second other rest (log ++ [op])

/-- The wait of the one use stands before the send of the other one in one of the streams. -/
def HandsOver (first second : List (EventOp U)) (use next : U) : Prop :=
  Precedes first (.wait use) (.send next) ∨ Precedes second (.wait use) (.send next)

namespace EventRun
variable {first second rest other log : List (EventOp U)} {u v w : U}

theorem served_next {op : EventOp U} (ready : op.Ready log) (served : ∀ use, .wait use ∈ log → .send use ∈ log) (use : U)
    (waits : .wait use ∈ log ++ [op]) : .send use ∈ log ++ [op] := by
  rcases mem_append.mp waits with waits | waits
  · exact mem_append_left _ (served use waits)
  · obtain rfl := mem_singleton.mp waits
    exact mem_append_left _ ready

theorem spec (run : EventRun first second rest other log) :
    (∃ done done', first = done ++ rest ∧ second = done' ++ other ∧ ∀ op, op ∈ log ↔ op ∈ done ∨ op ∈ done') ∧
      ∀ use, .wait use ∈ log → .send use ∈ log := by
  induction run with
  | start => exact ⟨⟨[],[],by simp⟩,by simp⟩
  | @left op rest other log _ ready ih =>
    obtain ⟨⟨done,done',isFirst,isSecond,logged⟩,served⟩ := ih
    refine ⟨⟨done ++ [op],done',by simp [isFirst],isSecond,?_⟩,served_next ready served⟩
    intro x
    rw [mem_append,logged x,mem_append]
    tauto
  | @right op rest other log _ ready ih =>
    obtain ⟨⟨done,done',isFirst,isSecond,logged⟩,served⟩ := ih
    refine ⟨⟨done,done' ++ [op],isFirst,by simp [isSecond],?_⟩,served_next ready served⟩
    intro x
    rw [mem_append,logged x,mem_append]
    tauto

theorem served (run : EventRun first second rest other log) (waits : .wait u ∈ log) : .send u ∈ log := run.spec.2 u waits

section

variable (nodup : (first ++ second).Nodup)
include nodup

variable (run : EventRun first second rest other log)
include run

theorem earlier_logged {a b : EventOp U}
    (before : Precedes first a b ∨ Precedes second a b) (logged : b ∈ log) : a ∈ log := by
  obtain ⟨⟨done,done',rfl,rfl,isLog⟩,-⟩ := run.spec
  obtain ⟨nodup,nodup',apart⟩ := nodup_append'.mp nodup
  have fresh := disjoint_of_nodup_append nodup
  have fresh' := disjoint_of_nodup_append nodup'
  rw [isLog] at logged ⊢
  rcases before with before | before
  · left
    have inDone : b ∈ done := by
      rcases logged with inside | inside
      · exact inside
      · exact absurd (mem_append_left _ inside) (apart before.right)
    rcases precedes_append.mp before with both | ⟨left,-⟩ | both
    · exact both.left
    · exact left
    · exact absurd both.right (fresh inDone)
  · right
    have inDone : b ∈ done' := by
      rcases logged with inside | inside
      · exact absurd before.right (apart (mem_append_left _ inside))
      · exact inside
    rcases precedes_append.mp before with both | ⟨left,-⟩ | both
    · exact both.left
    · exact left
    · exact absurd both.right (fresh' inDone)

theorem passed {uses : List U}
    (chain : uses.IsChain (HandsOver first second)) (before : Precedes uses u w) (sent : .send w ∈ log) : .wait u ∈ log := by
  induction uses generalizing u with
  | nil => exact absurd before not_precedes_nil
  | cons a uses ih =>
    cases uses with
    | nil =>
      rcases precedes_cons.mp before with inside | ⟨-,inside⟩
      · exact absurd inside not_precedes_nil
      · cases inside
    | cons b uses =>
      obtain ⟨hands,further⟩ := isChain_cons_cons.mp chain
      rcases precedes_cons.mp before with inside | ⟨rfl,inside⟩
      · exact ih further inside
      · have sentNext : .send b ∈ log := by
          rcases mem_cons.mp inside with rfl | later
          · exact sent
          · exact run.served (ih further (precedes_cons.mpr (.inr ⟨rfl,later⟩)))
        exact run.earlier_logged nodup hands sentNext

theorem passed_before_send {uses : List U}
    (chain : uses.IsChain (HandsOver first second)) (inside : u ∈ uses) (next : v ∈ uses)
    (turn : rest.head? = some (.send v) ∨ other.head? = some (.send v)) (sent : .send u ∈ log) : .wait u ∈ log := by
  have notYet : .send v ∉ log := by
    obtain ⟨⟨done,done',rfl,rfl,isLog⟩,-⟩ := run.spec
    obtain ⟨nodup,nodup',apart⟩ := nodup_append'.mp nodup
    rw [isLog]
    rcases turn with turn | turn
    · have left : .send v ∈ rest := mem_of_mem_head? turn
      rintro (early | early)
      · exact disjoint_of_nodup_append nodup early left
      · exact apart (mem_append_right _ left) (mem_append_left _ early)
    · have left : .send v ∈ other := mem_of_mem_head? turn
      rintro (early | early)
      · exact apart (mem_append_left _ early) (mem_append_right _ left)
      · exact disjoint_of_nodup_append nodup' early left
  rcases Precedes.total inside next with rfl | before | after
  · exact absurd sent notYet
  · -- one more step sends the use, and then the earlier ones have been passed
    have longer : ∃ rest' other', EventRun first second rest' other' (log ++ [.send v]) := by
      rcases turn with turn | turn
      · obtain ⟨rest',rfl⟩ := head?_eq_some_iff.mp turn
        exact ⟨rest',other,.left run trivial⟩
      · obtain ⟨other',rfl⟩ := head?_eq_some_iff.mp turn
        exact ⟨rest,other',.right run trivial⟩
    obtain ⟨rest',other',longer⟩ := longer
    have waits := longer.passed nodup chain before (by simp)
    simpa using waits
  · exact absurd (run.served (run.passed nodup chain after sent)) notYet

end

theorem sends (front : List U) (run : EventRun first second (front.map .send ++ rest) other log) :
    EventRun first second rest other (log ++ front.map .send) := by
  induction front generalizing log with
  | nil => simpa using run
  | cons use front ih =>
    have step := ih (.left run trivial)
    simpa using step

end EventRun

/-- The uses in the order of issue, and those that may be handed on: the last of the chain that the uses of an identifier
form. -/
structure Ledger [DecidableEq ι] (ident : U → ι) (hands : U → U → Prop) (uses live : List U) : Prop where
  chains : ∀ e, (uses.filter fun use => ident use = e).IsChain hands
  last : ∀ use ∈ live, (uses.filter fun other => ident other = ident use).getLast? = some use
  distinct : (live.map ident).Nodup

namespace Ledger
variable [DecidableEq ι] {ident : U → ι} {hands : U → U → Prop} {uses live live' : List U} {use next : U}

theorem empty : Ledger ident hands [] [] := by
  refine ⟨?_,?_,nodup_nil⟩
  · intro e
    exact isChain_nil
  · intro use known
    cases known

theorem perm (ledger : Ledger ident hands uses live) (same : live.Perm live') : Ledger ident hands uses live' :=
  ⟨ledger.chains,fun use known => ledger.last use (same.mem_iff.mpr known),(same.map ident).nodup_iff.mp ledger.distinct⟩

theorem issued (ledger : Ledger ident hands uses live) (known : use ∈ live) : use ∈ uses :=
  mem_of_mem_filter (mem_of_getLast? (ledger.last use known))

theorem chains_append (chains : ∀ e, (uses.filter fun use => ident use = e).IsChain hands)
    (last : ∀ old, (uses.filter fun other => ident other = ident next).getLast? = some old → hands old next) (e : ι) :
    ((uses ++ [next]).filter fun use => ident use = e).IsChain hands := by
  rw [filter_append]
  by_cases same : ident next = e
  · subst same
    rw [filter_cons_of_pos (by simp),filter_nil]
    refine isChain_append.mpr ⟨chains _,isChain_singleton _,?_⟩
    intro old isLast new isNew
    cases isNew
    exact last old isLast
  · rw [filter_cons_of_neg (by simpa using same),filter_nil,append_nil]
    exact chains e

theorem last_append (ledger : Ledger ident hands uses live) (others : ∀ use ∈ live', use ∈ live ∧ ident use ≠ ident next) :
    ∀ use ∈ live' ++ [next], ((uses ++ [next]).filter fun other => ident other = ident use).getLast? = some use := by
  intro use known
  rw [filter_append]
  rcases mem_append.mp known with known | known
  · obtain ⟨known,different⟩ := others use known
    rw [filter_cons_of_neg (by simpa using different.symm),filter_nil,append_nil]
    exact ledger.last use known
  · obtain rfl := mem_singleton.mp known
    simp

theorem fresh (ledger : Ledger ident hands uses live) (next : U) (new : ∀ use ∈ uses, ident use ≠ ident next) :
    Ledger ident hands (uses ++ [next]) (live ++ [next]) := by
  refine ⟨chains_append ledger.chains ?_,ledger.last_append ?_,?_⟩
  · intro old isLast
    have known := mem_filter.mp (mem_of_getLast? isLast)
    exact absurd (by simpa using known.2) (new old known.1)
  · intro use known
    exact ⟨known,new use (ledger.issued known)⟩
  · rw [map_append,nodup_append']
    refine ⟨ledger.distinct,nodup_singleton _,?_⟩
    intro e known isNew
    obtain ⟨use,inside,rfl⟩ := mem_map.mp known
    exact new use (ledger.issued inside) (by simpa using isNew)

theorem reuse (ledger : Ledger ident hands uses (use :: live)) (next : U) (same : ident next = ident use)
    (handed : hands use next) :
    Ledger ident hands (uses ++ [next]) (live ++ [next]) := by
  have distinct := nodup_cons.mp ledger.distinct
  refine ⟨chains_append ledger.chains ?_,ledger.last_append ?_,?_⟩
  · intro old isLast
    rw [same,ledger.last use (.head _)] at isLast
    cases isLast
    exact handed
  · intro other known
    refine ⟨.tail _ known,?_⟩
    intro equal
    exact distinct.1 (mem_map.mpr ⟨other,known,equal.trans same⟩)
  · rw [map_append,map_singleton,same]
    exact (perm_append_singleton _ _).nodup_iff.mpr ledger.distinct

end Ledger
end GraphEngine.Lib

import Mathlib.Data.Finset.Insert
import Mathlib.Data.Finset.Lattice.Basic

/-! Happens-before over a log of points, each made by an actor that may record or wait for an event: the closure of program
order and of the edges from the last record of an event to a wait for it. Clocks computed along the log decide it. -/
namespace GraphEngine.Lib.Causality

open Function Finset

inductive Action (ε : Type) where
  | internal
  | record (event : ε)
  | wait (event : ε)
  deriving DecidableEq

structure View (α σ ε : Type) where
  actor : α → σ
  action : α → Action ε

variable {α σ ε : Type}

def At : List α → Nat → α → Prop
  | [],_,_ => False
  | point :: older,i,p => i = older.length ∧ p = point ∨ At older i p

instance decidableAt [DecidableEq α] : (log : List α) → (i : Nat) → (p : α) → Decidable (At log i p)
  | [],_,_ => isFalse False.elim
  | point :: older,i,p =>
    have := decidableAt older i p
    inferInstanceAs (Decidable (i = older.length ∧ p = point ∨ At older i p))

def Direct (view : View α σ ε) (log : List α) (i j : Nat) : Prop :=
  i < j ∧ ∃ p q, At log i p ∧ At log j q ∧ (view.actor p = view.actor q ∨
    ∃ event, view.action p = .record event ∧ view.action q = .wait event ∧
      ∀ k r, i < k → k < j → At log k r → view.action r ≠ .record event)

def HappensBefore (view : View α σ ε) (log : List α) : Nat → Nat → Prop := Relation.TransGen (Direct view log)

structure Clock (σ ε : Type) where
  known : σ → Finset Nat
  sent : ε → Finset Nat

section Clock
variable [DecidableEq σ] [DecidableEq ε] (view : View α σ ε)

def past (clock : Clock σ ε) (point : α) : Finset Nat :=
  clock.known (view.actor point) ∪ (match view.action point with
    | .wait event => clock.sent event
    | _ => ∅)

def tick (clock : Clock σ ε) (time : Nat) (point : α) : Clock σ ε where
  known := Function.update clock.known (view.actor point) (insert time (past view clock point))
  sent := match view.action point with
    | .record event => Function.update clock.sent event (insert time (past view clock point))
    | _ => clock.sent

def clock : List α → Clock σ ε
  | [] => ⟨fun _ => ∅,fun _ => ∅⟩
  | point :: older => tick view (clock older) older.length point

def pastAt : List α → Nat → Finset Nat
  | [],_ => ∅
  | point :: older,j => if j = older.length then past view (clock view older) point else pastAt older j
end Clock

section At
variable {log older : List α} {i j : Nat} {p q point : α}

theorem At.lt (at_ : At log i p) : i < log.length := by
  induction log with
  | nil => exact at_.elim
  | cons point older ih =>
    rcases at_ with ⟨rfl,-⟩ | earlier
    · exact Nat.lt_succ_self _
    · exact (ih earlier).trans (Nat.lt_succ_self _)

theorem At.cons (point : α) (at_ : At log i p) : At (point :: log) i p := .inr at_

theorem At.of_cons (at_ : At (point :: older) i p) (before : i < older.length) : At older i p := by
  rcases at_ with ⟨here,-⟩ | earlier
  · omega
  · exact earlier

theorem at_last (point : α) (older : List α) : At (point :: older) older.length point := .inl ⟨rfl,rfl⟩

theorem at_head (head : p ∈ log.head?) : At log (log.length - 1) p := by
  cases log with
  | nil => cases head
  | cons point older =>
    cases head
    exact at_last p older
end At

section Order
variable {view : View α σ ε} {log older : List α} {point : α} {i j k : Nat}

theorem Direct.cons (direct : Direct view log i j) (point : α) : Direct view (point :: log) i j := by
  obtain ⟨less,p,q,atP,atQ,edge⟩ := direct
  refine ⟨less,p,q,atP.cons point,atQ.cons point,edge.imp_right ?_⟩
  rintro ⟨event,record,wait,last⟩
  exact ⟨event,record,wait,fun k r above below at_ => last k r above below (at_.of_cons (below.trans atQ.lt))⟩

theorem HappensBefore.cons (before : HappensBefore view log i j) (point : α) : HappensBefore view (point :: log) i j := by
  induction before with
  | single direct => exact .single (direct.cons point)
  | tail _ direct ih => exact .tail ih (direct.cons point)

theorem HappensBefore.lt (before : HappensBefore view log i j) : i < j := by
  induction before with
  | single direct => exact direct.1
  | tail _ direct ih => exact ih.trans direct.1

theorem mem_past {clock : Clock σ ε} : i ∈ past view clock point ↔
    i ∈ clock.known (view.actor point) ∨ ∃ event, view.action point = .wait event ∧ i ∈ clock.sent event := by
  rw [past,mem_union]
  cases view.action point with
  | internal => simp
  | record _ => simp
  | wait _ => simp

variable [DecidableEq σ] [DecidableEq ε] {event : ε}

theorem known_step (actor : σ) : (clock view (point :: log)).known actor = if actor = view.actor point then
    insert log.length (past view (clock view log) point) else (clock view log).known actor := update_apply ..

theorem sent_step (event : ε) : (clock view (point :: log)).sent event = if view.action point = .record event then
    insert log.length (past view (clock view log) point) else (clock view log).sent event := by
  cases action : view.action point with
  | internal => simp [clock,tick,action]
  | wait _ => simp [clock,tick,action]
  | record other => simp [clock,tick,action,update_apply,eq_comm]

/-- What a clock knows comes from points of the log that are at or before a point of the actor, or
at or before the last record of the event. -/
structure Grounded (view : View α σ ε) (log : List α) : Prop where
  known : ∀ actor, ∀ i ∈ (clock view log).known actor, ∃ j p, At log j p ∧ view.actor p = actor ∧
    (i = j ∨ HappensBefore view log i j)
  sent : ∀ event, ∀ i ∈ (clock view log).sent event, ∃ j p, At log j p ∧ view.action p = .record event ∧
    (∀ k r, j < k → At log k r → view.action r ≠ .record event) ∧ (i = j ∨ HappensBefore view log i j)

theorem Grounded.past (grounded : Grounded view older) (point : α)
    (learned : i ∈ Causality.past view (clock view older) point) : HappensBefore view (point :: older) i older.length := by
  have reach : ∀ {j}, i = j ∨ HappensBefore view older i j → Direct view (point :: older) j older.length →
      HappensBefore view (point :: older) i older.length := by
    rintro j (rfl | before) direct
    · exact .single direct
    · exact .tail (before.cons point) direct
  rcases mem_past.mp learned with own | ⟨event,wait,news⟩
  · obtain ⟨j,p,atP,actor,order⟩ := grounded.known _ i own
    exact reach order ⟨atP.lt,p,point,atP.cons point,at_last point older,.inl actor⟩
  · obtain ⟨j,p,atP,record,last,order⟩ := grounded.sent event i news
    refine reach order ⟨atP.lt,p,point,atP.cons point,at_last point older,.inr ⟨event,record,wait,?_⟩⟩
    intro k r above below atR
    exact last k r above (atR.of_cons below)

theorem grounded (view : View α σ ε) (log : List α) : Grounded view log := by
  induction log with
  | nil => exact ⟨by simp [clock],by simp [clock]⟩
  | cons point older ih =>
    have learn : ∀ i, i ∈ insert older.length (past view (clock view older) point) →
        i = older.length ∨ HappensBefore view (point :: older) i older.length := by
      intro i member
      exact (mem_insert.mp member).imp_right (ih.past point)
    constructor
    · intro actor i member
      rw [known_step] at member
      split at member
      next same => exact ⟨older.length,point,at_last point older,same.symm,learn i member⟩
      next =>
        obtain ⟨j,p,atP,actor,order⟩ := ih.known actor i member
        exact ⟨j,p,atP.cons point,actor,order.imp_right (·.cons point)⟩
    · intro event i member
      rw [sent_step] at member
      split at member
      next record =>
        refine ⟨older.length,point,at_last point older,record,?_,learn i member⟩
        intro k r above atR
        have below := atR.lt
        rw [List.length_cons] at below
        omega
      next other =>
        obtain ⟨j,p,atP,record,last,order⟩ := ih.sent event i member
        refine ⟨j,p,atP.cons point,record,?_,order.imp_right (·.cons point)⟩
        rintro k r above (⟨-,rfl⟩ | earlier)
        · exact other
        · exact last k r above earlier

theorem mem_pastAt_sound (member : i ∈ pastAt view log j) : HappensBefore view log i j := by
  induction log with
  | nil => simp [pastAt] at member
  | cons point older ih =>
    simp only [pastAt] at member
    split at member
    next here => exact here ▸ (grounded view older).past point member
    next => exact (ih member).cons point

theorem mem_known (at_ : At log i point) : i ∈ (clock view log).known (view.actor point) := by
  induction log with
  | nil => exact at_.elim
  | cons last older ih =>
    rw [known_step]
    rcases at_ with ⟨rfl,rfl⟩ | earlier
    · simp
    · split
      next same =>
        rw [mem_insert,mem_past]
        exact .inr (.inl (same ▸ ih earlier))
      next => exact ih earlier

theorem mem_sent (at_ : At log i point) (record : view.action point = .record event)
    (last : ∀ k r, i < k → At log k r → view.action r ≠ .record event) : i ∈ (clock view log).sent event := by
  induction log with
  | nil => exact at_.elim
  | cons newest older ih =>
    rw [sent_step]
    rcases at_ with ⟨rfl,rfl⟩ | earlier
    · simp [record]
    · rw [if_neg (last _ _ earlier.lt (at_last newest older))]
      exact ih earlier fun k r above atR => last k r above (atR.cons newest)

theorem known_subset_cons (point : α) (log : List α) (actor : σ) :
    (clock view log).known actor ⊆ (clock view (point :: log)).known actor := by
  intro i member
  rw [known_step]
  split
  next same =>
    rw [mem_insert,mem_past]
    exact .inr (.inl (same ▸ member))
  next => exact member

theorem sent_subset_wait (wait : view.action point = .wait event) (log : List α) :
    (clock view log).sent event ⊆ (clock view (point :: log)).known (view.actor point) := by
  intro i member
  rw [known_step,if_pos rfl,mem_insert,mem_past]
  exact .inr (.inr ⟨event,wait,member⟩)

theorem known_subset_record (record : view.action point = .record event) (log : List α) :
    (clock view log).known (view.actor point) ⊆ (clock view (point :: log)).sent event := by
  intro i member
  rw [sent_step,if_pos record,mem_insert,mem_past]
  exact .inr (.inl member)

theorem sent_cons (other : view.action point ≠ .record event) (log : List α) :
    (clock view (point :: log)).sent event = (clock view log).sent event := (sent_step event).trans (if_neg other)

theorem happensBefore_next (member : i ∈ (clock view log).known (view.actor point)) :
    HappensBefore view (point :: log) i log.length :=
  (grounded view log).past point (mem_past.mpr (.inl member))

theorem clock_closed (view : View α σ ε) (log : List α) :
    (∀ actor j, j ∈ (clock view log).known actor → pastAt view log j ⊆ (clock view log).known actor) ∧
      ∀ event j, j ∈ (clock view log).sent event → pastAt view log j ⊆ (clock view log).sent event := by
  induction log with
  | nil => simp [clock]
  | cons point older ih =>
    obtain ⟨known,sent⟩ := ih
    have closed : ∀ j, j ∈ insert older.length (past view (clock view older) point) →
        pastAt view (point :: older) j ⊆ insert older.length (past view (clock view older) point) := by
      intro j member
      unfold pastAt
      split
      next => exact subset_insert _ _
      next before =>
        refine subset_trans ?_ (subset_insert _ _)
        intro i inside
        rcases mem_past.mp ((mem_insert.mp member).resolve_left before) with own | ⟨event,wait,news⟩
        · exact mem_past.mpr (.inl (known _ j own inside))
        · exact mem_past.mpr (.inr ⟨event,wait,sent event j news inside⟩)
    have older_ : ∀ {S : Finset Nat}, (∀ j ∈ S, pastAt view older j ⊆ S) → (∀ j ∈ S, j < older.length) →
        ∀ j ∈ S, pastAt view (point :: older) j ⊆ S := by
      intro S inside below j member
      unfold pastAt
      rw [if_neg (below j member).ne]
      exact inside j member
    have small := grounded view older
    constructor
    · intro actor j member
      rw [known_step] at member ⊢
      split at member
      next same =>
        rw [if_pos same]
        exact closed j member
      next apart =>
        rw [if_neg apart]
        refine older_ (fun j => known actor j) ?_ j member
        intro k memberK
        obtain ⟨j',p,atP,-,order⟩ := small.known actor k memberK
        rcases order with rfl | before
        · exact atP.lt
        · exact before.lt.trans atP.lt
    · intro event j member
      rw [sent_step] at member ⊢
      split at member
      next record =>
        rw [if_pos record]
        exact closed j member
      next other =>
        rw [if_neg other]
        refine older_ (fun j => sent event j) ?_ j member
        intro k memberK
        obtain ⟨j',p,atP,-,-,order⟩ := small.sent event k memberK
        rcases order with rfl | before
        · exact atP.lt
        · exact before.lt.trans atP.lt

theorem direct_mem_pastAt (direct : Direct view log i j) : i ∈ pastAt view log j := by
  induction log with
  | nil => obtain ⟨-,p,q,atP,-⟩ := direct; exact atP.elim
  | cons point older ih =>
    obtain ⟨less,p,q,atP,atQ,edge⟩ := direct
    unfold pastAt
    rcases atQ with ⟨rfl,rfl⟩ | earlier
    · rw [if_pos rfl,mem_past]
      have before := atP.of_cons less
      rcases edge with same | ⟨event,record,wait,last⟩
      · exact .inl (same ▸ mem_known before)
      · exact .inr ⟨event,wait,mem_sent before record fun k r above atR => last k r above atR.lt (atR.cons q)⟩
    · rw [if_neg earlier.lt.ne]
      apply ih
      refine ⟨less,p,q,atP.of_cons (less.trans earlier.lt),earlier,edge.imp_right ?_⟩
      rintro ⟨event,record,wait,last⟩
      exact ⟨event,record,wait,fun k r above below atR => last k r above below (atR.cons point)⟩

theorem pastAt_trans (first : i ∈ pastAt view log j) (second : j ∈ pastAt view log k) : i ∈ pastAt view log k := by
  induction log with
  | nil => simp [pastAt] at second
  | cons point older ih =>
    have less := (mem_pastAt_sound second).lt
    unfold pastAt at second
    split at second
    next here =>
      subst here
      have earlier : i ∈ pastAt view older j := by
        unfold pastAt at first
        rwa [if_neg less.ne] at first
      obtain ⟨known,sent⟩ := clock_closed view older
      rw [pastAt,if_pos rfl,mem_past]
      rcases mem_past.mp second with own | ⟨event,wait,news⟩
      · exact .inl (known _ j own earlier)
      · exact .inr ⟨event,wait,sent event j news earlier⟩
    next away =>
      have below : k < older.length := by
        obtain ⟨_,-,direct⟩ := Relation.TransGen.tail'_iff.mp (mem_pastAt_sound second)
        exact direct.2.choose_spec.choose_spec.2.1.lt
      unfold pastAt at first ⊢
      rw [if_neg (less.trans below).ne] at first
      rw [if_neg away]
      exact ih first second

theorem happensBefore_iff : HappensBefore view log i j ↔ i ∈ pastAt view log j := by
  constructor
  · intro before
    induction before with
    | single direct => exact direct_mem_pastAt direct
    | tail _ direct ih => exact pastAt_trans ih (direct_mem_pastAt direct)
  · exact mem_pastAt_sound

end Order
end GraphEngine.Lib.Causality

import GraphEngine.Lib.Outcome

/-! Readers that walk over a list with an offset, and what they take off the rest of it. -/

namespace GraphEngine.Lib
open List

variable {ε β ι α : Type} {data : List β} {read : ι → StateT Nat (Except ε) α} {shape : ι → List β → List β → α → Prop}

/-- At each place of the data the reader gives just the items that fit a first part of what follows, and goes behind it. -/
def Takes (data : List β) (read : StateT Nat (Except ε) α) (shape : List β → List β → α → Prop) : Prop :=
  ∀ ⦃front body item stop⦄, data = front ++ body → (read front.length = .ok (item,stop) ↔
    ∃ used tail, body = used ++ tail ∧ shape used tail item ∧ stop = (front ++ used).length)

theorem Takes.whole {read : StateT Nat (Except ε) α} {shape : List β → List β → α → Prop} (takes : Takes data read shape)
    (item : α) : read 0 = .ok (item,data.length) ↔ shape data [] item := by
  have start : data = [] ++ data := rfl
  refine (takes start).trans ?_
  constructor
  · rintro ⟨used,tail,rfl,fits,length⟩
    have none : tail = [] := by simpa using length
    simpa [none] using fits
  · exact fun fits => ⟨data,[],by simp,fits,by simp⟩

/-- The parts of the items, one after the other, and what is left. -/
inductive Chain (shape : ι → List β → List β → α → Prop) : List ι → List β → List β → List α → Prop
  | nil {tail} : Chain shape [] [] tail []
  | cons {i rest used more tail item found} (first : shape i used (more ++ tail) item)
    (later : Chain shape rest more tail found) : Chain shape (i :: rest) (used ++ more) tail (item :: found)

theorem Takes.mapM (each : ∀ i, Takes data (read i) (shape i)) (items : List ι) :
    Takes data (items.mapM read) (Chain shape items) := by
  intro front body found stop whole
  induction items generalizing front body found with
  | nil =>
    constructor
    · rintro ⟨⟩
      exact ⟨[],body,rfl,.nil,by simp⟩
    · rintro ⟨_,_,-,⟨⟩,rfl⟩
      rw [append_nil]
      rfl
  | cons i rest ih =>
    rw [mapM_cons]
    constructor
    · intro ok
      obtain ⟨⟨item,next⟩,first,ok⟩ := bind_ok ok
      obtain ⟨⟨found,last⟩,later,same⟩ := bind_ok ok
      cases same
      obtain ⟨used,tail,rfl,fits,rfl⟩ := (each i whole).mp first
      obtain ⟨more,tail,rfl,chain,rfl⟩ := (ih (by rw [whole,append_assoc])).mp later
      exact ⟨used ++ more,tail,by simp,.cons fits chain,by simp⟩
    · rintro ⟨_,tail,rfl,chain,rfl⟩
      cases chain with
      | @cons _ _ used more _ item found fits chain =>
        have first := (each i whole).mpr ⟨used,more ++ tail,by simp,fits,rfl⟩
        have behind : data = front ++ used ++ (more ++ tail) := by simp [whole]
        have later := (ih behind).mpr ⟨more,tail,rfl,chain,by simp⟩
        change (read i front.length >>= _) = _
        rw [first]
        change (rest.mapM read (front ++ used).length >>= _) = _
        rw [later]
        rfl

end GraphEngine.Lib

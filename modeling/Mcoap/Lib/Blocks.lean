import Mathlib.Logic.Function.Basic

/-! # Memory as blocks

    Blocks that are allocated and freed, for C code that works with several
    pointers at once.  A pointer names a block; what a block may hold is a
    parameter.

    * `Store`: the blocks, none of them at a pointer not given out yet;
    * `alloc`, `store`, `free`: what the code does to them;
    * `Extends`, `ExtendsBut`: the blocks that were there, or all but one of
      them, are still there, unchanged. -/

namespace Blocks

abbrev Ptr : Type := Nat

/-- What lies behind each pointer; nothing where a block was freed, and
    nothing from `brk` on. -/
structure Store (β : Type) where
  blocks : Ptr → Option β
  brk    : Ptr
  unused : ∀ p, brk ≤ p → blocks p = none

variable {β : Type} {s s' s'' : Store β} {p q : Ptr} {b : β}

namespace Store

/-- No blocks yet. -/
def empty : Store β := ⟨fun _ => none, 0, fun _ _ => rfl⟩

/-- A new block, and the pointer to it. -/
def alloc (s : Store β) (b : β) : Ptr × Store β :=
  (s.brk,
    { blocks := Function.update s.blocks s.brk (some b)
      brk := s.brk + 1
      unused := fun p hp => by
        rw [Function.update_of_ne (Nat.ne_of_gt hp)]
        exact s.unused p (Nat.le_of_succ_le hp) })

/-- Change the block at a pointer, if there is one. -/
def store (s : Store β) (p : Ptr) (b : β) : Store β where
  blocks := Function.update s.blocks p ((s.blocks p).map fun _ => b)
  brk := s.brk
  unused := fun q hq => by
    by_cases h : q = p
    · subst h
      rw [Function.update_self, s.unused q hq]
      rfl
    · rw [Function.update_of_ne h]
      exact s.unused q hq

/-- Free the block at a pointer. -/
def free (s : Store β) (p : Ptr) : Store β where
  blocks := Function.update s.blocks p none
  brk := s.brk
  unused := fun q hq => by
    by_cases h : q = p
    · rw [h, Function.update_self]
    · rw [Function.update_of_ne h]
      exact s.unused q hq

@[simp] theorem alloc_ptr (s : Store β) (b : β) : (s.alloc b).1 = s.brk := rfl

@[simp] theorem alloc_self (s : Store β) (b : β) : (s.alloc b).2.blocks s.brk = some b :=
  Function.update_self ..

theorem store_self (s : Store β) {p : Ptr} {old : β} (b : β) (h : s.blocks p = some old) :
    (s.store p b).blocks p = some b := by
  show Function.update s.blocks p ((s.blocks p).map fun _ => b) p = some b
  rw [Function.update_self, h]
  rfl

theorem store_ne (s : Store β) (b : β) (h : q ≠ p) : (s.store p b).blocks q = s.blocks q :=
  Function.update_of_ne h ..

theorem free_ne (s : Store β) (h : q ≠ p) : (s.free p).blocks q = s.blocks q :=
  Function.update_of_ne h ..

/-- A block that is there has been given out. -/
theorem lt_brk (s : Store β) (h : s.blocks p = some b) : p < s.brk := by
  by_contra hlt
  rw [s.unused p (Nat.le_of_not_lt hlt)] at h
  cases h

end Store

/-! ## What stays -/

/-- Every block that was there is still there, and holds the same. -/
structure Extends (s s' : Store β) : Prop where
  brk  : s.brk ≤ s'.brk
  kept : ∀ p b, s.blocks p = some b → s'.blocks p = some b

theorem Extends.refl (s : Store β) : Extends s s := ⟨Nat.le_refl _, fun _ _ h => h⟩

theorem Extends.trans (h : Extends s s') (h' : Extends s' s'') : Extends s s'' :=
  ⟨Nat.le_trans h.brk h'.brk, fun p b hb => h'.kept p b (h.kept p b hb)⟩

theorem extends_alloc (s : Store β) (b : β) : Extends s (s.alloc b).2 := by
  constructor
  · exact Nat.le_succ s.brk
  · intro p c hc
    have hne : p ≠ s.brk := Nat.ne_of_lt (s.lt_brk hc)
    exact (Function.update_of_ne hne ..).trans hc

/-- The same of every block but one. -/
structure ExtendsBut (p : Ptr) (s s' : Store β) : Prop where
  brk  : s.brk ≤ s'.brk
  kept : ∀ q b, q ≠ p → s.blocks q = some b → s'.blocks q = some b

theorem Extends.store (h : Extends s s') (p : Ptr) (b : β) : ExtendsBut p s (s'.store p b) :=
  ⟨h.brk, fun q c hne hc => (s'.store_ne b hne).trans (h.kept q c hc)⟩

/-- The one block is newer than those that matter. -/
theorem Extends.trans_but (h : Extends s s') (h' : ExtendsBut p s' s'') (hp : s.brk ≤ p) :
    Extends s s'' := by
  constructor
  · exact Nat.le_trans h.brk h'.brk
  · intro q b hb
    have hne : q ≠ p := Nat.ne_of_lt (Nat.lt_of_lt_of_le (s.lt_brk hb) hp)
    exact h'.kept q b hne (h.kept q b hb)

end Blocks

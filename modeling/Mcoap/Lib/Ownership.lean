import Mathlib.Data.List.Perm.Basic
import Mathlib.Data.List.Nodup
import Mcoap.Lib.Blocks

/-! # Who owns which block

    A program that keeps account of its blocks: a list of pointers that names
    every block that is there, and each of them once.  Then no block is
    lost, none has two owners, and none is freed twice.

    * `Owned`: the account; `alloc`, `store` and `free` keep it;
    * `Same`: some blocks are left alone, `Owned.same_of_extends` and
      `Owned.same_of_free`: which ones an allocation and a `free` leave. -/

namespace Blocks

variable {β : Type} {s s' s'' : Store β} {p q : Ptr} {b : β} {ps qs rs : List Ptr}

/-! ## The account -/

/-- The pointers name the blocks that are there, each once. -/
structure Owned (s : Store β) (ps : List Ptr) : Prop where
  nodup : ps.Nodup
  live  : ∀ p, p ∈ ps ↔ (s.blocks p).isSome

theorem owned_empty : Owned (Store.empty : Store β) [] :=
  ⟨List.nodup_nil, fun p => by simp [Store.empty]⟩

theorem Owned.perm (h : Owned s ps) (hp : ps.Perm qs) : Owned s qs :=
  ⟨hp.nodup_iff.mp h.nodup, fun p => (hp.mem_iff.symm).trans (h.live p)⟩

theorem Owned.block (h : Owned s ps) (hp : p ∈ ps) : ∃ b, s.blocks p = some b :=
  Option.isSome_iff_exists.mp ((h.live p).mp hp)

theorem Owned.mem (h : Owned s ps) (hb : s.blocks p = some b) : p ∈ ps :=
  (h.live p).mpr (by rw [hb]; rfl)

theorem Owned.lt_brk (h : Owned s ps) (hp : p ∈ ps) : p < s.brk := by
  obtain ⟨b, hb⟩ := h.block hp
  exact s.lt_brk hb

/-- A new block has no owner yet. -/
theorem Owned.alloc (h : Owned s ps) (b : β) : Owned (s.alloc b).2 (s.brk :: ps) := by
  constructor
  · rw [List.nodup_cons]
    exact ⟨fun hmem => absurd (h.lt_brk hmem) (Nat.lt_irrefl _), h.nodup⟩
  · intro p
    by_cases hp : p = s.brk
    · rw [hp, Store.alloc_self]
      simp
    · show p ∈ s.brk :: ps ↔ (Function.update s.blocks s.brk (some b) p).isSome
      rw [Function.update_of_ne hp, ← h.live p, List.mem_cons]
      exact or_iff_right hp

theorem Owned.store (h : Owned s ps) (p : Ptr) (b : β) : Owned (s.store p b) ps := by
  refine ⟨h.nodup, fun q => ?_⟩
  rw [h.live q]
  by_cases hq : q = p
  · subst hq
    show _ ↔ (Function.update s.blocks q ((s.blocks q).map fun _ => b) q).isSome
    rw [Function.update_self, Option.isSome_map]
  · rw [s.store_ne b hq]

theorem Owned.free (h : Owned s (p :: ps)) : Owned (s.free p) ps := by
  obtain ⟨hp, hps⟩ := List.nodup_cons.mp h.nodup
  refine ⟨hps, fun q => ?_⟩
  by_cases hq : q = p
  · subst hq
    show _ ↔ (Function.update s.blocks q none q).isSome
    rw [Function.update_self]
    simpa using hp
  · rw [s.free_ne hq, ← h.live q, List.mem_cons, or_iff_right hq]

/-! ## What is left alone -/

/-- These blocks hold what they held. -/
def Same (ps : List Ptr) (s s' : Store β) : Prop := ∀ p ∈ ps, s'.blocks p = s.blocks p

theorem Same.refl (ps : List Ptr) (s : Store β) : Same ps s s := fun _ _ => rfl

theorem Same.trans (h : Same ps s s') (h' : Same ps s' s'') : Same ps s s'' :=
  fun p hp => (h' p hp).trans (h p hp)

theorem Same.subset (h : Same ps s s') (hsub : qs ⊆ ps) : Same qs s s' :=
  fun p hp => h p (hsub hp)

/-- What grows leaves everything alone that was there. -/
theorem Owned.same_of_extends (h : Owned s ps) (hext : Extends s s') : Same ps s s' := by
  intro p hp
  obtain ⟨b, hb⟩ := h.block hp
  rw [hb]
  exact hext.kept p b hb

/-- A `free` leaves alone what has another owner. -/
theorem Owned.same_of_free (h : Owned s (p :: ps)) : Same ps s (s.free p) := by
  intro q hq
  have hne : q ≠ p := by
    rintro rfl
    exact (List.nodup_cons.mp h.nodup).1 hq
  exact s.free_ne hne

/-- So does a `store`. -/
theorem Owned.same_of_store (h : Owned s (p :: ps)) (b : β) : Same ps s (s.store p b) := by
  intro q hq
  have hne : q ≠ p := by
    rintro rfl
    exact (List.nodup_cons.mp h.nodup).1 hq
  exact s.store_ne b hne

end Blocks

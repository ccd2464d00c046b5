import Mathlib.Logic.Function.Basic
import Mathlib.Data.List.Basic

/-! # Byte memories

    A memory block seen from its base pointer: index `i` is the byte `i`
    places after it.  The block has no built-in end.  A program that reads
    past the bytes it owns finds whatever the memory holds there, so a
    statement about every memory covers every leftover content, and a
    bound on the indices is a statement of its own.

    * `slice m p n`: the `n` bytes from `p` on (what `memcpy` reads);
    * `blit m p bs`: the memory after `bs` is stored from `p` on;
    * `Holds m p bs`: the bytes from `p` on are `bs`. -/

namespace ByteMem

/-- A byte memory: what lies at each distance from the base pointer. -/
abbrev Mem : Type := Nat → UInt8

/-- Store one byte. -/
def put (m : Mem) (i : Nat) (b : UInt8) : Mem :=
  fun j => if j = i then b else m j

@[simp] theorem put_self (m : Mem) (i : Nat) (b : UInt8) : put m i b i = b := by
  simp [put]

@[simp] theorem put_ne (m : Mem) (i j : Nat) (b : UInt8) (h : j ≠ i) :
    put m i b j = m j := by
  simp [put, h]

/-- The `n` bytes from `p` on. -/
def slice (m : Mem) (p : Nat) : Nat → List UInt8
  | 0 => []
  | n + 1 => m p :: slice m (p + 1) n

/-- Store the bytes `bs` from `p` on. -/
def blit (m : Mem) (p : Nat) : List UInt8 → Mem
  | [] => m
  | b :: bs => blit (put m p b) (p + 1) bs

/-- The bytes from `p` on are `bs`. -/
def Holds (m : Mem) (p : Nat) : List UInt8 → Prop
  | [] => True
  | b :: bs => m p = b ∧ Holds m (p + 1) bs

@[simp] theorem holds_nil (m : Mem) (p : Nat) : Holds m p [] := trivial

@[simp] theorem holds_cons (m : Mem) (p : Nat) (b : UInt8) (bs : List UInt8) :
    Holds m p (b :: bs) ↔ m p = b ∧ Holds m (p + 1) bs := Iff.rfl

/-! ## Slices -/

@[simp] theorem slice_zero (m : Mem) (p : Nat) : slice m p 0 = [] := rfl

@[simp] theorem slice_length (m : Mem) (p n : Nat) : (slice m p n).length = n := by
  induction n generalizing p with
  | zero => rfl
  | succ n ih => simp [slice, ih]

/-- A slice only depends on the bytes it covers. -/
theorem slice_congr {m m' : Mem} {p n : Nat}
    (h : ∀ i, p ≤ i → i < p + n → m i = m' i) : slice m p n = slice m' p n := by
  induction n generalizing p with
  | zero => rfl
  | succ n ih =>
    have htl := ih (p := p + 1) (fun i h1 h2 => h i (by omega) (by omega))
    simp [slice, h p (Nat.le_refl _) (by omega), htl]

theorem holds_slice (m : Mem) (p n : Nat) : Holds m p (slice m p n) := by
  induction n generalizing p with
  | zero => trivial
  | succ n ih => exact ⟨rfl, ih (p + 1)⟩

theorem slice_of_holds {m : Mem} {p : Nat} {bs : List UInt8} (h : Holds m p bs) :
    slice m p bs.length = bs := by
  induction bs generalizing p with
  | nil => rfl
  | cons b bs ih =>
    obtain ⟨hb, htl⟩ := h
    simp [slice, hb, ih htl]

theorem holds_iff_slice (m : Mem) (p : Nat) (bs : List UInt8) :
    Holds m p bs ↔ slice m p bs.length = bs := by
  constructor
  · exact slice_of_holds
  · intro h
    rw [← h]
    exact holds_slice m p bs.length

theorem holds_append (m : Mem) (p : Nat) (as bs : List UInt8) :
    Holds m p (as ++ bs) ↔ Holds m p as ∧ Holds m (p + as.length) bs := by
  induction as generalizing p with
  | nil => simp
  | cons a as ih =>
    have hp : p + (a :: as).length = p + 1 + as.length := by simp; omega
    rw [hp, List.cons_append, holds_cons, holds_cons, ih, and_assoc]

theorem Holds.congr {m m' : Mem} {p : Nat} {bs : List UInt8} (h : Holds m p bs)
    (hm : ∀ i, p ≤ i → i < p + bs.length → m i = m' i) : Holds m' p bs := by
  rw [holds_iff_slice] at h ⊢
  rw [← slice_congr hm]
  exact h

/-- Two memories that hold the same bytes agree on them. -/
theorem Holds.agree {m m' : Mem} {p : Nat} {bs : List UInt8} (h : Holds m p bs)
    (h' : Holds m' p bs) : ∀ i, p ≤ i → i < p + bs.length → m' i = m i := by
  induction bs generalizing p with
  | nil => exact fun i hi hlt => absurd hlt (by simpa using hi)
  | cons b bs ih =>
    intro i hi hlt
    rw [List.length_cons] at hlt
    rcases Nat.eq_or_lt_of_le hi with rfl | hgt
    · rw [h.1, h'.1]
    · exact ih h.2 h'.2 i hgt (by omega)

/-! ## Stores -/

@[simp] theorem blit_nil (m : Mem) (p : Nat) : blit m p [] = m := rfl

/-- A store leaves every byte outside its range alone. -/
theorem blit_outside (m : Mem) (p : Nat) (bs : List UInt8) (i : Nat)
    (h : i < p ∨ p + bs.length ≤ i) : blit m p bs i = m i := by
  induction bs generalizing m p with
  | nil => rfl
  | cons b bs ih =>
    simp only [List.length_cons] at h
    rw [blit, ih (put m p b) (p + 1) (by omega), put_ne]
    omega

/-- What was stored is what is read back. -/
theorem holds_blit (m : Mem) (p : Nat) (bs : List UInt8) : Holds (blit m p bs) p bs := by
  induction bs generalizing m p with
  | nil => trivial
  | cons b bs ih =>
    refine ⟨?_, ih (put m p b) (p + 1)⟩
    rw [blit, blit_outside _ _ _ _ (Or.inl (Nat.lt_succ_self p)), put_self]

theorem blit_append (m : Mem) (p : Nat) (as bs : List UInt8) :
    blit m p (as ++ bs) = blit (blit m p as) (p + as.length) bs := by
  induction as generalizing m p with
  | nil => rfl
  | cons a as ih =>
    have hp : p + (a :: as).length = p + 1 + as.length := by simp; omega
    rw [hp]
    exact ih (put m p a) (p + 1)

/-- The memory whose first bytes are `bs`; past them it is zero. -/
def ofList (bs : List UInt8) : Mem := fun i => bs.getD i 0

theorem holds_ofList (bs : List UInt8) : Holds (ofList bs) 0 bs := by
  suffices h : ∀ (pre suf : List UInt8), Holds (ofList (pre ++ suf)) pre.length suf from
    h [] bs
  intro pre suf
  induction suf generalizing pre with
  | nil => trivial
  | cons b suf ih =>
    refine ⟨by simp [ofList], ?_⟩
    have htl := ih (pre ++ [b])
    simpa using htl

/-- A shorter piece from the same place. -/
theorem slice_take (m : Mem) (p : Nat) {k n : Nat} (h : k ≤ n) :
    (slice m p n).take k = slice m p k := by
  induction n generalizing p k with
  | zero =>
    rw [Nat.le_zero.mp h]
    rfl
  | succ n ih =>
    cases k with
    | zero => rfl
    | succ k =>
      rw [slice, List.take_succ_cons, ih (p + 1) (Nat.le_of_succ_le_succ h)]
      rfl

theorem slice_ofList (bs : List UInt8) : slice (ofList bs) 0 bs.length = bs :=
  slice_of_holds (holds_ofList bs)

end ByteMem

import Mcoap.Lib.ByteMem

/-! # Programs over a byte memory

    A small language for C code that works through a pointer into one
    memory block: it reads bytes, writes bytes, and uses the value of an
    uninitialised local (`draw`).  `abort` is a run with no defined result
    (a null dereference, a loop that does not come to an end).

    * `run` executes a program on a memory and a supply of values for the
      uninitialised locals, and keeps the trace of indices touched.
    * `wp` is the demonic predicate transformer: it quantifies over every
      value drawn and, by its `Mode`, constrains which values are drawn,
      which indices may be touched and whether the run may abort.
    * `wp_iff_run` says that the two agree, so a proof with the rules of
      `wp` is a statement about every run.
    * `can` is the angelic counterpart: some run keeps to a set of reads and
      ends as asked; `can_iff_run` says so.
    * `run_congr` says that a run only depends on the bytes it reads. -/

namespace ByteProg

open ByteMem

/-- Programs with results in `α`; `ω` is the type of the values an
    uninitialised local may hold. -/
inductive Prog (ω : Type) (α : Type) where
  | ret (a : α)
  | read (i : Nat) (k : UInt8 → Prog ω α)
  | write (i : Nat) (b : UInt8) (k : Prog ω α)
  | draw (k : ω → Prog ω α)
  | abort

namespace Prog

variable {ω α β : Type}

def bind : Prog ω α → (α → Prog ω β) → Prog ω β
  | ret a, f => f a
  | read i k, f => read i fun b => (k b).bind f
  | write i b k, f => write i b (k.bind f)
  | draw k, f => draw fun w => (k w).bind f
  | abort, _ => abort

instance : Monad (Prog ω) where
  pure := ret
  bind := bind

/-- Read one byte. -/
def readByte (i : Nat) : Prog ω UInt8 := read i ret

/-- Write one byte. -/
def writeByte (i : Nat) (b : UInt8) : Prog ω Unit := write i b (ret ())

/-- The value an uninitialised local happens to hold. -/
def drawn : Prog ω ω := draw ret

/-- `memcpy` out of the memory. -/
def readBytes (p : Nat) : Nat → Prog ω (List UInt8)
  | 0 => pure []
  | n + 1 => do
    let b ← readByte p
    let bs ← readBytes (p + 1) n
    return b :: bs

/-- `memcpy` into the memory. -/
def writeBytes (p : Nat) : List UInt8 → Prog ω Unit
  | [] => pure ()
  | b :: bs => do
    writeByte p b
    writeBytes (p + 1) bs

end Prog

open Prog

variable {ω α β : Type}

/-! ## Execution -/

/-- One memory access of a run. -/
inductive Access where
  | rd (i : Nat)
  | wr (i : Nat)
  deriving DecidableEq, Repr

/-- The index an access touches. -/
def Access.index : Access → Nat
  | rd i => i
  | wr i => i

/-- The values the uninitialised locals hold, in the order they are used. -/
abbrev Supply (ω : Type) : Type := Nat → ω

def Supply.tail (s : Supply ω) : Supply ω := fun n => s (n + 1)

def Supply.cons (w : ω) (s : Supply ω) : Supply ω
  | 0 => w
  | n + 1 => s n

@[simp] theorem Supply.tail_cons (w : ω) (s : Supply ω) : (Supply.cons w s).tail = s := rfl

@[simp] theorem Supply.cons_zero (w : ω) (s : Supply ω) : Supply.cons w s 0 = w := rfl

/-- What a run ends with; `value` is `none` when it aborted. -/
structure Outcome (ω α : Type) where
  value  : Option α
  mem    : Mem
  supply : Supply ω
  trace  : List Access

/-- Put an access in front of the trace. -/
def Outcome.after (o : Outcome ω α) (a : Access) : Outcome ω α :=
  { o with trace := a :: o.trace }

@[simp] theorem Outcome.after_value (o : Outcome ω α) (a : Access) :
    (o.after a).value = o.value := rfl

@[simp] theorem Outcome.after_mem (o : Outcome ω α) (a : Access) :
    (o.after a).mem = o.mem := rfl

@[simp] theorem Outcome.after_supply (o : Outcome ω α) (a : Access) :
    (o.after a).supply = o.supply := rfl

@[simp] theorem Outcome.after_trace (o : Outcome ω α) (a : Access) :
    (o.after a).trace = a :: o.trace := rfl

/-- Run a program. -/
def run : Prog ω α → Mem → Supply ω → Outcome ω α
  | .ret a, m, s => ⟨some a, m, s, []⟩
  | .read i k, m, s => (run (k (m i)) m s).after (.rd i)
  | .write i b k, m, s => (run k (put m i b) s).after (.wr i)
  | .draw k, m, s => run (k (s 0)) m s.tail
  | .abort, m, s => ⟨none, m, s, []⟩

/-- What the second of two programs touches, the two touch. -/
theorem run_bind_touches {x : Prog ω α} {f : α → Prog ω β} {m : Mem} {s : Supply ω} {a : α}
    (h : (run x m s).value = some a) {P : Access → Prop}
    (hP : ∃ access ∈ (run (f a) (run x m s).mem (run x m s).supply).trace, P access) :
    ∃ access ∈ (run (x >>= f) m s).trace, P access := by
  induction x generalizing m s with
  | ret b =>
    cases h
    exact hP
  | read i k ih =>
    obtain ⟨access, hmem, hp⟩ := ih (m i) h hP
    exact ⟨access, List.mem_cons_of_mem _ hmem, hp⟩
  | write i b k ih =>
    obtain ⟨access, hmem, hp⟩ := ih (m := put m i b) h hP
    exact ⟨access, List.mem_cons_of_mem _ hmem, hp⟩
  | draw k ih => exact ih (s 0) h hP
  | abort => cases h

theorem bind_assoc {γ : Type} (x : Prog ω α) (f : α → Prog ω β) (g : β → Prog ω γ) :
    (x >>= f) >>= g = x >>= fun a => f a >>= g := by
  show (x.bind f).bind g = x.bind fun a => (f a).bind g
  induction x with
  | ret a => rfl
  | read i k ih => simp only [Prog.bind, ih]
  | write i b k ih => simp only [Prog.bind, ih]
  | draw k ih => simp only [Prog.bind, ih]
  | abort => rfl

/-- A run whose result is only put into another form. -/
theorem run_map_value (f : α → β) (x : Prog ω α) (m : Mem) (s : Supply ω) :
    (run (x >>= fun a => pure (f a)) m s).value = (run x m s).value.map f := by
  show (run (x.bind fun a => .ret (f a)) m s).value = _
  induction x generalizing m s with
  | ret a => rfl
  | read i k ih => exact ih (m i) m s
  | write i b k ih => exact ih (put m i b) s
  | draw k ih => exact ih (s 0) m s.tail
  | abort => rfl

/-! ## Predicate transformer -/

/-- What a run is allowed to do: the values an uninitialised local may
    hold, the indices it may read and write, whether it may abort. -/
structure Mode (ω : Type) where
  draws  : ω → Prop
  reads  : Nat → Prop
  writes : Nat → Prop
  aborts : Prop

/-- Anything is allowed. -/
def Mode.free : Mode ω := ⟨fun _ => True, fun _ => True, fun _ => True, True⟩

/-- Any local values, any index; the run has to end with a result. -/
def Mode.total : Mode ω := ⟨fun _ => True, fun _ => True, fun _ => True, False⟩

/-- `wp md x Q m`: from memory `m`, every run of `x` whose locals hold
    values of `md` keeps to the accesses of `md` and ends in `Q`. -/
def wp (md : Mode ω) : Prog ω α → (α → Mem → Prop) → Mem → Prop
  | .ret a, Q, m => Q a m
  | .read i k, Q, m => md.reads i ∧ wp md (k (m i)) Q m
  | .write i b k, Q, m => md.writes i ∧ wp md k Q (put m i b)
  | .draw k, Q, m => ∀ w, md.draws w → wp md (k w) Q m
  | .abort, _, _ => md.aborts

section rules
variable {md : Mode ω} {Q : α → Mem → Prop} {m : Mem}

@[simp] theorem wp_ret (a : α) : wp md (.ret a) Q m ↔ Q a m := Iff.rfl

@[simp] theorem wp_pure (a : α) : wp md (pure a) Q m ↔ Q a m := Iff.rfl

@[simp] theorem wp_abort : wp md (.abort : Prog ω α) Q m ↔ md.aborts := Iff.rfl

@[simp] theorem wp_readByte {Q : UInt8 → Mem → Prop} (i : Nat) :
    wp md (readByte i) Q m ↔ md.reads i ∧ Q (m i) m := Iff.rfl

@[simp] theorem wp_writeByte {Q : Unit → Mem → Prop} (i : Nat) (b : UInt8) :
    wp md (writeByte i b) Q m ↔ md.writes i ∧ Q () (put m i b) := Iff.rfl

@[simp] theorem wp_drawn {Q : ω → Mem → Prop} :
    wp md drawn Q m ↔ ∀ w, md.draws w → Q w m := Iff.rfl

/-- Sequencing. -/
@[simp] theorem wp_bind {Q : β → Mem → Prop} (x : Prog ω α) (f : α → Prog ω β) :
    wp md (x >>= f) Q m ↔ wp md x (fun a m' => wp md (f a) Q m') m := by
  show wp md (x.bind f) Q m ↔ _
  induction x generalizing m with
  | ret a => rfl
  | read i k ih => simp only [Prog.bind, wp, ih]
  | write i b k ih => simp only [Prog.bind, wp, ih]
  | draw k ih => simp only [Prog.bind, wp, ih]
  | abort => rfl

theorem wp_ite (c : Prop) [Decidable c] (x y : Prog ω α) :
    wp md (if c then x else y) Q m ↔ if c then wp md x Q m else wp md y Q m := by
  split <;> rfl

/-- Consequence. -/
theorem wp_mono {Q' : α → Mem → Prop} {x : Prog ω α} (hQ : ∀ a m, Q a m → Q' a m)
    (h : wp md x Q m) : wp md x Q' m := by
  induction x generalizing m with
  | ret a => exact hQ a m h
  | read i k ih => exact ⟨h.1, ih _ h.2⟩
  | write i b k ih => exact ⟨h.1, ih h.2⟩
  | draw k ih => exact fun w hw => ih w (h w hw)
  | abort => exact h

theorem wp_free (x : Prog ω α) (m : Mem) : wp Mode.free x (fun _ _ => True) m := by
  induction x generalizing m with
  | ret a => trivial
  | read i k ih => exact ⟨trivial, ih _ m⟩
  | write i b k ih => exact ⟨trivial, ih _⟩
  | draw k ih => exact fun w _ => ih w m
  | abort => trivial

theorem wp_readBytes {Q : List UInt8 → Mem → Prop} (p n : Nat) :
    wp md (readBytes p n) Q m ↔
      (∀ i, p ≤ i → i < p + n → md.reads i) ∧ Q (slice m p n) m := by
  induction n generalizing p Q with
  | zero =>
    exact ⟨fun h => ⟨fun i h1 h2 => absurd h2 (by omega), h⟩, fun h => h.2⟩
  | succ n ih =>
    simp only [readBytes, wp_bind, wp_readByte, ih, wp_pure, slice]
    constructor
    · rintro ⟨h0, hr, hq⟩
      refine ⟨fun i h1 h2 => ?_, hq⟩
      rcases Nat.eq_or_lt_of_le h1 with rfl | hlt
      · exact h0
      · exact hr i hlt (by omega)
    · rintro ⟨hr, hq⟩
      exact ⟨hr p (Nat.le_refl p) (by omega), fun i h1 h2 => hr i (by omega) (by omega), hq⟩

theorem wp_writeBytes {Q : Unit → Mem → Prop} (p : Nat) (bs : List UInt8) :
    wp md (writeBytes p bs) Q m ↔
      (∀ i, p ≤ i → i < p + bs.length → md.writes i) ∧ Q () (blit m p bs) := by
  induction bs generalizing p m with
  | nil =>
    exact ⟨fun h => ⟨fun i h1 h2 => absurd h2 (by simp; omega), h⟩, fun h => h.2⟩
  | cons b bs ih =>
    simp only [writeBytes, wp_bind, wp_writeByte, ih, blit, List.length_cons]
    constructor
    · rintro ⟨h0, hr, hq⟩
      refine ⟨fun i h1 h2 => ?_, hq⟩
      rcases Nat.eq_or_lt_of_le h1 with rfl | hlt
      · exact h0
      · exact hr i hlt (by omega)
    · rintro ⟨hr, hq⟩
      exact ⟨hr p (Nat.le_refl p) (by omega), fun i h1 h2 => hr i (by omega) (by omega), hq⟩

end rules

/-! ## Runs that can happen -/

/-- `can S x Q m`: from memory `m`, some run of `x` reads at indices in `S`
    only, returns, and ends in `Q`. -/
def can (S : Nat → Prop) : Prog ω α → (α → Mem → Prop) → Mem → Prop
  | .ret a, Q, m => Q a m
  | .read i k, Q, m => S i ∧ can S (k (m i)) Q m
  | .write i b k, Q, m => can S k Q (put m i b)
  | .draw k, Q, m => ∃ w, can S (k w) Q m
  | .abort, _, _ => False

section angelic
variable {S : Nat → Prop} {Q : α → Mem → Prop} {m : Mem}

@[simp] theorem can_pure (a : α) : can S (pure a : Prog ω α) Q m ↔ Q a m := Iff.rfl

@[simp] theorem can_readByte {Q : UInt8 → Mem → Prop} (i : Nat) :
    can S (readByte i : Prog ω UInt8) Q m ↔ S i ∧ Q (m i) m := Iff.rfl

@[simp] theorem can_writeByte {Q : Unit → Mem → Prop} (i : Nat) (b : UInt8) :
    can S (writeByte i b : Prog ω Unit) Q m ↔ Q () (put m i b) := Iff.rfl

@[simp] theorem can_drawn {Q : ω → Mem → Prop} :
    can S drawn Q m ↔ ∃ w, Q w m := Iff.rfl

/-- Sequencing. -/
@[simp] theorem can_bind {Q : β → Mem → Prop} (x : Prog ω α) (f : α → Prog ω β) :
    can S (x >>= f) Q m ↔ can S x (fun a m' => can S (f a) Q m') m := by
  show can S (x.bind f) Q m ↔ _
  induction x generalizing m with
  | ret a => rfl
  | read i k ih => simp only [Prog.bind, can, ih]
  | write i b k ih => simp only [Prog.bind, can, ih]
  | draw k ih => simp only [Prog.bind, can, ih]
  | abort => rfl

/-- Consequence. -/
theorem can_mono {Q' : α → Mem → Prop} {x : Prog ω α} (hQ : ∀ a m, Q a m → Q' a m)
    (h : can S x Q m) : can S x Q' m := by
  induction x generalizing m with
  | ret a => exact hQ a m h
  | read i k ih => exact ⟨h.1, ih _ h.2⟩
  | write i b k ih => exact ih h
  | draw k ih =>
    obtain ⟨w, hw⟩ := h
    exact ⟨w, ih w hw⟩
  | abort => exact h

theorem can_readBytes {Q : List UInt8 → Mem → Prop} (p n : Nat) :
    can S (readBytes p n : Prog ω (List UInt8)) Q m ↔
      (∀ i, p ≤ i → i < p + n → S i) ∧ Q (slice m p n) m := by
  induction n generalizing p Q with
  | zero =>
    exact ⟨fun h => ⟨fun i h1 h2 => absurd h2 (by omega), h⟩, fun h => h.2⟩
  | succ n ih =>
    simp only [readBytes, can_bind, can_readByte, ih, can_pure, slice]
    constructor
    · rintro ⟨h0, hr, hq⟩
      refine ⟨fun i h1 h2 => ?_, hq⟩
      rcases Nat.eq_or_lt_of_le h1 with rfl | hlt
      · exact h0
      · exact hr i hlt (by omega)
    · rintro ⟨hr, hq⟩
      exact ⟨hr p (Nat.le_refl p) (by omega), fun i h1 h2 => hr i (by omega) (by omega), hq⟩

theorem can_writeBytes {Q : Unit → Mem → Prop} (p : Nat) (bs : List UInt8) :
    can S (writeBytes p bs : Prog ω Unit) Q m ↔ Q () (blit m p bs) := by
  induction bs generalizing p m with
  | nil => exact Iff.rfl
  | cons b bs ih => simp only [writeBytes, can_bind, can_writeByte, ih, blit]

/-- A run that can happen ends as every run does. -/
theorem can_wp {md : Mode ω} {P : α → Mem → Prop} {x : Prog ω α} (hd : ∀ w, md.draws w)
    (h : can S x Q m) (hwp : wp md x P m) : ∃ a m', Q a m' ∧ P a m' := by
  induction x generalizing m with
  | ret a => exact ⟨a, m, h, hwp⟩
  | read i k ih => exact ih _ h.2 hwp.2
  | write i b k ih => exact ih h hwp.2
  | draw k ih =>
    obtain ⟨w, hw⟩ := h
    exact ih w hw (hwp w (hd w))
  | abort => exact absurd h id

end angelic

/-! ## Runs and the predicate transformer -/

/-- What `wp` promises about one finished run. -/
def Outcome.Meets (o : Outcome ω α) (md : Mode ω) (Q : α → Mem → Prop) : Prop :=
  (∀ i, Access.rd i ∈ o.trace → md.reads i) ∧
  (∀ i, Access.wr i ∈ o.trace → md.writes i) ∧
  match o.value with
  | some a => Q a o.mem
  | none => md.aborts

theorem Outcome.meets_after_rd {o : Outcome ω α} {md : Mode ω} {Q : α → Mem → Prop} {i : Nat} :
    (o.after (.rd i)).Meets md Q ↔ md.reads i ∧ o.Meets md Q := by
  simp only [Outcome.Meets, Outcome.after_trace, Outcome.after_value, Outcome.after_mem,
    List.mem_cons, Access.rd.injEq, reduceCtorEq, false_or]
  constructor
  · rintro ⟨hr, hw, hv⟩
    exact ⟨hr i (Or.inl rfl), fun j hj => hr j (Or.inr hj), hw, hv⟩
  · rintro ⟨hi, hr, hw, hv⟩
    refine ⟨fun j hj => ?_, hw, hv⟩
    rcases hj with rfl | hj
    · exact hi
    · exact hr j hj

theorem Outcome.meets_after_wr {o : Outcome ω α} {md : Mode ω} {Q : α → Mem → Prop} {i : Nat} :
    (o.after (.wr i)).Meets md Q ↔ md.writes i ∧ o.Meets md Q := by
  simp only [Outcome.Meets, Outcome.after_trace, Outcome.after_value, Outcome.after_mem,
    List.mem_cons, Access.wr.injEq, reduceCtorEq, false_or]
  constructor
  · rintro ⟨hr, hw, hv⟩
    exact ⟨hw i (Or.inl rfl), hr, fun j hj => hw j (Or.inr hj), hv⟩
  · rintro ⟨hi, hr, hw, hv⟩
    refine ⟨hr, fun j hj => ?_, hv⟩
    rcases hj with rfl | hj
    · exact hi
    · exact hw j hj

/-- Adequacy: `wp` describes exactly the runs whose supply is allowed. -/
theorem wp_iff_run {md : Mode ω} {Q : α → Mem → Prop} (hne : ∃ w, md.draws w)
    (x : Prog ω α) (m : Mem) :
    wp md x Q m ↔ ∀ s : Supply ω, (∀ n, md.draws (s n)) → (run x m s).Meets md Q := by
  obtain ⟨w₀, hw₀⟩ := hne
  have hs₀ : ∀ n, md.draws ((fun _ => w₀ : Supply ω) n) := fun _ => hw₀
  induction x generalizing m with
  | ret a =>
    constructor
    · intro h s _
      exact ⟨by simp [run], by simp [run], h⟩
    · intro h
      exact (h _ hs₀).2.2
  | read i k ih =>
    simp only [wp, ih, run, Outcome.meets_after_rd]
    constructor
    · rintro ⟨hi, h⟩ s hs
      exact ⟨hi, h s hs⟩
    · intro h
      exact ⟨(h _ hs₀).1, fun s hs => (h s hs).2⟩
  | write i b k ih =>
    simp only [wp, ih, run, Outcome.meets_after_wr]
    constructor
    · rintro ⟨hi, h⟩ s hs
      exact ⟨hi, h s hs⟩
    · intro h
      exact ⟨(h _ hs₀).1, fun s hs => (h s hs).2⟩
  | draw k ih =>
    simp only [wp, ih, run]
    constructor
    · intro h s hs
      exact h (s 0) (hs 0) s.tail (fun n => hs (n + 1))
    · intro h w hw s hs
      have hc : ∀ n, md.draws (Supply.cons w s n) := fun n => by
        cases n with
        | zero => exact hw
        | succ n => exact hs n
      simpa using h (Supply.cons w s) hc
  | abort =>
    constructor
    · intro h s _
      exact ⟨by simp [run], by simp [run], h⟩
    · intro h
      exact (h _ hs₀).2.2

/-- One run that keeps to the mode. -/
theorem run_meets {md : Mode ω} {Q : α → Mem → Prop} {x : Prog ω α} {m : Mem}
    (h : wp md x Q m) (s : Supply ω) (hs : ∀ n, md.draws (s n)) : (run x m s).Meets md Q :=
  (wp_iff_run ⟨s 0, hs 0⟩ x m).mp h s hs

/-- A run that may not abort returns. -/
theorem Outcome.Meets.returns {o : Outcome ω α} {md : Mode ω} {Q : α → Mem → Prop}
    (h : o.Meets md Q) (ha : ¬ md.aborts) : ∃ a, o.value = some a ∧ Q a o.mem := by
  obtain ⟨_, _, hv⟩ := h
  cases hval : o.value with
  | none =>
    rw [hval] at hv
    exact absurd hv ha
  | some a =>
    rw [hval] at hv
    exact ⟨a, rfl, hv⟩

/-- What a run that returned has returned. -/
theorem Outcome.Meets.post {o : Outcome ω α} {md : Mode ω} {Q : α → Mem → Prop}
    (h : o.Meets md Q) {a : α} (hvalue : o.value = some a) : Q a o.mem := by
  have hv := h.2.2
  rw [hvalue] at hv
  exact hv

/-- Adequacy: `can` describes exactly the runs there are. -/
theorem can_iff_run [Nonempty ω] {S : Nat → Prop} {Q : α → Mem → Prop} (x : Prog ω α) (m : Mem) :
    can S x Q m ↔ ∃ s : Supply ω, (∀ i, Access.rd i ∈ (run x m s).trace → S i) ∧
      ∃ a, (run x m s).value = some a ∧ Q a (run x m s).mem := by
  induction x generalizing m with
  | ret a =>
    constructor
    · intro h
      exact ⟨fun _ => Classical.arbitrary ω, by simp [run], a, rfl, h⟩
    · rintro ⟨s, _, b, hb, hQ⟩
      cases hb
      exact hQ
  | read i k ih =>
    simp only [can, ih, run, Outcome.after_trace, Outcome.after_value, Outcome.after_mem,
      List.mem_cons, Access.rd.injEq]
    constructor
    · rintro ⟨hi, s, hs, hQ⟩
      refine ⟨s, fun j hj => ?_, hQ⟩
      rcases hj with rfl | hj
      · exact hi
      · exact hs j hj
    · rintro ⟨s, hs, hQ⟩
      exact ⟨hs i (Or.inl rfl), s, fun j hj => hs j (Or.inr hj), hQ⟩
  | write i b k ih =>
    simp only [can, ih, run, Outcome.after_trace, Outcome.after_value, Outcome.after_mem,
      List.mem_cons, reduceCtorEq, false_or]
  | draw k ih =>
    simp only [can, ih, run]
    constructor
    · rintro ⟨w, s, hs⟩
      exact ⟨Supply.cons w s, by simpa using hs⟩
    · rintro ⟨s, hs⟩
      exact ⟨s 0, s.tail, hs⟩
  | abort =>
    simp only [can, run, reduceCtorEq, false_and, exists_false, and_false]

/-- A run only depends on the bytes it reads. -/
theorem run_congr {S : Nat → Prop} (x : Prog ω α) {m m' : Mem} (s : Supply ω)
    (hm : ∀ i, S i → m i = m' i)
    (hr : ∀ i, Access.rd i ∈ (run x m s).trace → S i) :
    (run x m' s).value = (run x m s).value ∧ (run x m' s).trace = (run x m s).trace ∧
      (run x m' s).supply = (run x m s).supply ∧
      ∀ i, S i → (run x m s).mem i = (run x m' s).mem i := by
  induction x generalizing m m' s with
  | ret a => exact ⟨rfl, rfl, rfl, hm⟩
  | read i k ih =>
    have hi : m i = m' i := hm i (hr i (by simp [run]))
    have htl := ih (m i) s hm (fun j hj => hr j (by simp [run, hj]))
    simp only [run, ← hi]
    obtain ⟨h1, h2, h3, h4⟩ := htl
    exact ⟨h1, by simp [h2], h3, h4⟩
  | write i b k ih =>
    have hput : ∀ j, S j → put m i b j = put m' i b j := fun j hj => by
      by_cases hji : j = i
      · simp [hji]
      · simp [hji, hm j hj]
    obtain ⟨h1, h2, h3, h4⟩ := ih s hput (fun j hj => hr j (by simp [run, hj]))
    exact ⟨h1, by simp [run, h2], h3, h4⟩
  | draw k ih => exact ih (s 0) s.tail hm hr
  | abort => exact ⟨rfl, rfl, rfl, hm⟩

end ByteProg

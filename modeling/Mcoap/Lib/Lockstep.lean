import Mcoap.Lib.ByteProg

/-! # Two programs in lockstep

    Two programs over the same memory that read, write and draw the same,
    step by step, and differ only in what they return.  One of them may keep
    books that the other one does without.

    * `Lockstep`: the relation, over a relation of the results;
    * `Lockstep.bind`, `Lockstep.map_right`, `Lockstep.self`: its rules;
    * `Lockstep.run`: the two runs leave the same memory, the same supply and
      the same trace, and the results are related. -/

namespace ByteProg

open ByteMem Prog

variable {ω α β γ δ : Type} {R : α → β → Prop} {S : γ → δ → Prop}

/-- Step by step the same accesses; at the end, related results. -/
inductive Lockstep (R : α → β → Prop) : Prog ω α → Prog ω β → Prop where
  | ret {a : α} {b : β} (h : R a b) : Lockstep R (.ret a) (.ret b)
  | read (i : Nat) {k : UInt8 → Prog ω α} {l : UInt8 → Prog ω β}
      (h : ∀ byte, Lockstep R (k byte) (l byte)) : Lockstep R (.read i k) (.read i l)
  | write (i : Nat) (byte : UInt8) {k : Prog ω α} {l : Prog ω β}
      (h : Lockstep R k l) : Lockstep R (.write i byte k) (.write i byte l)
  | draw {k : ω → Prog ω α} {l : ω → Prog ω β} (h : ∀ w, Lockstep R (k w) (l w)) :
      Lockstep R (.draw k) (.draw l)
  | abort : Lockstep R .abort .abort

namespace Lockstep

variable {x : Prog ω α} {y : Prog ω β}

theorem pure {a : α} {b : β} (h : R a b) :
    Lockstep R (Pure.pure a : Prog ω α) (Pure.pure b : Prog ω β) := ret h

/-- Consequence. -/
theorem mono {R' : α → β → Prop} (h : Lockstep R x y) (himp : ∀ a b, R a b → R' a b) :
    Lockstep R' x y := by
  induction h with
  | ret h => exact ret (himp _ _ h)
  | read i _ ih => exact read i ih
  | write i byte _ ih => exact write i byte ih
  | draw _ ih => exact draw ih
  | abort => exact abort

/-- Sequencing. -/
theorem bind {f : α → Prog ω γ} {g : β → Prog ω δ} (h : Lockstep R x y)
    (hnext : ∀ a b, R a b → Lockstep S (f a) (g b)) : Lockstep S (x >>= f) (y >>= g) := by
  show Lockstep S (x.bind f) (y.bind g)
  induction h with
  | ret h => exact hnext _ _ h
  | read i _ ih => exact read i ih
  | write i byte _ ih => exact write i byte ih
  | draw _ ih => exact draw ih
  | abort => exact abort

/-- The second result is only put into another form. -/
theorem map_right {g : β → δ} {S : α → δ → Prop} (h : Lockstep R x y)
    (himp : ∀ a b, R a b → S a (g b)) : Lockstep S x (y >>= fun b => Pure.pure (g b)) := by
  show Lockstep S x (y.bind fun b => .ret (g b))
  induction h with
  | ret h => exact ret (himp _ _ h)
  | read i _ ih => exact read i ih
  | write i byte _ ih => exact write i byte ih
  | draw _ ih => exact draw ih
  | abort => exact abort

/-- A program keeps step with itself. -/
theorem self (x : Prog ω α) : Lockstep (fun a b => a = b) x x := by
  induction x with
  | ret a => exact ret rfl
  | read i k ih => exact read i ih
  | write i byte k ih => exact write i byte ih
  | draw k ih => exact draw ih
  | abort => exact abort

/-- What is read is as long as it was asked for. -/
theorem readBytes (p n : Nat) :
    Lockstep (fun bs cs => bs = cs ∧ cs.length = n)
      (Prog.readBytes p n : Prog ω (List UInt8)) (Prog.readBytes p n) := by
  induction n generalizing p with
  | zero => exact ret ⟨rfl, rfl⟩
  | succ n ih =>
    apply read p
    intro byte
    apply bind (ih (p + 1))
    rintro bs cs ⟨rfl, hlen⟩
    exact ret ⟨rfl, by rw [List.length_cons, hlen]⟩

/-- The runs of the two. -/
theorem run (h : Lockstep R x y) (m : Mem) (s : Supply ω) :
    (ByteProg.run x m s).mem = (ByteProg.run y m s).mem ∧
      (ByteProg.run x m s).supply = (ByteProg.run y m s).supply ∧
      (ByteProg.run x m s).trace = (ByteProg.run y m s).trace ∧
      Option.Rel R (ByteProg.run x m s).value (ByteProg.run y m s).value := by
  induction h generalizing m s with
  | ret h => exact ⟨rfl, rfl, rfl, Option.Rel.some h⟩
  | read i _ ih =>
    obtain ⟨hmem, hsupply, htrace, hvalue⟩ := ih (m i) m s
    exact ⟨hmem, hsupply, congrArg (Access.rd i :: ·) htrace, hvalue⟩
  | write i byte _ ih =>
    obtain ⟨hmem, hsupply, htrace, hvalue⟩ := ih (put m i byte) s
    exact ⟨hmem, hsupply, congrArg (Access.wr i :: ·) htrace, hvalue⟩
  | draw _ ih => exact ih (s 0) m s.tail
  | abort => exact ⟨rfl, rfl, rfl, Option.Rel.none⟩

end Lockstep

end ByteProg

import Mathlib.Data.List.Basic
import Mathlib.Data.List.TakeWhile

/-! # Strings of C

    A string is the list of its characters, without the terminating zero;
    a pointer into it is a suffix, and the pointer to the terminating zero
    is the empty suffix.

    * `cstring`: the string that starts at the first of some bytes;
    * `strcspn`: how far it is to the first character of a set;
    * `StopsAt`: the pointer stands on such a character, or at the end;
    * `atoi`: the number a text starts with. -/

namespace CString

/-- The characters in front of the first zero; the zero the string ends
    with is not one of the bytes. -/
def cstring (bytes : List UInt8) : List UInt8 := bytes.takeWhile (· ≠ 0)

theorem cstring_of_noZero {bytes : List UInt8} (h : ∀ c ∈ bytes, c ≠ 0) :
    cstring bytes = bytes :=
  List.takeWhile_eq_self_iff.mpr fun c hc => by simpa using h c hc

/-! ## Spans -/

/-- The length of the part in front of the first character in `reject`. -/
def strcspn (s reject : List UInt8) : Nat := (s.takeWhile (· ∉ reject)).length

/-- The end of the string, or a character in `reject`. -/
def StopsAt (reject s : List UInt8) : Prop := ∀ c ∈ s.head?, c ∈ reject

@[simp] theorem stopsAt_nil (reject : List UInt8) : StopsAt reject [] := by
  intro c hc
  cases hc

@[simp] theorem stopsAt_cons (reject : List UInt8) (c : UInt8) (s : List UInt8) :
    StopsAt reject (c :: s) ↔ c ∈ reject := by
  constructor
  · intro h
    exact h c rfl
  · intro h d hd
    cases hd
    exact h

/-- A word that is free of `reject`, up to where the string stops. -/
theorem strcspn_append {w rest reject : List UInt8} (hw : ∀ c ∈ w, c ∉ reject)
    (hrest : StopsAt reject rest) : strcspn (w ++ rest) reject = w.length := by
  have hpre : (w ++ rest).takeWhile (· ∉ reject) = w ++ rest.takeWhile (· ∉ reject) :=
    List.takeWhile_append_of_pos fun c hc => by simpa using hw c hc
  have hstop : rest.takeWhile (· ∉ reject) = [] := by
    cases rest with
    | nil => rfl
    | cons c t =>
      have hc := (stopsAt_cons reject c t).mp hrest
      rw [List.takeWhile_cons, if_neg]
      simpa using hc
  rw [strcspn, hpre, hstop, List.append_nil]

theorem strcspn_stop {s reject : List UInt8} (h : StopsAt reject s) : strcspn s reject = 0 :=
  strcspn_append (w := []) (fun _ hc => absurd hc List.not_mem_nil) h

/-- Every string is a word that is free of `reject`, and a rest that stops. -/
theorem exists_span (s reject : List UInt8) :
    ∃ w rest, s = w ++ rest ∧ (∀ c ∈ w, c ∉ reject) ∧ StopsAt reject rest := by
  induction s with
  | nil => exact ⟨[], [], rfl, fun _ hc => absurd hc List.not_mem_nil, stopsAt_nil _⟩
  | cons c s ih =>
    by_cases hc : c ∈ reject
    · exact ⟨[], c :: s, rfl, fun _ hd => absurd hd List.not_mem_nil, (stopsAt_cons _ _ _).mpr hc⟩
    · obtain ⟨w, rest, rfl, hw, hrest⟩ := ih
      refine ⟨c :: w, rest, rfl, ?_, hrest⟩
      intro d hd
      rcases List.mem_cons.mp hd with rfl | hd
      · exact hc
      · exact hw d hd

/-! ## Numbers -/

def isspace (c : UInt8) : Bool := c = 0x20 || (0x09 ≤ c && c ≤ 0x0d)

def isdigit (c : UInt8) : Bool := 0x30 ≤ c && c ≤ 0x39

/-- The number a text of decimal digits stands for. -/
def decimal (digits : List UInt8) : Nat :=
  digits.foldl (fun n c => n * 10 + (c.toNat - 0x30)) 0

/-- White space, a sign and as many digits as there are.  A number no `int`
    can hold has no defined value: `overflow` stands for what comes back. -/
def atoi (overflow : Int → Int) (text : List UInt8) : Int :=
  let text := text.dropWhile isspace
  let (negative, text) :=
    match text with
    | c :: rest => if c = 0x2d then (true, rest) else if c = 0x2b then (false, rest)
        else (false, text)
    | [] => (false, text)
  let n : Int := decimal (text.takeWhile isdigit)
  let n := if negative then -n else n
  if -2147483648 ≤ n ∧ n ≤ 2147483647 then n else overflow n

/-- A text that starts with digits. -/
theorem atoi_digits (overflow : Int → Int) {digits rest : List UInt8}
    (hdigits : ∀ c ∈ digits, isdigit c = true) (hne : digits ≠ [])
    (hrest : ∀ c ∈ rest.head?, isdigit c = false) (hint : decimal digits ≤ 2147483647) :
    atoi overflow (digits ++ rest) = decimal digits := by
  have hread : (digits ++ rest).takeWhile isdigit = digits := by
    rw [List.takeWhile_append_of_pos hdigits]
    cases rest with
    | nil => simp
    | cons c t =>
      have hc := hrest c rfl
      simp [hc]
  obtain ⟨d, ds, rfl⟩ := List.exists_cons_of_ne_nil hne
  have hd := hdigits d List.mem_cons_self
  have hrange : 0x30 ≤ d.toNat ∧ d.toNat ≤ 0x39 := by
    simp only [isdigit, Bool.and_eq_true, decide_eq_true_eq, UInt8.le_iff_toNat_le] at hd
    exact hd
  -- a digit is neither white space nor a sign
  have hne : ∀ c : UInt8, c.toNat < 0x30 → d ≠ c := by
    intro c hc he
    rw [he] at hrange
    omega
  have hspace : isspace d = false := by
    simp only [isspace, Bool.or_eq_false_iff, Bool.and_eq_false_iff, decide_eq_false_iff_not,
      UInt8.le_iff_toNat_le]
    refine ⟨hne 0x20 (by decide), Or.inr ?_⟩
    have : (0x0d : UInt8).toNat = 13 := rfl
    omega
  have hkeep : (d :: ds ++ rest).dropWhile isspace = d :: ds ++ rest := by
    rw [List.cons_append, List.dropWhile_cons_of_neg]
    simp [hspace]
  have hsign : d ≠ 0x2d ∧ d ≠ 0x2b := ⟨hne 0x2d (by decide), hne 0x2b (by decide)⟩
  rw [atoi, hkeep]
  simp only [List.cons_append, if_neg hsign.1, if_neg hsign.2]
  rw [List.cons_append] at hread
  rw [hread, if_neg Bool.false_ne_true, if_pos]
  omega

end CString

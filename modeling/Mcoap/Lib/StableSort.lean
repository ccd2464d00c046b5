import Mathlib.Data.List.Rotate
import Mathlib.Data.List.Sort

/-! # Sorting with a comparator, as the C standard has it

    `qsort` takes a comparator that returns a negative, zero or positive
    number.  The standard promises a permutation in which the comparator
    never goes down, and nothing about the order of equal elements.

    * `IsOrder cmp`: the comparator is one `qsort` may be called with;
    * `Qsort`: a function with the contract of the standard;
    * `Qsort.Stable`: it also keeps the order of equal elements;
    * `kept_iff`: what every such function keeps the order of;
    * `sorted_unique`: the stably sorted list is determined, hence a
      stable `qsort` leaves a sorted array as it is;
    * `sort_sort_append`, `insertion_forall₂`: sorting twice, and sorting
      two lists at once. -/

namespace StableSort

variable {α : Type}

/-- The comparator is a consistent three-way comparison. -/
structure IsOrder (cmp : α → α → Int) : Prop where
  total : ∀ a b, cmp a b ≤ 0 ∨ cmp b a ≤ 0
  trans : ∀ a b c, cmp a b ≤ 0 → cmp b c ≤ 0 → cmp a c ≤ 0
  equal : ∀ a b, cmp a b = 0 ↔ cmp a b ≤ 0 ∧ cmp b a ≤ 0

/-- The list never goes down. -/
def Sorted (cmp : α → α → Int) (l : List α) : Prop :=
  l.Pairwise (fun a b => cmp a b ≤ 0)

/-- The elements that compare equal to `a`, in their order. -/
def equals (cmp : α → α → Int) (a : α) (l : List α) : List α :=
  l.filter (fun x => decide (cmp x a = 0))

/-- `qsort`, with what the standard says of its result. -/
structure Qsort (α : Type) where
  sort   : (α → α → Int) → List α → List α
  perm   : ∀ cmp l, (sort cmp l).Perm l
  sorted : ∀ cmp l, IsOrder cmp → Sorted cmp (sort cmp l)

/-- The order of equal elements is kept. -/
def Qsort.Stable (q : Qsort α) : Prop :=
  ∀ cmp l, IsOrder cmp → ∀ a, equals cmp a (q.sort cmp l) = equals cmp a l

section order
variable {cmp : α → α → Int} (ho : IsOrder cmp)
include ho

theorem IsOrder.refl (a : α) : cmp a a = 0 := by
  rw [ho.equal]
  rcases ho.total a a with h | h <;> exact ⟨h, h⟩

theorem IsOrder.symm {a b : α} (h : cmp a b = 0) : cmp b a = 0 := by
  rw [ho.equal] at h ⊢
  exact ⟨h.2, h.1⟩

/-- In a sorted list whose head is above `a`, nothing equals `a`. -/
theorem equals_eq_nil {a x : α} {l : List α} (hs : Sorted cmp (x :: l))
    (hx : ¬ cmp x a ≤ 0) : equals cmp a (x :: l) = [] := by
  rw [equals, List.filter_eq_nil_iff]
  intro y hy heq
  have hya : cmp y a = 0 := by simpa using heq
  have hya' : cmp y a ≤ 0 := by omega
  rcases List.mem_cons.mp hy with rfl | hy
  · exact hx hya'
  · exact hx (ho.trans x y a ((List.pairwise_cons.mp hs).1 y hy) hya')

theorem equals_cons_self (a : α) (l : List α) :
    equals cmp a (a :: l) = a :: equals cmp a l := by
  simp [equals, ho.refl a]

/-- Two sorted lists with the same elements in each class of equals are
    the same list. -/
theorem sorted_unique {l l' : List α} (hs : Sorted cmp l) (hs' : Sorted cmp l')
    (he : ∀ a, equals cmp a l = equals cmp a l') : l = l' := by
  induction l generalizing l' with
  | nil =>
    cases l' with
    | nil => rfl
    | cons y l' =>
      have h := he y
      rw [equals_cons_self ho] at h
      simp [equals] at h
  | cons x l ih =>
    cases l' with
    | nil =>
      have h := he x
      rw [equals_cons_self ho] at h
      simp [equals] at h
    | cons y l' =>
      -- the heads are equal in the order: each has a copy of its class in both lists
      have hyx : cmp y x ≤ 0 := by
        by_contra hc
        have h := he x
        rw [equals_cons_self ho, equals_eq_nil ho hs' hc] at h
        simp at h
      have hxy : cmp x y ≤ 0 := by
        by_contra hc
        have h := he y
        rw [equals_cons_self ho, equals_eq_nil ho hs hc] at h
        simp at h
      have heq : cmp y x = 0 := (ho.equal y x).mpr ⟨hyx, hxy⟩
      have hhead : x = y := by
        have h := he x
        rw [equals_cons_self ho] at h
        simp only [equals, List.filter_cons, heq, decide_true, ↓reduceIte] at h
        exact (List.cons.inj h).1
      subst hhead
      have htail : ∀ a, equals cmp a l = equals cmp a l' := fun a => by
        have h := he a
        by_cases hc : cmp x a = 0
        · simpa [equals, hc] using h
        · simpa [equals, hc] using h
      rw [ih (List.pairwise_cons.mp hs).2 (List.pairwise_cons.mp hs').2 htail]

/-- A stable `qsort` leaves a sorted array as it is. -/
theorem Qsort.Stable.sort_sorted {q : Qsort α} (hq : q.Stable) {l : List α}
    (hs : Sorted cmp l) : q.sort cmp l = l :=
  sorted_unique ho (q.sorted cmp l ho) hs (hq cmp l ho)

end order

/-! ## A stable instance -/

/-- Insertion sort meets the contract. -/
def insertion (α : Type) : Qsort α where
  sort cmp l := l.insertionSort (fun a b => cmp a b ≤ 0)
  perm _ l := List.perm_insertionSort _ l
  sorted _ l ho :=
    haveI : Std.Total _ := ⟨ho.total⟩
    haveI : IsTrans α _ := ⟨ho.trans⟩
    List.pairwise_insertionSort _ l

theorem insertion_stable (α : Type) : (insertion α).Stable := by
  intro cmp l ho a
  -- a class of equals is sorted, so it survives as a sublist; the lengths agree
  have hclass : (equals cmp a l).Pairwise (fun x y => cmp x y ≤ 0) := by
    rw [equals, List.pairwise_filter]
    apply List.pairwise_of_forall
    intro x y hx hy
    have hx' : cmp x a = 0 := by simpa using hx
    have hy' : cmp y a = 0 := by simpa using hy
    have hay := ho.symm hy'
    exact ho.trans x a y (by omega) (by omega)
  have hsub : (equals cmp a l).Sublist ((insertion α).sort cmp l) :=
    List.sublist_insertionSort hclass List.filter_sublist
  have hsub' : (equals cmp a l).Sublist (equals cmp a ((insertion α).sort cmp l)) := by
    have h := hsub.filter (fun x => decide (cmp x a = 0))
    rw [equals, List.filter_filter] at h
    simpa [equals] using h
  have hlen : (equals cmp a l).length = (equals cmp a ((insertion α).sort cmp l)).length :=
    (((insertion α).perm cmp l).filter _).length_eq.symm
  exact (hsub'.eq_of_length hlen).symm

/-! ## Laws of a stable sort -/

section order
variable {cmp : α → α → Int} (ho : IsOrder cmp)
include ho

/-- All stable instances sort alike. -/
theorem Qsort.Stable.sort_eq {q : Qsort α} (hq : q.Stable) (l : List α) :
    q.sort cmp l = (insertion α).sort cmp l :=
  sorted_unique ho (q.sorted cmp l ho) ((insertion α).sorted cmp l ho) fun a =>
    (hq cmp l ho a).trans (insertion_stable α cmp l ho a).symm

/-- Sorting a part first changes nothing. -/
theorem Qsort.Stable.sort_sort_append {q : Qsort α} (hq : q.Stable) (l l' : List α) :
    q.sort cmp (q.sort cmp l ++ l') = q.sort cmp (l ++ l') := by
  apply sorted_unique ho (q.sorted cmp _ ho) (q.sorted cmp _ ho)
  intro a
  rw [hq cmp _ ho a, hq cmp _ ho a]
  have hl : equals cmp a (q.sort cmp l) = equals cmp a l := hq cmp l ho a
  unfold equals at hl ⊢
  rw [List.filter_append, List.filter_append, hl]

theorem Qsort.Stable.sort_append_sort {q : Qsort α} (hq : q.Stable) (l l' : List α) :
    q.sort cmp (l ++ q.sort cmp l') = q.sort cmp (l ++ l') := by
  apply sorted_unique ho (q.sorted cmp _ ho) (q.sorted cmp _ ho)
  intro a
  rw [hq cmp _ ho a, hq cmp _ ho a]
  have hl : equals cmp a (q.sort cmp l') = equals cmp a l' := hq cmp l' ho a
  unfold equals at hl ⊢
  rw [List.filter_append, List.filter_append, hl]

end order

/-- Lists that are related element by element, by a relation that the
    comparators respect, are still so when both are sorted. -/
theorem orderedInsert_forall₂ {β : Type} {R : α → β → Prop} {r : α → α → Prop}
    {r' : β → β → Prop} [DecidableRel r] [DecidableRel r']
    (hr : ∀ {a b x y}, R a x → R b y → (r a b ↔ r' x y)) {a : α} {x : β} {l : List α}
    {l' : List β} (ha : R a x) (h : List.Forall₂ R l l') :
    List.Forall₂ R (l.orderedInsert r a) (l'.orderedInsert r' x) := by
  induction h with
  | nil => exact List.Forall₂.cons ha List.Forall₂.nil
  | @cons b y l l' hb hl ih =>
    rw [List.orderedInsert, List.orderedInsert]
    by_cases hle : r a b
    · rw [if_pos hle, if_pos ((hr ha hb).mp hle)]
      exact List.Forall₂.cons ha (List.Forall₂.cons hb hl)
    · rw [if_neg hle, if_neg (mt (hr ha hb).mpr hle)]
      exact List.Forall₂.cons hb ih

theorem insertion_forall₂ {β : Type} {R : α → β → Prop} {cmp : α → α → Int}
    {cmp' : β → β → Int} (hcmp : ∀ {a b x y}, R a x → R b y → cmp a b = cmp' x y) {l : List α}
    {l' : List β} (h : List.Forall₂ R l l') :
    List.Forall₂ R ((insertion α).sort cmp l) ((insertion β).sort cmp' l') := by
  have hle : ∀ {a b x y}, R a x → R b y → (cmp a b ≤ 0 ↔ cmp' x y ≤ 0) := by
    intro a b x y ha hb
    rw [hcmp ha hb]
  induction h with
  | nil => exact List.Forall₂.nil
  | @cons a x l l' ha _ ih =>
    exact orderedInsert_forall₂ (R := R) (r := fun a b => cmp a b ≤ 0) hle ha ih

/-! ## What every instance keeps -/

/-- A stable sort of the array turned round by `k` places: it meets the
    contract, and is not stable. -/
def rotated (α : Type) (k : Nat) : Qsort α where
  sort cmp l := (insertion α).sort cmp (l.rotate k)
  perm cmp l := ((insertion α).perm cmp _).trans (List.rotate_perm l k)
  sorted cmp _ ho := (insertion α).sorted cmp _ ho

/-- Turned round to behind the first `x`, the equals of `x` start with the
    second of them. -/
theorem rotated_equals {cmp : α → α → Int} (ho : IsOrder cmp) {a x : α} {xs l : List α}
    (h : equals cmp a l = x :: xs) :
    ∃ k, equals cmp a ((rotated α k).sort cmp l) = xs ++ [x] := by
  obtain ⟨l1, l2, rfl, hnone, hx, rfl⟩ := List.filter_eq_cons_iff.mp h
  have hl1 : l1.filter (fun y => decide (cmp y a = 0)) = [] := by
    rw [List.filter_eq_nil_iff]
    exact hnone
  have hrotate : (l1 ++ x :: l2).rotate (l1.length + 1) = l2 ++ (l1 ++ [x]) := by
    have hsplit : l1 ++ x :: l2 = (l1 ++ [x]) ++ l2 := by simp
    have hlen : l1.length + 1 = (l1 ++ [x]).length := by simp
    rw [hsplit, hlen, List.rotate_append_length_eq]
  refine ⟨l1.length + 1, ?_⟩
  have hstable : equals cmp a ((rotated α (l1.length + 1)).sort cmp (l1 ++ x :: l2)) =
      equals cmp a ((l1 ++ x :: l2).rotate (l1.length + 1)) :=
    insertion_stable α cmp _ ho a
  have hlast : [x].filter (fun y => decide (cmp y a = 0)) = [x] := by
    rw [List.filter_singleton, hx]
    rfl
  rw [hstable, hrotate, equals, List.filter_append, List.filter_append, hl1, List.nil_append, hlast]

/-- A list that is the same turned round by one has one element only. -/
theorem eq_of_rotate_one {β : Type} {y : β} {ys : List β} (h : ys ++ [y] = y :: ys) :
    ∀ z ∈ ys, z = y := by
  induction ys with
  | nil => exact fun z hz => absurd hz List.not_mem_nil
  | cons w ys ih =>
    obtain ⟨rfl, htail⟩ := List.cons.inj h
    intro z hz
    rcases List.mem_cons.mp hz with rfl | hz
    · rfl
    · exact ih htail z hz

/-- What `f` shows of a class of equals comes back in its order from every
    conforming sort exactly when `f` does not tell its elements apart. -/
theorem kept_iff {cmp : α → α → Int} (ho : IsOrder cmp) {β : Type} (f : α → β) (a : α)
    (l : List α) :
    (∀ q : Qsort α, (equals cmp a (q.sort cmp l)).map f = (equals cmp a l).map f) ↔
      ∀ x ∈ equals cmp a l, ∀ y ∈ equals cmp a l, f x = f y := by
  constructor
  · intro hkept
    cases hclass : equals cmp a l with
    | nil => exact fun x hx => absurd hx List.not_mem_nil
    | cons x xs =>
      obtain ⟨k, hrotated⟩ := rotated_equals ho hclass
      have hsame := hkept (rotated α k)
      rw [hrotated, hclass, List.map_append, List.map_cons, List.map_nil, List.map_cons] at hsame
      have hall : ∀ y ∈ x :: xs, f y = f x := by
        intro y hy
        rcases List.mem_cons.mp hy with rfl | hy
        · rfl
        · exact eq_of_rotate_one hsame (f y) (List.mem_map_of_mem hy)
      intro y hy z hz
      rw [hall y hy, hall z hz]
  · intro hsame q
    have hperm : (equals cmp a (q.sort cmp l)).Perm (equals cmp a l) := (q.perm cmp l).filter _
    cases hclass : equals cmp a l with
    | nil =>
      rw [hclass] at hperm
      rw [hperm.eq_nil]
    | cons x xs =>
      rw [hclass] at hperm hsame
      -- both lists are copies of one element
      have hleft : (equals cmp a (q.sort cmp l)).map f = List.replicate (xs.length + 1) (f x) := by
        rw [List.eq_replicate_iff]
        refine ⟨by rw [List.length_map, hperm.length_eq, List.length_cons], ?_⟩
        intro b hb
        obtain ⟨y, hy, rfl⟩ := List.mem_map.mp hb
        exact hsame y (hperm.mem_iff.mp hy) x List.mem_cons_self
      have hright : (x :: xs).map f = List.replicate (xs.length + 1) (f x) := by
        rw [List.eq_replicate_iff]
        refine ⟨by rw [List.length_map, List.length_cons], ?_⟩
        intro b hb
        obtain ⟨y, hy, rfl⟩ := List.mem_map.mp hb
        exact hsame y hy x List.mem_cons_self
      rw [hleft, hright]

end StableSort

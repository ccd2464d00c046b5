import Mathlib.Data.List.Nodup
import Mathlib.Logic.Function.Basic

/-! # Doubly linked lists in a heap

    Nodes that lie at addresses and point at each other, and the list they
    stand for.

    * `Linked h p l n`: the nodes `l` follow each other in `h`; the first
      points back to `p`, the last one on to `n`;
    * `IsList h first last l`: a whole list with its two end pointers, in a
      heap whose other nodes point nowhere;
    * `IsList.push`, `IsList.takeOut`, `IsList.setVal`: what appending,
      taking out and changing a node do to the list;
    * `IsList.wellFormed`: the pointer facts that `IsList` stands for.

    An address is used once: a node that is freed leaves a hole. -/

namespace DList

abbrev Addr : Type := Nat

/-- A node: a value and its two links. -/
structure Node (β : Type) where
  val  : β
  prev : Option Addr
  next : Option Addr

/-- What lies at each address; nothing where a node was freed or not yet made. -/
abbrev Heap (β : Type) : Type := Addr → Option (Node β)

variable {β : Type}

/-! ## Section 1: Writing a node -/

/-- Change the node at an address, if there is one. -/
def modify (h : Heap β) (a : Addr) (f : Node β → Node β) : Heap β :=
  Function.update h a ((h a).map f)

def setNext (h : Heap β) (a : Addr) (next : Option Addr) : Heap β :=
  modify h a fun node => { node with next := next }

def setPrev (h : Heap β) (a : Addr) (prev : Option Addr) : Heap β :=
  modify h a fun node => { node with prev := prev }

/-- Put a node at an address. -/
def put (h : Heap β) (a : Addr) (node : Node β) : Heap β := Function.update h a (some node)

/-- Free the node at an address. -/
def free (h : Heap β) (a : Addr) : Heap β := Function.update h a none

@[simp] theorem modify_self (h : Heap β) (a : Addr) (f : Node β → Node β) :
    modify h a f a = (h a).map f := Function.update_self ..

theorem modify_ne (h : Heap β) {a b : Addr} (f : Node β → Node β) (hne : b ≠ a) :
    modify h a f b = h b := Function.update_of_ne hne ..

@[simp] theorem put_self (h : Heap β) (a : Addr) (node : Node β) : put h a node a = some node :=
  Function.update_self ..

theorem put_ne (h : Heap β) {a b : Addr} (node : Node β) (hne : b ≠ a) : put h a node b = h b :=
  Function.update_of_ne hne ..

@[simp] theorem free_self (h : Heap β) (a : Addr) : free h a a = none := Function.update_self ..

theorem free_ne (h : Heap β) {a b : Addr} (hne : b ≠ a) : free h a b = h b :=
  Function.update_of_ne hne ..

/-! ## Section 2: Nodes in a row -/

/-- The nodes of a list: where each lies and what it holds. -/
abbrev Nodes (β : Type) : Type := List (Addr × β)

def addrs (l : Nodes β) : List Addr := l.map Prod.fst

/-- The pointer to a row of nodes that goes on at `next`. -/
def headOf (l : Nodes β) (next : Option Addr) : Option Addr :=
  match l with
  | [] => next
  | (a, _) :: _ => some a

/-- The pointer back to a row of nodes that `prev` is in front of. -/
def lastOf (prev : Option Addr) : Nodes β → Option Addr
  | [] => prev
  | (a, _) :: rest => lastOf (some a) rest

/-- The nodes `l` follow each other, between `prev` and `next`. -/
def Linked (h : Heap β) (prev : Option Addr) : Nodes β → Option Addr → Prop
  | [], _ => True
  | (a, v) :: rest, next =>
    h a = some ⟨v, prev, headOf rest next⟩ ∧ Linked h (some a) rest next

@[simp] theorem addrs_nil : addrs ([] : Nodes β) = [] := rfl

@[simp] theorem addrs_cons (x : Addr × β) (l : Nodes β) : addrs (x :: l) = x.1 :: addrs l := rfl

@[simp] theorem addrs_append (l l' : Nodes β) : addrs (l ++ l') = addrs l ++ addrs l' :=
  List.map_append ..

theorem mem_addrs {l : Nodes β} {a : Addr} : a ∈ addrs l ↔ ∃ v, (a, v) ∈ l := by
  constructor
  · intro h
    obtain ⟨⟨b, v⟩, hx, rfl⟩ := List.mem_map.mp h
    exact ⟨v, hx⟩
  · intro ⟨v, hx⟩
    exact List.mem_map_of_mem hx

theorem headOf_append (l l' : Nodes β) (next : Option Addr) :
    headOf (l ++ l') next = headOf l (headOf l' next) := by
  cases l with
  | nil => rfl
  | cons x l => rfl

theorem lastOf_append (prev : Option Addr) (l l' : Nodes β) :
    lastOf prev (l ++ l') = lastOf (lastOf prev l) l' := by
  induction l generalizing prev with
  | nil => rfl
  | cons x l ih => exact ih (some x.1)

theorem headOf_mem {l : Nodes β} {a : Addr} (h : headOf l none = some a) : a ∈ addrs l := by
  cases l with
  | nil => exact absurd h (by simp [headOf])
  | cons x l =>
    simp only [headOf, Option.some.injEq] at h
    simp [h]

/-- The last pointer is the pointer in front or one of the nodes. -/
theorem lastOf_mem {prev : Option Addr} {l : Nodes β} {a : Addr} (h : lastOf prev l = some a) :
    (l = [] ∧ prev = some a) ∨ a ∈ addrs l := by
  induction l generalizing prev with
  | nil => exact Or.inl ⟨rfl, h⟩
  | cons x l ih =>
    right
    rw [addrs_cons, List.mem_cons]
    rcases ih h with ⟨_, hx⟩ | hmem
    · left
      exact (Option.some.inj hx).symm
    · right
      exact hmem

/-- A nonempty row ends in a node. -/
theorem exists_snoc_of_lastOf {l : Nodes β} {a : Addr} (h : lastOf none l = some a) :
    ∃ init v, l = init ++ [(a, v)] := by
  rcases List.eq_nil_or_concat l with rfl | ⟨init, ⟨b, v⟩, rfl⟩
  · exact absurd h (by simp [lastOf])
  · rw [List.concat_eq_append, lastOf_append] at h
    have hb : b = a := Option.some.inj h
    exact ⟨init, v, by rw [List.concat_eq_append, hb]⟩

theorem linked_append (h : Heap β) (prev : Option Addr) (l l' : Nodes β) (next : Option Addr) :
    Linked h prev (l ++ l') next ↔
      Linked h prev l (headOf l' next) ∧ Linked h (lastOf prev l) l' next := by
  induction l generalizing prev with
  | nil => simp [Linked, lastOf]
  | cons x l ih =>
    obtain ⟨a, v⟩ := x
    simp only [List.cons_append, Linked, ih, headOf_append, lastOf, and_assoc]

/-- Frame: a row only depends on its own nodes. -/
theorem Linked.congr {h h' : Heap β} {prev next : Option Addr} {l : Nodes β}
    (hl : Linked h prev l next) (heq : ∀ a ∈ addrs l, h' a = h a) : Linked h' prev l next := by
  induction l generalizing prev with
  | nil => trivial
  | cons x l ih =>
    obtain ⟨a, v⟩ := x
    obtain ⟨ha, hrest⟩ := hl
    refine ⟨?_, ih hrest fun b hb => heq b (List.mem_cons_of_mem _ hb)⟩
    rw [heq a List.mem_cons_self]
    exact ha

/-- What a node of a row looks like. -/
theorem Linked.node {h : Heap β} {prev next : Option Addr} {xs ys : Nodes β} {a : Addr} {v : β}
    (hl : Linked h prev (xs ++ (a, v) :: ys) next) :
    h a = some ⟨v, lastOf prev xs, headOf ys next⟩ :=
  ((linked_append h prev xs _ next).mp hl).2.1

/-- Redirecting the last node's link. -/
theorem Linked.redirect_last {h : Heap β} {prev next : Option Addr} {init : Nodes β} {a : Addr} {v : β}
    (hl : Linked h prev (init ++ [(a, v)]) next) (hfresh : a ∉ addrs init)
    (next' : Option Addr) :
    Linked (setNext h a next') prev (init ++ [(a, v)]) next' := by
  obtain ⟨hinit, ha, _⟩ := (linked_append h prev init _ next).mp hl
  refine (linked_append _ prev init _ next').mpr ⟨?_, ?_, trivial⟩
  · refine hinit.congr fun b hb => modify_ne h _ fun hba => hfresh ?_
    rw [← hba]
    exact hb
  · rw [setNext, modify_self, ha]
    rfl

/-- Redirecting the first node's link back. -/
theorem Linked.redirect_first {h : Heap β} {prev next : Option Addr} {rest : Nodes β} {a : Addr} {v : β}
    (hl : Linked h prev ((a, v) :: rest) next) (hfresh : a ∉ addrs rest)
    (prev' : Option Addr) :
    Linked (setPrev h a prev') prev' ((a, v) :: rest) next := by
  obtain ⟨ha, hrest⟩ := hl
  refine ⟨?_, hrest.congr fun b hb => modify_ne h _ fun hba => hfresh ?_⟩
  · rw [setPrev, modify_self, ha]
    rfl
  · rw [← hba]
    exact hb

/-! ## Section 3: Whole lists -/

/-- The list `l`, from `first` to `last`; the other nodes point nowhere. -/
structure IsList (h : Heap β) (first last : Option Addr) (l : Nodes β) : Prop where
  first_eq : first = headOf l none
  last_eq  : last = lastOf none l
  linked   : Linked h none l none
  nodup    : (addrs l).Nodup
  others   : ∀ a node, h a = some node → a ∉ addrs l → node.prev = none ∧ node.next = none

theorem IsList.empty {h : Heap β}
    (hothers : ∀ a node, h a = some node → node.prev = none ∧ node.next = none) :
    IsList h none none [] where
  first_eq := rfl
  last_eq := rfl
  linked := trivial
  nodup := List.nodup_nil
  others a node ha _ := hothers a node ha

theorem IsList.node {h : Heap β} {first last : Option Addr} {xs ys : Nodes β} {a : Addr} {v : β}
    (hl : IsList h first last (xs ++ (a, v) :: ys)) :
    h a = some ⟨v, lastOf none xs, headOf ys none⟩ := hl.linked.node

theorem IsList.first_none {h : Heap β} {first last : Option Addr} {l : Nodes β}
    (hl : IsList h first last l) : first = none ↔ l = [] := by
  rw [hl.first_eq]
  cases l with
  | nil => simp [headOf]
  | cons x l => simp [headOf]

theorem lastOf_none {prev : Option Addr} {l : Nodes β} :
    lastOf prev l = none ↔ prev = none ∧ l = [] := by
  induction l generalizing prev with
  | nil => simp [lastOf]
  | cons x l ih => simp [lastOf, ih]

/-- Append a fresh node at the end of a nonempty list. -/
theorem IsList.push {h : Heap β} {first : Option Addr} {last a : Addr} {l : Nodes β} (v : β)
    (hl : IsList h first (some last) l) (hfresh : a ∉ addrs l) :
    IsList (setNext (put h a ⟨v, some last, none⟩) last (some a)) first (some a)
      (l ++ [(a, v)]) := by
  obtain ⟨init, w, rfl⟩ := exists_snoc_of_lastOf hl.last_eq.symm
  have hnd := hl.nodup
  rw [addrs_append, List.nodup_append] at hnd
  have hlast : last ∉ addrs init := fun hmem =>
    hnd.2.2 last hmem last (List.mem_singleton.mpr rfl) rfl
  have hmem : last ∈ addrs (init ++ [(last, w)]) := by
    rw [addrs_append]
    exact List.mem_append_right _ (List.mem_singleton.mpr rfl)
  have hne : ∀ b ∈ addrs (init ++ [(last, w)]), b ≠ a := fun b hb hba => hfresh (hba ▸ hb)
  -- putting the new node down does not touch the row, leading to it does
  have hrow := (hl.linked.congr fun b hb =>
    put_ne h ⟨v, some last, none⟩ (hne b hb)).redirect_last hlast (some a)
  refine ⟨?_, ?_, ?_, ?_, ?_⟩
  · rw [hl.first_eq, headOf_append]
    cases init with
    | nil => rfl
    | cons x init => rfl
  · rw [lastOf_append]
    rfl
  · refine (linked_append _ none _ _ none).mpr ⟨hrow, ?_, trivial⟩
    rw [setNext, modify_ne _ _ (hne last hmem).symm, put_self, ← hl.last_eq]
    rfl
  · rw [addrs_append, List.nodup_append]
    refine ⟨hl.nodup, List.nodup_singleton a, ?_⟩
    intro b hb c hc
    rw [List.mem_singleton.mp hc]
    exact hne b hb
  -- the other nodes are neither the new one nor the last one
  · intro b node hb hout
    rw [addrs_append, List.mem_append, not_or] at hout
    have hba : b ≠ a := fun h => hout.2 (List.mem_singleton.mpr h)
    have hblast : b ≠ last := fun h => hout.1 (h ▸ hmem)
    rw [setNext, modify_ne _ _ hblast, put_ne _ _ hba] at hb
    exact hl.others b node hb hout.1

/-- The first node of an empty list. -/
theorem IsList.push_empty {h : Heap β} {first last : Option Addr} {a : Addr} (v : β)
    (hl : IsList h first last []) :
    IsList (put h a ⟨v, none, none⟩) (some a) (some a) [(a, v)] where
  first_eq := rfl
  last_eq := rfl
  linked := ⟨put_self .., trivial⟩
  nodup := List.nodup_singleton a
  others b node hb hout := by
    have hba : b ≠ a := fun h => hout (List.mem_singleton.mpr h)
    rw [put_ne _ _ hba] at hb
    exact hl.others b node hb List.not_mem_nil

/-- Lead the node in front, if there is one, to `next`. -/
def setNextAt (h : Heap β) (prev next : Option Addr) : Heap β :=
  match prev with
  | some p => setNext h p next
  | none => h

/-- Lead the node behind, if there is one, back to `prev`. -/
def setPrevAt (h : Heap β) (next prev : Option Addr) : Heap β :=
  match next with
  | some n => setPrev h n prev
  | none => h

/-- Take a node out: its neighbours are joined, and its own links cleared. -/
def unlink (h : Heap β) (a : Addr) (node : Node β) : Heap β :=
  put (setPrevAt (setNextAt h node.prev node.next) node.next node.prev) a ⟨node.val, none, none⟩

theorem setNextAt_ne (h : Heap β) {prev : Option Addr} (next : Option Addr) {b : Addr}
    (hne : prev ≠ some b) : setNextAt h prev next b = h b := by
  cases prev with
  | none => rfl
  | some p => exact modify_ne h _ fun hbp => hne (congrArg some hbp.symm)

theorem setPrevAt_ne (h : Heap β) {next : Option Addr} (prev : Option Addr) {b : Addr}
    (hne : next ≠ some b) : setPrevAt h next prev b = h b := by
  cases next with
  | none => rfl
  | some n => exact modify_ne h _ fun hbn => hne (congrArg some hbn.symm)

/-- A row is led on to another node. -/
theorem Linked.setNextAt_last {h : Heap β} {xs : Nodes β} {next : Option Addr}
    (hl : Linked h none xs next) (hnd : (addrs xs).Nodup) (next' : Option Addr) :
    Linked (setNextAt h (lastOf none xs) next') none xs next' := by
  cases hp : lastOf none xs with
  | none =>
    rw [(lastOf_none.mp hp).2]
    trivial
  | some p =>
    obtain ⟨init, w, rfl⟩ := exists_snoc_of_lastOf hp
    rw [addrs_append, List.nodup_append] at hnd
    exact hl.redirect_last (fun hmem => hnd.2.2 p hmem p (List.mem_singleton.mpr rfl) rfl) next'

/-- A row is led back to another node. -/
theorem Linked.setPrevAt_head {h : Heap β} {ys : Nodes β} {prev : Option Addr}
    (hl : Linked h prev ys none) (hnd : (addrs ys).Nodup) (prev' : Option Addr) :
    Linked (setPrevAt h (headOf ys none) prev') prev' ys none := by
  cases ys with
  | nil => trivial
  | cons y ys => exact hl.redirect_first (List.nodup_cons.mp hnd).1 prev'

theorem lastOf_not_mem {xs : Nodes β} {b : Addr} (hb : b ∉ addrs xs) : lastOf none xs ≠ some b := by
  intro h
  rcases lastOf_mem h with ⟨_, hc⟩ | hmem
  · exact absurd hc (by simp)
  · exact hb hmem

theorem headOf_not_mem {ys : Nodes β} {b : Addr} (hb : b ∉ addrs ys) : headOf ys none ≠ some b :=
  fun h => hb (headOf_mem h)

/-- The four pointer cases at once: the rows around a node are joined. -/
theorem Linked.join {h : Heap β} {xs ys : Nodes β} {a : Addr} {v : β}
    (hl : Linked h none (xs ++ (a, v) :: ys) none) (hnd : (addrs (xs ++ (a, v) :: ys)).Nodup) :
    Linked (unlink h a ⟨v, lastOf none xs, headOf ys none⟩) none (xs ++ ys) none := by
  rw [addrs_append, List.nodup_append, addrs_cons] at hnd
  obtain ⟨hxs, hys, hdisj⟩ := hnd
  obtain ⟨hays, hys⟩ := List.nodup_cons.mp hys
  have haxs : a ∉ addrs xs := fun hmem => hdisj a hmem a List.mem_cons_self rfl
  have hx : ∀ b ∈ addrs xs, b ∉ addrs ys := fun b hb hc =>
    hdisj b hb b (List.mem_cons_of_mem _ hc) rfl
  have hput : ∀ (h' : Heap β) (b : Addr), b ∈ addrs xs ∨ b ∈ addrs ys →
      put h' a ⟨v, none, none⟩ b = h' b := fun h' b hb => put_ne h' _ fun hba => by
    rw [hba] at hb
    exact hb.elim haxs hays
  obtain ⟨hleft, _, hright⟩ := (linked_append h none xs _ none).mp hl
  refine (linked_append _ none xs ys none).mpr ⟨?_, ?_⟩
  · -- the row on the left is led past the node, and not touched afterwards
    refine (hleft.setNextAt_last hxs (headOf ys none)).congr fun b hb => ?_
    rw [unlink, hput _ b (Or.inl hb), setPrevAt_ne _ _ (headOf_not_mem (hx b hb))]
  · -- the row on the right is still whole when it is led back past the node
    have hright' : Linked (setNextAt h (lastOf none xs) (headOf ys none)) (some a) ys none :=
      hright.congr fun b hb => setNextAt_ne h _ (lastOf_not_mem fun hmem => hx b hmem hb)
    refine (hright'.setPrevAt_head hys (lastOf none xs)).congr fun b hb => ?_
    rw [unlink, hput _ b (Or.inr hb)]

/-- A node outside both rows stays as it is when another is taken out. -/
theorem unlink_outside {h : Heap β} {a b : Addr} {node : Node β} (hba : b ≠ a)
    (hprev : node.prev ≠ some b) (hnext : node.next ≠ some b) : unlink h a node b = h b := by
  rw [unlink, put_ne _ _ hba, setPrevAt_ne _ _ hnext, setNextAt_ne _ _ hprev]

/-- Taking a node out of a list. -/
theorem IsList.takeOut {h : Heap β} {first last : Option Addr} {xs ys : Nodes β} {a : Addr} {v : β}
    (hl : IsList h first last (xs ++ (a, v) :: ys)) :
    IsList (unlink h a ⟨v, lastOf none xs, headOf ys none⟩) (headOf (xs ++ ys) none)
      (lastOf none (xs ++ ys)) (xs ++ ys) := by
  have hnd := hl.nodup
  refine ⟨rfl, rfl, hl.linked.join hnd, ?_, ?_⟩
  · rw [addrs_append, addrs_cons] at hnd
    rw [addrs_append]
    exact hnd.sublist (List.Sublist.append_left (List.sublist_cons_self _ _) _)
  · intro b node hb hout
    rw [addrs_append, List.mem_append, not_or] at hout
    by_cases hba : b = a
    -- the node itself has had its links cleared
    · rw [hba, unlink, put_self] at hb
      cases hb
      exact ⟨rfl, rfl⟩
    · rw [unlink_outside hba (lastOf_not_mem hout.1) (headOf_not_mem hout.2)] at hb
      apply hl.others b node hb
      rw [addrs_append, addrs_cons, List.mem_append, List.mem_cons]
      exact fun hmem => hmem.elim hout.1 fun h => h.elim hba hout.2

/-- Freeing a node that is not in the list. -/
theorem IsList.release {h : Heap β} {first last : Option Addr} {l : Nodes β} {a : Addr}
    (hl : IsList h first last l) (hout : a ∉ addrs l) : IsList (free h a) first last l where
  first_eq := hl.first_eq
  last_eq := hl.last_eq
  linked := hl.linked.congr fun b hb => free_ne h fun hba => hout (hba ▸ hb)
  nodup := hl.nodup
  others b node hb hb' := by
    by_cases hba : b = a
    · rw [hba, free_self] at hb
      exact absurd hb (by simp)
    · rw [free_ne h hba] at hb
      exact hl.others b node hb hb'

/-- Changing the value of a node. -/
theorem IsList.setVal {h : Heap β} {first last : Option Addr} {xs ys : Nodes β} {a : Addr}
    {v : β} (w : β) (hl : IsList h first last (xs ++ (a, v) :: ys)) :
    IsList (modify h a fun node => { node with val := w }) first last (xs ++ (a, w) :: ys) := by
  have hnd := hl.nodup
  have hsame : addrs (xs ++ (a, w) :: ys) = addrs (xs ++ (a, v) :: ys) := by simp
  obtain ⟨hleft, ha, hright⟩ := (linked_append h none xs _ none).mp hl.linked
  rw [addrs_append, List.nodup_append, addrs_cons] at hnd
  obtain ⟨_, hys, hdisj⟩ := hnd
  have hays : a ∉ addrs ys := (List.nodup_cons.mp hys).1
  have haxs : a ∉ addrs xs := fun hmem => hdisj a hmem a List.mem_cons_self rfl
  refine ⟨?_, ?_, ?_, hsame ▸ hl.nodup, ?_⟩
  · rw [hl.first_eq, headOf_append, headOf_append]
    rfl
  · rw [hl.last_eq, lastOf_append, lastOf_append]
    rfl
  · refine (linked_append _ none xs _ none).mpr ⟨?_, ?_, ?_⟩
    · exact hleft.congr fun b hb => modify_ne h _ fun hba => haxs (hba ▸ hb)
    · rw [modify_self, ha]
      rfl
    · exact hright.congr fun b hb => modify_ne h _ fun hba => hays (hba ▸ hb)
  · intro b node hb hout
    rw [hsame] at hout
    have hba : b ≠ a := fun h => hout (by
      rw [h, addrs_append, addrs_cons]
      exact List.mem_append_right _ List.mem_cons_self)
    rw [modify_ne _ _ hba] at hb
    exact hl.others b node hb hout

/-! ## Section 4: The pointer facts -/

/-- Following the links from a pointer passes these addresses and ends. -/
inductive Chain (h : Heap β) : Option Addr → List Addr → Prop where
  | nil : Chain h none []
  | cons {a : Addr} {node : Node β} {as : List Addr} (ha : h a = some node)
      (hrest : Chain h node.next as) : Chain h (some a) (a :: as)

theorem Chain.unique {h : Heap β} {p : Option Addr} {as bs : List Addr}
    (ha : Chain h p as) (hb : Chain h p bs) : as = bs := by
  induction ha generalizing bs with
  | nil =>
    cases hb
    rfl
  | cons hnode _ ih =>
    cases hb with
    | cons hnode' hrest' =>
      rw [hnode] at hnode'
      cases hnode'
      rw [ih hrest']

/-- A well-formed doubly linked list, in terms of its pointers: the end
    pointers are null together; the links are mutually inverse; the first
    node has nothing in front and the last nothing behind; the chain from
    `first` passes each of its nodes once and ends at `last`; and no end
    pointer and no link, of any node of the heap, points outside it. -/
structure WellFormed (h : Heap β) (first last : Option Addr) (chain : List Addr) : Prop where
  ends       : first = none ↔ last = none
  first_prev : ∀ a, first = some a → ∃ node, h a = some node ∧ node.prev = none
  last_next  : ∀ a, last = some a → ∃ node, h a = some node ∧ node.next = none
  next_prev  : ∀ a node b, h a = some node → node.next = some b →
    ∃ node', h b = some node' ∧ node'.prev = some a
  prev_next  : ∀ a node b, h a = some node → node.prev = some b →
    ∃ node', h b = some node' ∧ node'.next = some a
  is_chain   : Chain h first chain
  acyclic    : chain.Nodup
  ends_last  : chain.getLast? = last
  closed     : ∀ a node b, h a = some node → node.next = some b ∨ node.prev = some b → b ∈ chain

theorem Linked.chain {h : Heap β} {prev : Option Addr} {l : Nodes β}
    (hl : Linked h prev l none) : Chain h (headOf l none) (addrs l) := by
  induction l generalizing prev with
  | nil => exact Chain.nil
  | cons x l ih => exact Chain.cons hl.1 (ih hl.2)

theorem lastOf_eq_getLast? (l : Nodes β) : (addrs l).getLast? = lastOf none l := by
  rcases List.eq_nil_or_concat l with rfl | ⟨init, x, rfl⟩
  · rfl
  · rw [List.concat_eq_append, addrs_append, lastOf_append]
    exact List.getLast?_concat ..

/-- Every node of a list, with what lies around it. -/
theorem IsList.split {h : Heap β} {first last : Option Addr} {l : Nodes β} {a : Addr}
    (hl : IsList h first last l) (ha : a ∈ addrs l) :
    ∃ xs v ys, l = xs ++ (a, v) :: ys ∧ h a = some ⟨v, lastOf none xs, headOf ys none⟩ := by
  obtain ⟨v, hv⟩ := mem_addrs.mp ha
  obtain ⟨xs, ys, rfl⟩ := List.append_of_mem hv
  exact ⟨xs, v, ys, rfl, hl.node⟩

theorem IsList.wellFormed {h : Heap β} {first last : Option Addr} {l : Nodes β}
    (hl : IsList h first last l) : WellFormed h first last (addrs l) where
  ends := by
    rw [hl.first_none, hl.last_eq, lastOf_none]
    simp
  first_prev a ha := by
    rw [hl.first_eq] at ha
    cases l with
    | nil => exact absurd ha (by simp [headOf])
    | cons x l =>
      cases ha
      exact ⟨_, hl.linked.1, rfl⟩
  last_next a ha := by
    rw [hl.last_eq] at ha
    obtain ⟨init, v, rfl⟩ := exists_snoc_of_lastOf ha
    exact ⟨_, hl.node, rfl⟩
  next_prev a node b ha hb := by
    by_cases hmem : a ∈ addrs l
    · obtain ⟨xs, v, ys, rfl, hnode⟩ := hl.split hmem
      rw [hnode] at ha
      cases ha
      -- the next node is the head of the row behind
      cases ys with
      | nil => exact absurd hb (by simp [headOf])
      | cons y ys =>
        cases hb
        have hsplit : xs ++ (a, v) :: y :: ys = (xs ++ [(a, v)]) ++ y :: ys := by simp
        rw [hsplit] at hl
        refine ⟨_, hl.node, ?_⟩
        rw [lastOf_append]
        rfl
    -- a node outside points nowhere
    · rw [(hl.others a node ha hmem).2] at hb
      exact absurd hb (by simp)
  prev_next a node b ha hb := by
    by_cases hmem : a ∈ addrs l
    · obtain ⟨xs, v, ys, rfl, hnode⟩ := hl.split hmem
      rw [hnode] at ha
      cases ha
      -- the previous node is the last one of the row in front
      obtain ⟨init, w, rfl⟩ := exists_snoc_of_lastOf hb
      have hsplit : init ++ [(b, w)] ++ (a, v) :: ys = init ++ (b, w) :: (a, v) :: ys := by simp
      rw [hsplit] at hl
      exact ⟨_, hl.node, rfl⟩
    · rw [(hl.others a node ha hmem).1] at hb
      exact absurd hb (by simp)
  is_chain := hl.first_eq ▸ hl.linked.chain
  acyclic := hl.nodup
  ends_last := by rw [lastOf_eq_getLast?, hl.last_eq]
  closed a node b ha hb := by
    by_cases hmem : a ∈ addrs l
    · obtain ⟨xs, v, ys, rfl, hnode⟩ := hl.split hmem
      rw [hnode] at ha
      cases ha
      rw [addrs_append, addrs_cons, List.mem_append, List.mem_cons]
      rcases hb with hnext | hprev
      · exact Or.inr (Or.inr (headOf_mem hnext))
      · rcases lastOf_mem hprev with ⟨_, hc⟩ | hmem'
        · exact absurd hc (by simp)
        · exact Or.inl hmem'
    · obtain ⟨hprev, hnext⟩ := hl.others a node ha hmem
      rw [hprev, hnext] at hb
      simp at hb

/-- The heap and its first pointer determine the list. -/
theorem Linked.unique {h : Heap β} {prev prev' : Option Addr} {l l' : Nodes β}
    (hl : Linked h prev l none) (hl' : Linked h prev' l' none)
    (hhead : headOf l none = headOf l' none) : l = l' := by
  induction l generalizing prev prev' l' with
  | nil =>
    cases l' with
    | nil => rfl
    | cons y l' => exact absurd hhead (by simp [headOf])
  | cons x l ih =>
    cases l' with
    | nil => exact absurd hhead (by simp [headOf])
    | cons y l' =>
      obtain ⟨a, v⟩ := x
      obtain ⟨b, w⟩ := y
      have hab : a = b := Option.some.inj hhead
      subst hab
      have hnode := hl.1.symm.trans hl'.1
      simp only [Option.some.injEq, Node.mk.injEq] at hnode
      obtain ⟨rfl, _, hnext⟩ := hnode
      rw [ih hl.2 hl'.2 hnext]

theorem IsList.unique {h : Heap β} {first last last' : Option Addr} {l l' : Nodes β}
    (hl : IsList h first last l) (hl' : IsList h first last' l') : l = l' :=
  hl.linked.unique hl'.linked (hl.first_eq.symm.trans hl'.first_eq)

end DList

import Mcoap.Lib.Runs
import Mcoap.UriMemory
import Mcoap.UriSafety

/-! # A program with options lists

    Whatever a program does with options lists, in any order and number: it
    makes them of new options or of a URI, copies, merges and frees them, on
    the blocks that `malloc` gives out.

    * `ListOp.exec`: what the program does; `ListOp.value`: the same on
      values; `ListOp.Within`: the counts and lengths have 32 bits;
    * `ListOp.Misused`: what dereferences a null list;
    * `ListOp.lost`: the blocks that nothing points to any more;
    * `lists_owned`: the program does on memory what it does on values, and
      at any time the blocks that are there are those of the lists it holds
      and the lost ones. -/

namespace Mcoap

open Blocks CString StableSort Runs

/-! ## Section 1: The program -/

/-- Create options from URI and to address.  If there are extra options merge
    them into the list, which is given up for the merged one. -/
def Memory.mkOptions (mem : Memory) (qsort : Qsort OptionCell) (env : UriEnv) (addr : SockAddr)
    (uri : List UInt8) (extra : Option Ptr) : Except Fault (Option Ptr × Memory) := do
  -- the argument of `mc_uri_to_options`, which makes a list of its own
  let (_, mem) := mem.mcOptionsListAlloc
  let (list, mem) ← mem.mcUriToOptions qsort env (some addr) uri
  match extra with
  | none => return (list, mem)
  | some extra => do
    let (merged, mem) ← mem.mcOptionsListMerge qsort list (some extra)
    let mem ← mem.releaseList list
    return (merged, mem)

/-- The lists a program holds, by number; a null list is one it does not
    hold, or does not hold any more. -/
structure ListHolder where
  mem   : Memory
  lists : List (Option Ptr)

/-- The list with a number. -/
def ListHolder.list (s : ListHolder) (i : Nat) : Option Ptr := (s.lists[i]?).join

/-- A list that is made is numbered after all others. -/
inductive ListOp where
  /-- `mc_options_list_init` of a new list -/
  | init (news : List NewOption)
  /-- `mc_options_list_vinit` of a new list -/
  | vinit (news : List NewOption)
  | copy (i : Nat)
  | merge (i j : Nat)
  /-- `ms_free(mc_options_list_deinit(list))`; the list is null then -/
  | release (i : Nat)
  /-- `mc_uri_to_options` -/
  | ofUri (env : UriEnv) (dest : Option SockAddr) (uri : List UInt8)
  | mkOptions (env : UriEnv) (addr : SockAddr) (uri : List UInt8) (extra : Nat)

def ListOp.exec (qsort : Qsort OptionCell) : ListOp → ListHolder → Except Fault ListHolder
  | .init news, s => do
    let (list, mem) ← s.mem.newInit qsort news
    return ⟨mem, s.lists ++ [list]⟩
  | .vinit news, s => do
    let (list, mem) ← s.mem.newVinit qsort news
    return ⟨mem, s.lists ++ [list]⟩
  | .copy i, s => do
    let (list, mem) ← s.mem.mcOptionsListCopy qsort (s.list i)
    return ⟨mem, s.lists ++ [list]⟩
  | .merge i j, s => do
    let (list, mem) ← s.mem.mcOptionsListMerge qsort (s.list i) (s.list j)
    return ⟨mem, s.lists ++ [list]⟩
  | .release i, s => do
    let mem ← s.mem.releaseList (s.list i)
    return ⟨mem, s.lists.set i none⟩
  | .ofUri env dest uri, s => do
    let (list, mem) ← s.mem.mcUriToOptions qsort env dest uri
    return ⟨mem, s.lists ++ [list]⟩
  | .mkOptions env addr uri extra, s => do
    let (list, mem) ← s.mem.mkOptions qsort env addr uri (s.list extra)
    return ⟨mem, s.lists ++ [list]⟩

def listStep (qsort : Qsort OptionCell) (s : ListHolder) (op : ListOp) (s' : ListHolder) : Prop :=
  op.exec qsort s = .ok s'

/-- The blocks that an operation loses: the copy of a host that is not needed,
    and the list that `mk_options` makes for `mc_uri_to_options`. -/
def ListOp.lost : ListOp → Nat
  | .ofUri env dest uri => lostHosts env dest uri
  | .mkOptions env addr uri _ => lostHosts env (some addr) uri + 1
  | _ => 0

/-! ## Section 2: The program on values -/

/-- The lists as values. -/
abbrev ListValues : Type := List (Option (List Wire.Opt))

def valueOf (vals : ListValues) (i : Nat) : Option (List Wire.Opt) := (vals[i]?).join

def ListOp.value : ListOp → ListValues → Except Fault ListValues
  | .init news, vals => return vals ++ [some (byNumber (news.map NewOption.opt))]
  | .vinit news, vals => return vals ++ [some (byNumber (news.map NewOption.opt))]
  | .copy i, vals => return vals ++ [(valueOf vals i).map byNumber]
  | .merge i j, vals => return vals ++ [union (valueOf vals i) (valueOf vals j)]
  | .release i, vals =>
    match valueOf vals i with
    | none => .error .nullDeref
    | some _ => return vals.set i none
  | .ofUri env dest uri, vals => do
    let v ← uriValue env dest uri
    return vals ++ [v]
  | .mkOptions env addr uri extra, vals => do
    let v ← uriValue env (some addr) uri
    match valueOf vals extra, v with
    | none, v => return vals ++ [v]
    | some _, none => .error .nullDeref
    | some os, some v => return vals ++ [union (some v) (some os)]

/-- The texts of a URI can be copied, and its options counted. -/
def UriFits (uri : List UInt8) : Prop :=
  CopiesFit (cstring uri) ∧ delimiters (cstring uri) < 2 ^ 32

/-- The counts and the lengths are `uint32_t`s. -/
def ListOp.Within (op : ListOp) (vals : ListValues) : Prop :=
  match op with
  | .init news => news.length < 2 ^ 32 ∧ ∀ made ∈ news, made.Fits
  | .vinit news => news.length < 2 ^ 32 ∧ ∀ made ∈ news, made.Fits
  | .merge i j => ((valueOf vals i).getD []).length + ((valueOf vals j).getD []).length < 2 ^ 32
  | .ofUri _ _ uri => UriFits uri
  | .mkOptions env addr uri extra => UriFits uri ∧
      ∀ os, uriValue env (some addr) uri = .ok (some os) →
        os.length + ((valueOf vals extra).getD []).length < 2 ^ 32
  | _ => True

def valueStep (vals : ListValues) (op : ListOp) (vals' : ListValues) : Prop :=
  op.Within vals ∧ op.value vals = .ok vals'

/-- A null list is given up: by the program, or by `mk_options` if there are
    extra options for a URI that is rejected. -/
def ListOp.Misused (op : ListOp) (vals : ListValues) : Prop :=
  match op with
  | .release i => valueOf vals i = none
  | .mkOptions env addr uri extra =>
      uriValue env (some addr) uri = .ok none ∧ valueOf vals extra ≠ none
  | _ => False

/-! ## Section 3: The account of all lists -/

/-- The lists lie in memory, each in blocks of its own, and no other blocks
    are there but the ones that are lost. -/
structure Holding (s : ListHolder) (vals : ListValues) (owners : List (List Ptr))
    (lost : List Ptr) : Prop where
  lists  : ∀ i, ListOwns s.mem (s.list i) (valueOf vals i) (owners.getD i [])
  values : vals.length = s.lists.length
  length : owners.length = s.lists.length
  owned  : Owned s.mem.store (lost ++ owners.flatten)

section

open Memory

variable {q : Qsort OptionCell} {s : ListHolder} {vals vals' : ListValues}
  {owners : List (List Ptr)} {mem mem' : Memory} {r : Option Ptr} {v : Option (List Wire.Opt)}
  {rs ps lost new : List Ptr} {i : Nat} {op : ListOp}

theorem join_append {α : Type} (l : List (Option α)) (x : Option α) (i : Nat) :
    ((l ++ [x])[i]?).join = if i = l.length then x else (l[i]?).join := by
  rcases Nat.lt_trichotomy i l.length with hlt | rfl | hgt
  · rw [if_neg (Nat.ne_of_lt hlt), List.getElem?_append_left hlt]
  · simp
  · rw [if_neg (Nat.ne_of_gt hgt), List.getElem?_eq_none (by simp; omega),
      List.getElem?_eq_none (by omega)]

theorem join_set {α : Type} {l : List (Option α)} (x : Option α) {i : Nat} (hi : i < l.length)
    (j : Nat) : ((l.set i x)[j]?).join = if j = i then x else (l[j]?).join := by
  by_cases hj : j = i
  · subst hj
    rw [if_pos rfl, List.getElem?_set_self hi, Option.join_some]
  · rw [if_neg hj, List.getElem?_set_ne (Ne.symm hj)]

/-- The blocks of one list, and those of all the others. -/
theorem flatten_set_perm {l : List (List Ptr)} {i : Nat} (hi : i < l.length) (x : List Ptr) :
    (l.set i x).flatten.Perm (x ++ (l.eraseIdx i).flatten) := by
  rw [List.set_eq_take_append_cons_drop, if_pos hi, List.eraseIdx_eq_take_drop_succ,
    List.flatten_append, List.flatten_cons, List.flatten_append]
  exact List.perm_append_comm_assoc ..

theorem flatten_perm {l : List (List Ptr)} {i : Nat} (hi : i < l.length) :
    l.flatten.Perm (l.getD i [] ++ (l.eraseIdx i).flatten) := by
  have hset := flatten_set_perm hi (l[i])
  rw [List.set_getElem_self] at hset
  rw [List.getD_eq_getElem?_getD, List.getElem?_eq_getElem hi, Option.getD_some]
  exact hset

theorem getD_subset (l : List (List Ptr)) (i : Nat) : l.getD i [] ⊆ l.flatten := by
  rw [List.getD_eq_getElem?_getD]
  cases hget : l[i]? with
  | none => exact List.nil_subset _
  | some x =>
    intro p hp
    exact List.mem_flatten.mpr ⟨x, List.mem_of_getElem? hget, hp⟩

theorem getD_subset_erase {l : List (List Ptr)} {i j : Nat} (hne : j ≠ i) :
    l.getD j [] ⊆ (l.eraseIdx i).flatten := by
  rw [List.getD_eq_getElem?_getD]
  cases hget : l[j]? with
  | none => exact List.nil_subset _
  | some x =>
    intro p hp
    refine List.mem_flatten.mpr ⟨x, ?_, hp⟩
    rw [List.mem_eraseIdx_iff_getElem?]
    exact ⟨j, hne, hget⟩

/-- A new list is numbered after all others. -/
theorem Holding.push (h : Holding s vals owners lost) (hlist : ListOwns mem' r v rs)
    (hown : Owned mem'.store (rs ++ (new ++ (lost ++ owners.flatten))))
    (hsame : Same (lost ++ owners.flatten) s.mem.store mem'.store) :
    Holding ⟨mem', s.lists ++ [r]⟩ (vals ++ [v]) (owners ++ [rs]) (new ++ lost) := by
  refine ⟨fun i => ?_, by simp [h.values], by simp [h.length], ?_⟩
  · have howner : (owners ++ [rs]).getD i [] = if i = owners.length then rs
        else owners.getD i [] := by
      rw [List.getD_eq_getElem?_getD, List.getD_eq_getElem?_getD]
      rcases Nat.lt_trichotomy i owners.length with hlt | rfl | hgt
      · rw [if_neg (Nat.ne_of_lt hlt), List.getElem?_append_left hlt]
      · simp
      · rw [if_neg (Nat.ne_of_gt hgt), List.getElem?_eq_none (by simp; omega),
          List.getElem?_eq_none (by omega)]
    rw [ListHolder.list, valueOf, join_append, join_append, howner, h.values, h.length]
    by_cases hi : i = s.lists.length
    · rw [if_pos hi, if_pos hi, if_pos hi]
      exact hlist
    · rw [if_neg hi, if_neg hi, if_neg hi]
      exact (h.lists i).same
        (hsame.subset (List.subset_append_of_subset_right lost (getD_subset owners i)))
  · rw [List.flatten_append, List.flatten_singleton, List.append_assoc]
    apply hown.perm
    rw [List.perm_iff_count]
    intro p
    simp only [List.count_append]
    omega

/-- A list is put in the place of another one. -/
theorem Holding.replace (h : Holding s vals owners lost) (hi : i < s.lists.length)
    (hlist : ListOwns mem' r v rs)
    (hown : Owned mem'.store (rs ++ (lost ++ (owners.eraseIdx i).flatten)))
    (hsame : Same (lost ++ (owners.eraseIdx i).flatten) s.mem.store mem'.store) :
    Holding ⟨mem', s.lists.set i r⟩ (vals.set i v) (owners.set i rs) lost := by
  have hio : i < owners.length := by rw [h.length]; exact hi
  refine ⟨fun j => ?_, by simp [h.values], by simp [h.length], ?_⟩
  · rw [ListHolder.list, valueOf, join_set _ hi, join_set _ (by rw [h.values]; exact hi)]
    by_cases hj : j = i
    · subst hj
      rw [if_pos rfl, if_pos rfl, List.getD_eq_getElem?_getD, List.getElem?_set_self hio]
      exact hlist
    · rw [if_neg hj, if_neg hj, List.getD_eq_getElem?_getD, List.getElem?_set_ne (Ne.symm hj),
        ← List.getD_eq_getElem?_getD]
      exact (h.lists j).same (hsame.subset (List.subset_append_of_subset_right lost (getD_subset_erase hj)))
  · apply hown.perm
    exact (List.perm_append_comm_assoc ..).trans ((flatten_set_perm hio rs).symm.append_left lost)

/-- A list that is there has a value. -/
theorem ListOwns.none_iff (h : ListOwns mem r v ps) : r = none ↔ v = none := by
  cases h with
  | null => simp
  | list => simp

theorem ListOwns.some (h : ListOwns mem r v ps) (hv : v ≠ none) : ∃ p, r = some p :=
  Option.ne_none_iff_exists'.mp fun hnone => hv (h.none_iff.mp hnone)

/-- What has a value is a list that is held. -/
theorem Holding.held (h : Holding s vals owners lost) (hv : valueOf vals i ≠ none) :
    i < s.lists.length ∧ ∃ p, s.list i = some p := by
  constructor
  · by_contra hge
    apply hv
    rw [valueOf, List.getElem?_eq_none (by rw [h.values]; omega), Option.join_none]
  · exact (h.lists i).some hv

/-- The first half of `mk_options`: a list that is lost, and the one of the
    URI. -/
theorem uriList_owned (hq : q.Stable) {env : UriEnv} {dest : Option SockAddr} {uri : List UInt8}
    (h : Owned mem.store ps) (hvalue : uriValue env dest uri = .ok v) :
    ∃ unused mem1 list mem2 rs new, mem.mcOptionsListAlloc = (some unused, mem1) ∧
      mem1.mcUriToOptions q env dest uri = .ok (list, mem2) ∧ ListOwns mem2 list v rs ∧
      new.length = lostHosts env dest uri + 1 ∧ Owned mem2.store (rs ++ (new ++ ps)) ∧
      Same ps mem.store mem2.store := by
  obtain ⟨unused, mem1, halloc, _, hown1, hsame1⟩ := listAlloc_owned h
  obtain ⟨list, rs, hosts, mem2, huri, hlist, hhosts, hown2, hsame2⟩ :=
    mcUriToOptions_owned hq hown1 hvalue
  refine ⟨unused, mem1, list, mem2, rs, hosts ++ [unused], halloc, huri, hlist, ?_, ?_,
    hsame1.trans (hsame2.subset (List.subset_cons_self _ ps))⟩
  · rw [List.length_append, List.length_singleton, hhosts]
  · rw [List.append_assoc, List.singleton_append]
    exact hown2

/-- `mk_options`: the list of the URI, or the merged one, and what is lost. -/
theorem mkOptions_owned (hq : q.Stable) {env : UriEnv} {addr : SockAddr} {uri : List UInt8}
    {extra : Option Ptr} {w : Option (List Wire.Opt)} {qs : List Ptr}
    (hextra : ListOwns mem extra w qs) (hsub : qs ⊆ ps) (h : Owned mem.store ps)
    (hvalue : uriValue env (some addr) uri = .ok v)
    (hn : ∀ os, v = some os → os.length + (w.getD []).length < 2 ^ 32)
    (hused : v = none → w = none) :
    ∃ list new mem' rs, mem.mkOptions q env addr uri extra = .ok (list, mem') ∧
      ListOwns mem' list (if w = none then v else union v w) rs ∧
      new.length = lostHosts env (some addr) uri + 1 ∧
      Owned mem'.store (rs ++ (new ++ ps)) ∧ Same ps mem.store mem'.store := by
  obtain ⟨_, mem1, list, mem2, rs, new, halloc, huri, hlist, hnew, hown2, hsame2⟩ :=
    uriList_owned hq h hvalue
  cases extra with
  | none =>
    cases hextra
    refine ⟨list, new, mem2, rs, ?_, ?_, hnew, hown2, hsame2⟩
    · rw [Memory.mkOptions, halloc]
      simp only [bind, Except.bind, huri, pure, Except.pure]
    · rw [if_pos rfl]
      exact hlist
  | some extra =>
    have hw : w ≠ none := fun hnone => Option.some_ne_none extra (hextra.none_iff.mpr hnone)
    obtain ⟨os, rfl⟩ := Option.ne_none_iff_exists'.mp fun hnone => hw (hused hnone)
    obtain ⟨p, rfl⟩ := hlist.some (Option.some_ne_none os)
    obtain ⟨merged, mem3, ms, hmerge, hmerged, hown3, hsame3⟩ :=
      merge_owned hq hlist (hextra.same (hsame2.subset hsub)) (hn os rfl) hown2
    -- the list of the URI is given up after it has been copied
    have hold := hlist.same (hsame3.subset (List.subset_append_left rs _))
    obtain ⟨mem', hrelease, hown', hsame'⟩ :=
      release_owned hold (hown3.perm (List.perm_append_comm_assoc ..))
    refine ⟨merged, new, mem', ms, ?_, ?_, hnew, hown', ?_⟩
    · rw [Memory.mkOptions, halloc]
      simp only [bind, Except.bind, huri, hmerge, hrelease, pure, Except.pure]
    · rw [if_neg hw]
      exact hmerged.same (hsame'.subset (List.subset_append_left ms _))
    · have hmid := hsame3.subset (List.subset_append_of_subset_right rs
        (List.subset_append_right new ps))
      have hlast := hsame'.subset (List.subset_append_of_subset_right ms
        (List.subset_append_right new ps))
      exact (hsame2.trans hmid).trans hlast

/-- Step: what comes back on values is done in memory. -/
theorem Holding.step (hq : q.Stable) (h : Holding s vals owners lost)
    (hstep : valueStep vals op vals') :
    ∃ s' owners' new, listStep q s op s' ∧ Holding s' vals' owners' (new ++ lost) ∧
      new.length = op.lost := by
  obtain ⟨hwithin, hvalue⟩ := hstep
  cases op with
  | init news =>
    cases hvalue
    obtain ⟨list, mem', rs, hinit, hlist, hown, hsame⟩ :=
      newInit_owned hq hwithin.2 hwithin.1 h.owned
    refine ⟨_, _, [], ?_, h.push hlist hown hsame, rfl⟩
    rw [listStep, ListOp.exec, hinit]
    rfl
  | vinit news =>
    cases hvalue
    obtain ⟨list, mem', rs, hvinit, hlist, hown, hsame⟩ :=
      newVinit_owned hq hwithin.2 hwithin.1 h.owned
    refine ⟨_, _, [], ?_, h.push hlist hown hsame, rfl⟩
    rw [listStep, ListOp.exec, hvinit]
    rfl
  | copy i =>
    cases hvalue
    obtain ⟨r, mem', rs, hcopy, hlist, hown, hsame⟩ := copy_owned hq (h.lists i) h.owned
    refine ⟨_, _, [], ?_, h.push hlist hown hsame, rfl⟩
    rw [listStep, ListOp.exec, hcopy]
    rfl
  | merge i j =>
    cases hvalue
    obtain ⟨r, mem', rs, hmerge, hlist, hown, hsame⟩ :=
      merge_owned hq (h.lists i) (h.lists j) hwithin h.owned
    refine ⟨_, _, [], ?_, h.push hlist hown hsame, rfl⟩
    rw [listStep, ListOp.exec, hmerge]
    rfl
  | release i =>
    cases hv : valueOf vals i with
    | none =>
      rw [ListOp.value, hv] at hvalue
      cases hvalue
    | some os =>
      rw [ListOp.value, hv] at hvalue
      cases hvalue
      obtain ⟨hi, p, hp⟩ := h.held (hv ▸ Option.some_ne_none os)
      have hlist := h.lists i
      rw [hp] at hlist
      have hio : i < owners.length := by rw [h.length]; exact hi
      have haccount : (lost ++ owners.flatten).Perm
          (owners.getD i [] ++ (lost ++ (owners.eraseIdx i).flatten)) :=
        ((flatten_perm hio).append_left lost).trans (List.perm_append_comm_assoc ..)
      obtain ⟨mem', hrelease, hown, hsame⟩ := release_owned hlist (h.owned.perm haccount)
      refine ⟨_, _, [], ?_, h.replace hi ListOwns.null hown hsame, rfl⟩
      rw [listStep, ListOp.exec, hp, hrelease]
      rfl
  | ofUri env dest uri =>
    obtain ⟨v, hv, hret⟩ := bind_eq_ok.mp hvalue
    cases hret
    obtain ⟨r, rs, new, mem', huri, hlist, hlost, hown, hsame⟩ :=
      mcUriToOptions_owned hq h.owned hv
    refine ⟨_, _, new, ?_, h.push hlist hown hsame, hlost⟩
    rw [listStep, ListOp.exec, huri]
    rfl
  | mkOptions env addr uri extra =>
    obtain ⟨v, hv, hrest⟩ := bind_eq_ok.mp hvalue
    have hnext : (v = none → valueOf vals extra = none) ∧
        vals' = vals ++ [if valueOf vals extra = none then v else union v (valueOf vals extra)] := by
      generalize valueOf vals extra = w at hrest
      cases w with
      | none =>
        cases hrest
        exact ⟨fun _ => rfl, rfl⟩
      | some os =>
        cases v with
        | none => cases hrest
        | some v =>
          cases hrest
          exact ⟨fun hnone => (Option.some_ne_none v hnone).elim, rfl⟩
    obtain ⟨hused, rfl⟩ := hnext
    obtain ⟨list, new, mem', rs, hmade, hlist, hlost, hown, hsame⟩ :=
      mkOptions_owned hq (h.lists extra)
        (List.subset_append_of_subset_right lost (getD_subset owners extra)) h.owned hv
        (fun os hos => hwithin.2 os (hos ▸ hv)) hused
    refine ⟨_, _, new, ?_, h.push hlist hown hsame, hlost⟩
    rw [listStep, ListOp.exec, hmade]
    rfl

/-- The copy that is merged is made before the null list is given up. -/
theorem mkOptions_null (hq : q.Stable) {env : UriEnv} {addr : SockAddr} {uri : List UInt8}
    {extra : Ptr} {w : Option (List Wire.Opt)} {qs : List Ptr}
    (hextra : ListOwns mem (some extra) w qs) (hsub : qs ⊆ ps) (h : Owned mem.store ps)
    (hvalue : uriValue env (some addr) uri = .ok none) :
    mem.mkOptions q env addr uri (some extra) = .error .nullDeref := by
  obtain ⟨_, mem1, list, mem2, rs, new, halloc, huri, hlist, _, hown2, hsame2⟩ :=
    uriList_owned hq h hvalue
  cases hlist
  obtain ⟨merged, mem3, _, hcopy, _⟩ := copy_owned hq (hextra.same (hsame2.subset hsub)) hown2
  have hmerge : mem2.mcOptionsListMerge q none (some extra) = .ok (merged, mem3) := hcopy
  rw [Memory.mkOptions, halloc]
  simp only [bind, Except.bind, huri, hmerge]
  rfl

/-- Step: what is misused is dereferenced. -/
theorem Holding.misused (hq : q.Stable) (h : Holding s vals owners lost)
    (hmisused : op.Misused vals) : op.exec q s = .error .nullDeref := by
  cases op with
  | init news => exact hmisused.elim
  | vinit news => exact hmisused.elim
  | copy i => exact hmisused.elim
  | merge i j => exact hmisused.elim
  | ofUri env dest uri => exact hmisused.elim
  | release i =>
    rw [ListOp.exec, (h.lists i).none_iff.mpr hmisused]
    rfl
  | mkOptions env addr uri extra =>
    obtain ⟨hrejected, hextra⟩ := hmisused
    obtain ⟨p, hp⟩ := (h.lists extra).some hextra
    have hlist := h.lists extra
    rw [hp] at hlist
    have hnull := mkOptions_null hq hlist
      (List.subset_append_of_subset_right lost (getD_subset owners extra)) h.owned hrejected
    rw [ListOp.exec, hp, hnull]
    rfl

/-- Nothing else goes wrong on values. -/
theorem value_ok (hwithin : op.Within vals) (hused : ¬ op.Misused vals) :
    ∃ vals', op.value vals = .ok vals' := by
  have huri : ∀ {env dest uri}, UriFits uri → ∃ v, uriValue env dest uri = .ok v := by
    intro env dest uri hfits
    obtain ⟨options, harray⟩ := uriArray_safe env dest hfits.1 hfits.2
    rw [uriValue, harray]
    exact ⟨_, rfl⟩
  cases op with
  | init news => exact ⟨_, rfl⟩
  | vinit news => exact ⟨_, rfl⟩
  | copy i => exact ⟨_, rfl⟩
  | merge i j => exact ⟨_, rfl⟩
  | release i =>
    obtain ⟨os, hos⟩ := Option.ne_none_iff_exists'.mp hused
    rw [ListOp.value, hos]
    exact ⟨_, rfl⟩
  | ofUri env dest uri =>
    obtain ⟨v, hv⟩ := huri hwithin
    rw [ListOp.value, hv]
    exact ⟨_, rfl⟩
  | mkOptions env addr uri extra =>
    obtain ⟨v, hv⟩ := huri hwithin.1
    rw [ListOp.value, hv]
    cases hextra : valueOf vals extra with
    | none => exact ⟨_, rfl⟩
    | some os =>
      cases v with
      | none => exact (hused ⟨hv, hextra ▸ Option.some_ne_none os⟩).elim
      | some v => exact ⟨_, rfl⟩

/-- Without lists there are no blocks but the lost ones. -/
theorem Holding.left (h : Holding s vals owners lost) (hnone : ∀ v ∈ vals, v = none) :
    Owned s.mem.store lost := by
  have hempty : owners.flatten = [] := by
    rw [List.flatten_eq_nil_iff]
    intro qs hqs
    obtain ⟨i, hi, rfl⟩ := List.mem_iff_getElem.mp hqs
    have hvalue : valueOf vals i = none := by
      have hiv : i < vals.length := by rw [h.values, ← h.length]; exact hi
      rw [valueOf, List.getElem?_eq_getElem hiv, hnone _ (List.getElem_mem hiv)]
      rfl
    have hlist := h.lists i
    rw [hvalue, List.getD_eq_getElem?_getD, List.getElem?_eq_getElem hi, Option.getD_some] at hlist
    generalize owners[i] = qs at hlist ⊢
    generalize s.list i = list at hlist
    cases hlist
    rfl
  have hown := h.owned
  rw [hempty, List.append_nil] at hown
  exact hown

end

/-- A program without lists. -/
def noLists (nullEmpty : Bool) : ListHolder := ⟨⟨Store.empty, nullEmpty⟩, []⟩

/-- Run: whatever is done with lists, in any order, is done in memory as on
    values.  At any time each list holds its value, the lists share no block,
    and no other block is there but the lost ones, of which there are as many
    as the operations lose; and the next operation comes back exactly if it
    does not misuse a null list. -/
theorem lists_owned {q : Qsort OptionCell} (hq : q.Stable) (nullEmpty : Bool) {ops : List ListOp}
    {vals : ListValues} (hrun : Run valueStep [] ops vals) :
    ∃ s owners lost, Run (listStep q) (noLists nullEmpty) ops s ∧ Holding s vals owners lost ∧
      lost.length = (ops.map ListOp.lost).sum ∧
      ((∀ v ∈ vals, v = none) → Owned s.mem.store lost) ∧
      ∀ op : ListOp, op.Within vals → ((∃ s', listStep q s op s') ↔ ¬ op.Misused vals) := by
  have hheld : ∃ s owners lost, Run (listStep q) (noLists nullEmpty) ops s ∧
      Holding s vals owners lost ∧ lost.length = (ops.map ListOp.lost).sum := by
    induction hrun with
    | nil => exact ⟨_, [], [], Run.nil, ⟨fun _ => ListOwns.null, rfl, rfl, owned_empty⟩, rfl⟩
    | snoc _ hstep ih =>
      obtain ⟨s, owners, lost, hrun, h, hlost⟩ := ih
      obtain ⟨s', owners', new, hstep', h', hnew⟩ := h.step hq hstep
      refine ⟨s', owners', new ++ lost, hrun.snoc hstep', h', ?_⟩
      rw [List.length_append, List.map_append, List.sum_append, hlost, hnew, Nat.add_comm]
      simp
  obtain ⟨s, owners, lost, hrun', h, hlost⟩ := hheld
  refine ⟨s, owners, lost, hrun', h, hlost, h.left, fun op hwithin => ⟨?_, fun hused => ?_⟩⟩
  · rintro ⟨s', hstep⟩ hmisused
    have hfault := h.misused hq hmisused
    rw [listStep, hfault] at hstep
    cases hstep
  · obtain ⟨vals', hvalue⟩ := value_ok hwithin hused
    obtain ⟨s', _, _, hstep, _⟩ := h.step hq ⟨hwithin, hvalue⟩
    exact ⟨s', hstep⟩

/-- Every host is found at one address, which is where the request goes. -/
def oneHost : UriEnv := ⟨fun _ => some 1, ⟨afInet, 0, 0, 0⟩, false, id⟩

def oneHostAddr : SockAddr := ⟨afInet, msSwapU16 1, 1, 0⟩

/-- The witness: three options out of order, `mk_options` of coap://h:1/b with
    them, and both lists are given up.  Two blocks are lost, and giving up a
    third list would be a fault. -/
theorem lists_owned_extra :
    ∃ s lost, Run (listStep (insertion OptionCell)) (noLists true)
        [.vinit [.uint 12 50, .copied 11 [0x61], .str 11 [0x62, 0]],
          .mkOptions oneHost oneHostAddr (schemeCoap ++ (schemeEnd ++ [0x68, colon, 0x31, slash, 0x62])) 0,
          .release 0, .release 1] s ∧
      Owned s.mem.store lost ∧ lost.length = 2 ∧
      ¬ ∃ s', listStep (insertion OptionCell) s (.release 2) s' := by
  have hvinit : valueStep [] (.vinit [.uint 12 50, .copied 11 [0x61], .str 11 [0x62, 0]])
      [some [⟨11, [0x61]⟩, ⟨11, [0x62]⟩, ⟨12, [50]⟩]] := by
    refine ⟨⟨by decide, ?_⟩, by decide⟩
    simp [NewOption.Fits, cstring]
  have hmade : valueStep [some [⟨11, [0x61]⟩, ⟨11, [0x62]⟩, ⟨12, [50]⟩]]
      (.mkOptions oneHost oneHostAddr (schemeCoap ++ (schemeEnd ++ [0x68, colon, 0x31, slash, 0x62])) 0)
      [some [⟨11, [0x61]⟩, ⟨11, [0x62]⟩, ⟨12, [50]⟩],
        some [⟨11, [0x62]⟩, ⟨11, [0x61]⟩, ⟨11, [0x62]⟩, ⟨12, [50]⟩]] := by
    have hvalue : uriValue oneHost (some oneHostAddr)
        (schemeCoap ++ (schemeEnd ++ [0x68, colon, 0x31, slash, 0x62])) = .ok (some [⟨11, [0x62]⟩]) := by
      decide
    refine ⟨⟨⟨copiesFit_of_short (by unfold Short; decide), by decide⟩, ?_⟩, ?_⟩
    · intro os hos
      cases hvalue.symm.trans hos
      decide
    · rw [ListOp.value, hvalue]
      decide
  have hfirst : ∀ a b, valueStep [some a, some b] (.release 0) [none, some b] :=
    fun _ _ => ⟨trivial, rfl⟩
  have hsecond : ∀ b, valueStep [none, some b] (.release 1) [none, none] :=
    fun _ => ⟨trivial, rfl⟩
  have hrun := (((Run.single hvinit).snoc hmade).snoc (hfirst _ _)).snoc (hsecond _)
  obtain ⟨s, _, lost, hrun', _, hlost, hleft, hnext⟩ :=
    lists_owned (insertion_stable OptionCell) true hrun
  refine ⟨s, lost, hrun', hleft (by decide), hlost.trans (by decide), fun hstep => ?_⟩
  exact (hnext (.release 2) trivial).mp hstep rfl

end Mcoap

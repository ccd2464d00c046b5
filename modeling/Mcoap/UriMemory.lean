import Mcoap.MessageMemory
import Mcoap.PortContacted

/-! # The options of a URI in memory

    `mc_uri_to_options` on the blocks that `malloc` gives out.

    `Mcoap.Uri` has the same function on values.  Here every string that is
    cut out of the URI is a block, most of them freed again, and the options
    lie in an array that may be longer than there are options.

    * `Filling`: the array, with some options in front and unused places
      behind;
    * `componentsLoop_owned`: the loops over the path and the query;
    * `uriValue`: the options that a URI stands for, `uriValue_list`: they
      are those of `mc_uri_to_options` on values;
    * `mcUriToOptions_owned`: the list that is made, the blocks it is made of,
      and the block that is lost if the host is not in the list. -/

namespace Mcoap

open Blocks CString StableSort

/-! ## Section 1: The functions -/

namespace Memory

/-- A string that is freed as soon as it has been looked at. -/
def tempString (mem : Memory) (str : List UInt8) : Except Fault Memory :=
  let (copy, mem) := mem.newString str
  mem.msFree copy

/-- Whether the scheme is valid.  The string is freed in either case. -/
def schemeValid (mem : Memory) (uri : List UInt8) : Except Fault (Bool × Memory) := do
  let scheme ← getscheme uri
  match scheme with
  | none => return (validscheme none, mem)
  | some scheme =>
    let mem ← mem.tempString scheme
    return (validscheme (some scheme), mem)

/-- Get port from URI.  If there is one, its characters are copied. -/
def getport (mem : Memory) (overflow : Int → Int) (uri : List UInt8) :
    Except Fault (UInt32 × Memory) := do
  if uri.head? ≠ some colon then return (mcDefaultPort, mem)
  else
    match advanceby uri [colon] with
    | none => .error .nullDeref
    | some current =>
      let portstr ← msCopyCstr (UInt32.ofNat (strcspn current [slash])) current
      let port := UInt32.ofInt (atoi overflow portstr)
      let mem ← mem.tempString portstr
      return (if port = 0 then mcDefaultPort else port, mem)

/-- The two loops of `mc_uri_to_options`.  The component is copied out of the
    URI, and copied once more for the option. -/
def componentsLoop (get : List UInt8 → Except Fault (Option (List UInt8))) (optionNum : UInt16)
    (chars : List UInt8) (options : Option Ptr) :
    Nat → Nat → List UInt8 → Memory → Except Fault (Nat × List UInt8 × Memory)
  | 0, _, _, _ => .error .endless
  | fuel + 1, iopt, current, mem => do
    let component ← get current
    match component with
    | none => return (iopt, current, mem)
    | some component =>
      let (path, mem) := mem.newString component
      let (copy, mem) := mem.newString component
      let mem ←
        mem.storeOption options iopt ⟨optionNum, UInt32.ofNat component.length, copy⟩
      let current ← pointerAdd current 1
      let mem ← mem.msFree path
      componentsLoop get optionNum chars options fuel (iopt + 1) (advanceto current chars) mem

/-- The options of the path and of the query; returns how many there are now. -/
def uriComponents (mem : Memory) (options : Option Ptr) (iopt : Nat) (current : List UInt8) :
    Except Fault (Nat × Memory) := do
  let (iopt, current, mem) ← componentsLoop getpath optionUriPath [slash, question] options
    (current.length + 1) iopt current mem
  let (iopt, _, mem) ← componentsLoop getquery optionUriQuery [ampersand] options
    (current.length + 1) iopt current mem
  return (iopt, mem)

/-- The host a pointer stands on, where it was copied to, and the pointer
    behind it. -/
def hostAt (mem : Memory) (current : List UInt8) :
    Except Fault (Option (List UInt8 × Option Ptr × List UInt8) × Memory) := do
  let host ← getaddress current
  match host with
  | none => return (none, mem)
  | some host =>
    let (copy, mem) := mem.newString host
    if host.length = 0 then
      let mem ← mem.msFree copy
      return (none, mem)
    else
      let current ←
        if current.head? = some openBracket then pointerAdd current 2 else .ok current
      let current ← pointerAdd current host.length
      return (some (host, copy, current), mem)

/-- The first half of `mc_uri_to_options`: scheme and host. -/
def uriHost (mem : Memory) (uri : List UInt8) :
    Except Fault (Option (List UInt8 × Option Ptr × List UInt8) × Memory) := do
  let (valid, mem) ← mem.schemeValid uri
  if valid then
    match advanceby (advanceto uri [colon]) [colon, slash, slash] with
    | none => return (none, mem)
    | some current => mem.hostAt current
  else
    return (none, mem)

/-- The second half: the array of the options, and how many there are. -/
def uriOptions (mem : Memory) (env : UriEnv) (dest : Option SockAddr) (host : List UInt8)
    (copy : Option Ptr) (current : List UInt8) : Except Fault (Nat × Option Ptr × Memory) := do
  let (port, mem) ← mem.getport env.overflow current
  let current := advanceto current [slash, question]
  let nopts := estimatenopts current
  let (_, uriaddr) := mnSockaddrInetInit env.resolve env.uriaddr host port.toUInt16
  if equaladdr env.past uriaddr dest then
    -- the copy of the host is neither used nor freed
    let (options, mem) := mem.mcOptionNalloc nopts
    let (iopt, mem) ← mem.uriComponents options 0 current
    return (iopt, options, mem)
  else
    let (options, mem) := mem.mcOptionNalloc (nopts + 2)
    let mem ← mem.storeOption options 0 ⟨optionUriHost, UInt32.ofNat host.length, copy⟩
    let option ← mem.loadOption options 1
    let (option, mem) ← mem.mcOptionInitUint32 option optionUriPort port
    let mem ← mem.storeOption options 1 option
    let (iopt, mem) ← mem.uriComponents options 2 current
    return (iopt, options, mem)

/-- Parse host, port, path, and query components from uri.  The list is a new
    one. -/
def mcUriToOptions (mem : Memory) (qsort : Qsort OptionCell) (env : UriEnv)
    (dest : Option SockAddr) (uri : List UInt8) : Except Fault (Option Ptr × Memory) := do
  let (found, mem) ← mem.uriHost (cstring uri)
  match found with
  | none => return (none, mem)
  | some (host, copy, current) =>
    let (iopt, options, mem) ← mem.uriOptions env dest host copy current
    let (list, mem) := mem.mcOptionsListAlloc
    mem.mcOptionsListInit qsort list (UInt32.ofNat iopt) options

end Memory

/-- The URI's host and port are the destination's: neither becomes an option. -/
def elidedHost (env : UriEnv) (dest : Option SockAddr) (host : List UInt8) (port : UInt32) : Bool :=
  equaladdr env.past (mnSockaddrInetInit env.resolve env.uriaddr host port.toUInt16).2 dest

/-- The copy of the host that is lost, if the URI is accepted and names the
    destination. -/
def lostHosts (env : UriEnv) (dest : Option SockAddr) (uri : List UInt8) : Nat :=
  match uriHost (cstring uri) with
  | .ok (some (host, current)) =>
    match getport env.overflow current with
    | .ok port => if elidedHost env dest host port then 1 else 0
    | .error _ => 0
  | _ => 0

/-! ## Section 2: The array that is filled -/

/-- The array of `nopts` places: the options lie in front, and the places
    behind them own nothing. -/
structure Filling (mem : Memory) (options : Option Ptr) (nopts : UInt32) (opts : List McOption)
    (filled blanks : List OptionCell) : Prop where
  array  : ArrayAt mem options (filled ++ blanks)
  unused : ∀ c ∈ blanks, c.bytes = none
  room   : filled.length + blanks.length = nopts.toNat
  holds  : List.Forall₂ (OptionAt mem) filled (wireOptions opts)

section

open Memory

variable {mem mem' : Memory} {options : Option Ptr} {nopts : UInt32} {opts opts' : List McOption}
  {option : McOption} {filled blanks : List OptionCell} {new : OptionCell} {ps : List Ptr}
  {str current current' : List UInt8} {get : List UInt8 → Except Fault (Option (List UInt8))}
  {optionNum : UInt16} {chars : List UInt8} {fuel : Nat}

theorem Filling.same (h : Filling mem options nopts opts filled blanks)
    (hsame : Same (arrayBlocks options (filled ++ blanks)) mem.store mem'.store) :
    Filling mem' options nopts opts filled blanks := by
  have hbytes := hsame.subset (List.subset_append_right _ _)
  rw [List.filterMap_append] at hbytes
  exact ⟨h.array.same (hsame.subset (List.subset_append_left _ _)), h.unused, h.room,
    optionsAt_same h.holds (hbytes.subset (List.subset_append_left _ _))⟩

/-- The places behind the options own nothing. -/
theorem Filling.blocks (h : Filling mem options nopts opts filled blanks) :
    arrayBlocks options (filled ++ blanks) = arrayBlocks options filled := by
  rw [arrayBlocks, arrayBlocks, List.filterMap_append, List.filterMap_eq_nil_iff.mpr h.unused,
    List.append_nil]

theorem putOption_length (hput : putOption nopts opts option = .ok opts') :
    opts'.length = opts.length + 1 := by
  unfold putOption at hput
  split at hput
  · cases hput
    exact List.length_append
  · cases hput

/-- The next place of the array, if there is one. -/
theorem Filling.place (h : Filling mem options nopts opts filled blanks)
    (hput : putOption nopts opts option = .ok opts') :
    filled.length = opts.length ∧ ∃ blank rest, blanks = blank :: rest ∧
      mem.loadOption options opts.length = .ok blank ∧ blank.bytes = none := by
  have hlen : filled.length = opts.length := h.holds.length_eq.trans (List.length_map _)
  have hroom := h.room
  unfold putOption at hput
  split at hput
  · obtain ⟨blank, rest, rfl⟩ : ∃ blank rest, blanks = blank :: rest :=
      List.exists_cons_of_length_pos (by omega)
    refine ⟨hlen, blank, rest, rfl, ?_, h.unused blank List.mem_cons_self⟩
    rw [← hlen]
    exact h.array.load
  · cases hput

/-- The next place gets an option, and the array owns its bytes. -/
theorem Filling.put (h : Filling mem options nopts opts filled blanks)
    (hput : putOption nopts opts option = .ok opts') (hat : OptionAt mem new option.wire)
    (hown : Owned mem.store (new.bytes.toList ++ (arrayBlocks options (filled ++ blanks) ++ ps))) :
    ∃ mem' blanks', mem.storeOption options opts.length new = .ok mem' ∧
      Filling mem' options nopts opts' (filled ++ [new]) blanks' ∧
      Owned mem'.store (arrayBlocks options ((filled ++ [new]) ++ blanks') ++ ps) ∧
      Same ps mem.store mem'.store := by
  obtain ⟨hlen, blank, rest, rfl, _, hnone⟩ := h.place hput
  have hperm := (arrayBlocks_perm options filled rest blank).append_right ps
  rw [hnone, Option.toList_none, List.nil_append] at hperm
  obtain ⟨mem', hstore, harr', hown', hsame'⟩ :=
    storeOption_owned h.array (hown.perm (hperm.append_left _))
  rw [List.append_cons] at harr' hown'
  rw [hlen] at hstore
  rw [List.filterMap_append, List.append_assoc] at hsame'
  have hold := hsame'.subset (List.subset_append_of_subset_right _ (List.subset_append_left _ _))
  have hopts : opts' = opts ++ [option] := by
    unfold putOption at hput
    split at hput
    · exact (Except.ok.inj hput).symm
    · cases hput
  refine ⟨mem', rest, hstore, ⟨harr', fun c hc => h.unused c (List.mem_cons_of_mem blank hc), ?_, ?_⟩,
    hown', hsame'.subset ?_⟩
  · have hroom := h.room
    rw [List.length_cons] at hroom
    rw [List.length_append, List.length_singleton]
    omega
  · rw [hopts, wireOptions, List.map_append]
    exact List.rel_append (optionsAt_same h.holds hold) (List.Forall₂.cons
      (hat.same (hsame'.subset (List.subset_append_left _ _))) List.Forall₂.nil)
  · exact List.subset_append_of_subset_right _ (List.subset_append_of_subset_right _
      (List.subset_append_right _ ps))

/-! ## Section 3: Strings -/

theorem tempString_owned (h : Owned mem.store ps) (str : List UInt8) :
    ∃ mem', mem.tempString str = .ok mem' ∧ Owned mem'.store ps ∧
      Same ps mem.store mem'.store := by
  obtain ⟨p, mem1, hnew, _, hown1, hsame1⟩ := newString_owned h str
  obtain ⟨mem', hfree, hown', hsame'⟩ := @msFree_owned mem1 ps (some p) hown1
  refine ⟨mem', ?_, hown', hsame1.trans hsame'⟩
  simp only [tempString, hnew, hfree]

theorem msCopyCstr_length {count : UInt32} {data : List UInt8}
    (hcopy : msCopyCstr count data = .ok str) : str.length < 2 ^ 32 := by
  unfold msCopyCstr at hcopy
  split at hcopy
  · cases hcopy
  · cases hcopy
    have hlen := List.length_take_le count.toNat data
    have hcount := count.toNat_lt
    omega

/-- A string that becomes the value of an option. -/
theorem optionAt_str {p : Ptr} (hblock : mem.store.blocks p = some (.bytes (str ++ [0])))
    (hlen : str.length < 2 ^ 32) (optionNum : UInt16) :
    OptionAt mem ⟨optionNum, UInt32.ofNat str.length, some p⟩ (mcOptionInitStr optionNum str).wire := by
  have hcount : (UInt32.ofNat str.length).toNat = str.length := Nat.mod_eq_of_lt hlen
  rw [mcOptionInitStr, McOption.wire_init _ hcount]
  exact ⟨rfl, hcount, Or.inr ⟨p, [0], rfl, Nat.zero_le p, hblock⟩⟩

/-! ## Section 4: Path and query -/

theorem getcomponent_short {first last : List UInt8}
    (hget : getcomponent first last current = .ok (some str)) : str.length < 2 ^ 32 := by
  cases current with
  | nil => cases hget
  | cons c current =>
    rw [getcomponent] at hget
    split at hget
    · cases hget
    · obtain ⟨component, hcopy, hret⟩ := bind_eq_ok.mp hget
      cases hret
      exact msCopyCstr_length hcopy

/-- The loops: by induction on the fuel.  Each iteration leaves one block
    more, and the array owns it. -/
theorem componentsLoop_owned
    (hget : ∀ {current str}, get current = .ok (some str) → str.length < 2 ^ 32)
    (h : Filling mem options nopts opts filled blanks)
    (hown : Owned mem.store (arrayBlocks options (filled ++ blanks) ++ ps))
    (hloop : Mcoap.componentsLoop get optionNum chars nopts fuel opts current =
      .ok (opts', current')) :
    ∃ filled' blanks' mem', Memory.componentsLoop get optionNum chars options fuel opts.length
        current mem = .ok (opts'.length, current', mem') ∧
      Filling mem' options nopts opts' filled' blanks' ∧
      Owned mem'.store (arrayBlocks options (filled' ++ blanks') ++ ps) ∧
      Same ps mem.store mem'.store := by
  induction fuel generalizing mem opts filled blanks current with
  | zero => cases hloop
  | succ fuel ih =>
    unfold Mcoap.componentsLoop at hloop
    obtain ⟨component, hcomponent, hloop⟩ := bind_eq_ok.mp hloop
    cases component with
    | none =>
      cases hloop
      refine ⟨filled, blanks, mem, ?_, h, hown, Same.refl _ _⟩
      rw [Memory.componentsLoop, hcomponent]
      rfl
    | some component =>
      obtain ⟨opts1, hput, hloop⟩ := bind_eq_ok.mp hloop
      obtain ⟨next, hnext, hloop⟩ := bind_eq_ok.mp hloop
      -- the component, and the copy of it that is kept
      obtain ⟨path, mem1, hnew1, _, hown1, hsame1⟩ := newString_owned hown component
      obtain ⟨copy, mem2, hnew2, hblock2, hown2, hsame2⟩ := newString_owned hown1 component
      have hkept := hsame1.trans (hsame2.subset (List.subset_cons_self path _))
      have hat := optionAt_str hblock2 (hget hcomponent) optionNum
      obtain ⟨mem3, blanks3, hstore, h3, hown3, hsame3⟩ :=
        (h.same (hkept.subset (List.subset_append_left _ ps))).put hput hat
          (hown2.perm (List.perm_middle.symm.cons copy))
      obtain ⟨mem4, hfree, hown4, hsame4⟩ :=
        @msFree_owned mem3 _ (some path) (hown3.perm List.perm_middle)
      obtain ⟨filled', blanks', mem', hrest, h', hown', hsame'⟩ :=
        ih (h3.same (hsame4.subset (List.subset_append_left _ ps))) hown4 hloop
      rw [putOption_length hput] at hrest
      refine ⟨filled', blanks', mem', ?_, h', hown', ?_⟩
      · rw [Memory.componentsLoop, hcomponent]
        simp only [bind, Except.bind, hnew1, hnew2, hstore, hnext, hfree, hrest]
      · have hfirst := hkept.subset (List.subset_append_right _ ps)
        have hstored := hsame3.subset (List.subset_cons_self path ps)
        exact ((hfirst.trans hstored).trans (hsame4.subset (List.subset_append_right _ ps))).trans
          hsame'

theorem uriComponents_owned (h : Filling mem options nopts opts filled blanks)
    (hown : Owned mem.store (arrayBlocks options (filled ++ blanks) ++ ps))
    (hrest : Mcoap.uriComponents nopts opts current = .ok opts') :
    ∃ filled' blanks' mem', mem.uriComponents options opts.length current =
        .ok (opts'.length, mem') ∧
      Filling mem' options nopts opts' filled' blanks' ∧
      Owned mem'.store (arrayBlocks options (filled' ++ blanks') ++ ps) ∧
      Same ps mem.store mem'.store := by
  obtain ⟨⟨opts1, current1⟩, hpaths, hrest⟩ := bind_eq_ok.mp hrest
  obtain ⟨⟨opts2, current2⟩, hqueries, hret⟩ := bind_eq_ok.mp hrest
  cases hret
  obtain ⟨filled1, blanks1, mem1, hloop1, h1, hown1, hsame1⟩ :=
    componentsLoop_owned getcomponent_short h hown hpaths
  obtain ⟨filled', blanks', mem', hloop2, h', hown', hsame'⟩ :=
    componentsLoop_owned getcomponent_short h1 hown1 hqueries
  refine ⟨filled', blanks', mem', ?_, h', hown', hsame1.trans hsame'⟩
  simp only [Memory.uriComponents, getpath, getquery, bind, Except.bind, hloop1, hloop2]
  rfl

/-! ## Section 5: Scheme, host and port -/

theorem schemeValid_owned (h : Owned mem.store ps) {scheme : Option (List UInt8)}
    (hget : getscheme str = .ok scheme) :
    ∃ mem', mem.schemeValid str = .ok (validscheme scheme, mem') ∧ Owned mem'.store ps ∧
      Same ps mem.store mem'.store := by
  cases scheme with
  | none =>
    refine ⟨mem, ?_, h, Same.refl _ _⟩
    rw [schemeValid, hget]
    rfl
  | some scheme =>
    obtain ⟨mem', htemp, hown, hsame⟩ := tempString_owned h scheme
    refine ⟨mem', ?_, hown, hsame⟩
    rw [schemeValid, hget]
    simp only [bind, Except.bind, htemp]
    rfl

theorem getport_owned (h : Owned mem.store ps) {overflow : Int → Int} {port : UInt32}
    (hget : Mcoap.getport overflow str = .ok port) :
    ∃ mem', mem.getport overflow str = .ok (port, mem') ∧ Owned mem'.store ps ∧
      Same ps mem.store mem'.store := by
  unfold Mcoap.getport at hget
  unfold Memory.getport
  split at hget
  · next hcolon =>
    cases hget
    rw [if_pos hcolon]
    exact ⟨mem, rfl, h, Same.refl _ _⟩
  · next hcolon =>
    rw [if_neg hcolon]
    cases hcurrent : advanceby str [colon] with
    | none =>
      rw [hcurrent] at hget
      cases hget
    | some current =>
      rw [hcurrent] at hget
      obtain ⟨portstr, hcopy, hret⟩ := bind_eq_ok.mp hget
      cases hret
      obtain ⟨mem', htemp, hown, hsame⟩ := tempString_owned h portstr
      refine ⟨mem', ?_, hown, hsame⟩
      simp only [hcopy, bind, Except.bind, htemp]
      rfl

theorem getaddress_short (hget : getaddress current = .ok (some str)) : str.length < 2 ^ 32 := by
  unfold getaddress at hget
  split at hget
  · unfold getip6host at hget
    cases hcurrent : advanceby current [openBracket] with
    | none =>
      rw [hcurrent] at hget
      cases hget
    | some inside =>
      rw [hcurrent] at hget
      simp only at hget
      split at hget
      · cases hget
      · split at hget
        · cases hget
        · obtain ⟨host, hcopy, hret⟩ := bind_eq_ok.mp hget
          cases hret
          exact msCopyCstr_length hcopy
  · obtain ⟨host, hcopy, hret⟩ := bind_eq_ok.mp hget
    cases hret
    exact msCopyCstr_length hcopy

/-- A host that is found has been copied to a block of its own; one that is
    not has left nothing. -/
def HostTaken (mem : Memory) (ps : List Ptr) (found : Option (List UInt8 × List UInt8))
    (found' : Option (List UInt8 × Option Ptr × List UInt8)) : Prop :=
  match found with
  | none => found' = none ∧ Owned mem.store ps
  | some (host, current) => ∃ p, found' = some (host, some p, current) ∧ host.length < 2 ^ 32 ∧
      mem.store.blocks p = some (.bytes (host ++ [0])) ∧ Owned mem.store (p :: ps)

theorem hostAt_owned (h : Owned mem.store ps) {found : Option (List UInt8 × List UInt8)}
    (hhost : Mcoap.hostAt current = .ok found) :
    ∃ found' mem', mem.hostAt current = .ok (found', mem') ∧ HostTaken mem' ps found found' ∧
      Same ps mem.store mem'.store := by
  obtain ⟨host, hget, hhost⟩ := bind_eq_ok.mp hhost
  cases host with
  | none =>
    cases hhost
    refine ⟨none, mem, ?_, ⟨rfl, h⟩, Same.refl _ _⟩
    rw [Memory.hostAt, hget]
    rfl
  | some host =>
    obtain ⟨p, mem1, hnew, hblock, hown1, hsame1⟩ := newString_owned h host
    simp only at hhost
    split at hhost
    · next hempty =>
      cases hhost
      obtain ⟨mem', hfree, hown', hsame'⟩ := @msFree_owned mem1 ps (some p) hown1
      refine ⟨none, mem', ?_, ⟨rfl, hown'⟩, hsame1.trans hsame'⟩
      rw [Memory.hostAt, hget]
      simp only [bind, Except.bind, hnew, if_pos hempty, hfree]
      rfl
    · next hempty =>
      -- both go on from the same place, behind a bracket or not
      have hbehind : ∃ next, found = some (host, next) ∧
          mem.hostAt current = .ok (some (host, some p, next), mem1) := by
        rw [Memory.hostAt, hget]
        simp only [bind, Except.bind, hnew, if_neg hempty]
        split at hhost
        · next hbracket =>
          obtain ⟨behind, hbehind, hhost⟩ := bind_eq_ok.mp hhost
          obtain ⟨next, hnext, hret⟩ := bind_eq_ok.mp hhost
          rw [if_pos hbracket, hbehind]
          simp only [hnext]
          exact ⟨next, (Except.ok.inj hret).symm, rfl⟩
        · next hbracket =>
          obtain ⟨behind, hbehind, hhost⟩ := bind_eq_ok.mp hhost
          obtain ⟨next, hnext, hret⟩ := bind_eq_ok.mp hhost
          cases hbehind
          rw [if_neg hbracket]
          simp only [hnext]
          exact ⟨next, (Except.ok.inj hret).symm, rfl⟩
      obtain ⟨next, rfl, hmine⟩ := hbehind
      exact ⟨_, mem1, hmine, ⟨p, rfl, getaddress_short hget, hblock, hown1⟩, hsame1⟩

theorem uriHost_owned (h : Owned mem.store ps) {found : Option (List UInt8 × List UInt8)}
    (hhost : Mcoap.uriHost str = .ok found) :
    ∃ found' mem', mem.uriHost str = .ok (found', mem') ∧ HostTaken mem' ps found found' ∧
      Same ps mem.store mem'.store := by
  obtain ⟨scheme, hget, hhost⟩ := bind_eq_ok.mp hhost
  obtain ⟨mem1, hvalid, hown1, hsame1⟩ := schemeValid_owned h hget
  rw [Memory.uriHost, hvalid]
  simp only [bind, Except.bind]
  split at hhost
  · next hscheme =>
    rw [if_pos hscheme]
    cases hcurrent : advanceby (advanceto str [colon]) [colon, slash, slash] with
    | none =>
      rw [hcurrent] at hhost
      cases hhost
      exact ⟨none, mem1, rfl, ⟨rfl, hown1⟩, hsame1⟩
    | some current =>
      rw [hcurrent] at hhost
      obtain ⟨found', mem', hat, htaken, hsame'⟩ := hostAt_owned hown1 hhost
      exact ⟨found', mem', hat, htaken, hsame1.trans hsame'⟩
  · next hscheme =>
    rw [if_neg hscheme]
    cases hhost
    exact ⟨none, mem1, rfl, ⟨rfl, hown1⟩, hsame1⟩

/-! ## Section 6: The options -/

/-- A new array, with nothing in it. -/
theorem nalloc_filling (h : Owned mem.store ps) (nopts : UInt32) :
    ∃ options blanks mem', mem.mcOptionNalloc nopts = (options, mem') ∧
      Filling mem' options nopts [] [] blanks ∧
      Owned mem'.store (arrayBlocks options ([] ++ blanks) ++ ps) ∧
      Same ps mem.store mem'.store := by
  obtain ⟨options, mem', hnew⟩ : ∃ options mem', mem.mcOptionNalloc nopts = (options, mem') :=
    ⟨_, _, rfl⟩
  obtain ⟨blanks, hroom, hunused, harr, hown, hsame⟩ := nalloc_owned h hnew
  exact ⟨options, blanks, mem', hnew,
    ⟨harr, hunused, (Nat.zero_add _).trans hroom, List.Forall₂.nil⟩, hown, hsame⟩

theorem uriOptions_owned {p : Ptr} {env : UriEnv} {dest : Option SockAddr} {host : List UInt8}
    (hblock : mem.store.blocks p = some (.bytes (host ++ [0]))) (hlen : host.length < 2 ^ 32)
    (h : Owned mem.store (p :: ps)) (hopts : Mcoap.uriOptions env dest host current = .ok opts) :
    ∃ port nopts options filled blanks lost mem',
      Mcoap.getport env.overflow current = .ok port ∧
      mem.uriOptions env dest host (some p) current = .ok (opts.length, options, mem') ∧
      Filling mem' options nopts opts filled blanks ∧
      lost.length = (if elidedHost env dest host port then 1 else 0) ∧
      Owned mem'.store (arrayBlocks options (filled ++ blanks) ++ (lost ++ ps)) ∧
      Same ps mem.store mem'.store := by
  obtain ⟨port, hport, hopts⟩ := bind_eq_ok.mp hopts
  obtain ⟨mem1, hport', hown1, hsame1⟩ := getport_owned h hport
  have hkept1 := hsame1.subset (List.subset_cons_self p ps)
  rw [Memory.uriOptions, hport']
  simp only [bind, Except.bind]
  change (if elidedHost env dest host port then _ else _) = _ at hopts
  change ∃ port' nopts options filled blanks lost mem', _ ∧
    (if elidedHost env dest host port then _ else _) = _ ∧ _
  split at hopts
  · next helided =>
    rw [if_pos helided]
    obtain ⟨options, blanks, mem2, hnew, hfilling, hown2, hsame2⟩ :=
      nalloc_filling hown1 (estimatenopts (advanceto current [slash, question]))
    obtain ⟨filled', blanks', mem', hrest, h', hown', hsame'⟩ :=
      uriComponents_owned hfilling hown2 hopts
    have hkept := hsame1.trans (hsame2.trans hsame')
    refine ⟨port, _, options, filled', blanks', [p], mem', hport, ?_, h', ?_, hown',
      hkept.subset (List.subset_cons_self p ps)⟩
    · simp only [hnew]
      rw [List.length_nil] at hrest
      rw [hrest]
      rfl
    · rw [if_pos helided]
      rfl
  · next helided =>
    rw [if_neg helided]
    obtain ⟨opts1, hput1, hopts⟩ := bind_eq_ok.mp hopts
    obtain ⟨opts2, hput2, hopts⟩ := bind_eq_ok.mp hopts
    obtain ⟨options, blanks, mem2, hnew, hfilling2, hown2, hsame2⟩ :=
      nalloc_filling hown1 (estimatenopts (advanceto current [slash, question]) + 2)
    have hblock2 := (hsame2 p List.mem_cons_self).trans ((hsame1 p List.mem_cons_self).trans hblock)
    -- the host is moved into the array
    obtain ⟨mem3, blanks3, hstore3, hfilling3, hown3, hsame3⟩ :=
      hfilling2.put hput1 (optionAt_str hblock2 hlen optionUriHost) (hown2.perm List.perm_middle)
    obtain ⟨_, blank, _, _, hload, hnone⟩ := hfilling3.place hput2
    obtain ⟨new, mem4, hinit, hat4, hown4, hsame4⟩ :=
      initOption_owned (.uint optionUriPort port) trivial hnone hown3
    have hport4 : OptionAt mem4 new (mcOptionInitUint32 optionUriPort port).wire := by
      rw [mcOptionInitUint32_uint]
      exact hat4
    obtain ⟨mem5, blanks5, hstore5, hfilling5, hown5, hsame5⟩ :=
      (hfilling3.same (hsame4.subset (List.subset_append_left _ ps))).put hput2 hport4 hown4
    obtain ⟨filled', blanks', mem', hrest, h', hown', hsame'⟩ :=
      uriComponents_owned hfilling5 hown5 hopts
    have hone : opts1.length = 1 := putOption_length hput1
    have htwo : opts2.length = 2 := (putOption_length hput2).trans (congrArg (· + 1) hone)
    rw [hone] at hload hstore5
    rw [htwo] at hrest
    have hinit' : mem3.mcOptionInitUint32 blank optionUriPort port = .ok (new, mem4) := hinit
    refine ⟨port, _, options, filled', blanks', [], mem', hport, ?_, h', ?_, hown', ?_⟩
    · rw [List.length_nil] at hstore3
      simp only [hnew, hstore3, hload, hinit', hstore5, hrest]
      rfl
    · rw [if_neg helided]
      rfl
    · have hfilled := (hkept1.trans (hsame2.subset (List.subset_cons_self p ps))).trans hsame3
      have hnumber := (hsame4.subset (List.subset_append_right _ ps)).trans hsame5
      exact (hfilled.trans hnumber).trans hsame'

/-- The options a URI stands for, in the order of their list. -/
def uriValue (env : UriEnv) (dest : Option SockAddr) (uri : List UInt8) :
    Except Fault (Option (List Wire.Opt)) := do
  let options ← uriArray env dest uri
  return options.map fun options => byNumber (wireOptions options)

/-- They are what `mc_uri_to_options` makes of it on values. -/
theorem uriValue_list {qsort : Qsort McOption} (hqsort : qsort.Stable) {env : UriEnv}
    {dest : Option SockAddr} {uri : List UInt8} {list : Option McOptionsList}
    (hlist : Mcoap.mcUriToOptions qsort env dest uri = .ok list) :
    uriValue env dest uri = .ok (list.map fun list => wireOptions list.options) := by
  obtain ⟨options, harray, hret⟩ := bind_eq_ok.mp hlist
  cases hret
  rw [uriValue, harray]
  cases options with
  | none => rfl
  | some options =>
    show Except.ok (some (byNumber (wireOptions options))) =
      Except.ok (some (wireOptions (mcOptionsListInit qsort options).options))
    rw [init_byNumber hqsort]

/-- `mc_uri_to_options` in memory: what it accepts and what it rejects, and
    which blocks there are then. -/
theorem mcUriToOptions_owned {q : Qsort OptionCell} (hq : q.Stable) {env : UriEnv}
    {dest : Option SockAddr} {uri : List UInt8} {v : Option (List Wire.Opt)}
    (h : Owned mem.store ps) (hvalue : uriValue env dest uri = .ok v) :
    ∃ r qs lost mem', mem.mcUriToOptions q env dest uri = .ok (r, mem') ∧
      ListOwns mem' r v qs ∧ lost.length = lostHosts env dest uri ∧
      Owned mem'.store (qs ++ (lost ++ ps)) ∧ Same ps mem.store mem'.store := by
  obtain ⟨options, harray, hret⟩ := bind_eq_ok.mp hvalue
  obtain ⟨found, hhost, harray⟩ := bind_eq_ok.mp harray
  obtain ⟨found', mem1, hfound, htaken, hsame1⟩ := uriHost_owned h hhost
  unfold lostHosts
  rw [hhost]
  cases found with
  | none =>
    cases harray
    cases hret
    obtain ⟨rfl, hown1⟩ := htaken
    refine ⟨none, [], [], mem1, ?_, ListOwns.null, rfl, hown1, hsame1⟩
    rw [Memory.mcUriToOptions, hfound]
    rfl
  | some found =>
    obtain ⟨host, current⟩ := found
    obtain ⟨opts, hopts, harray⟩ := bind_eq_ok.mp harray
    cases harray
    cases hret
    obtain ⟨p, rfl, hlen, hblock, hown1⟩ := htaken
    obtain ⟨port, nopts, items, filled, blanks, lost, mem2, hport, hmade, hfilling, hlost, hown2,
      hsame2⟩ := uriOptions_owned hblock hlen hown1 hopts
    have hcount : (UInt32.ofNat opts.length).toNat = (wireOptions opts).length := by
      have hroom := hfilling.room
      have hlength := hfilling.holds.length_eq
      have hsmall := nopts.toNat_lt
      rw [wireOptions, List.length_map] at hlength ⊢
      exact Nat.mod_eq_of_lt (by omega)
    obtain ⟨new, mem3, mem', qs, halloc, hinit, hlist, hown', hsame'⟩ :=
      newList_owned hq hfilling.array hfilling.unused hfilling.holds hcount
        (hfilling.blocks ▸ hown2)
    refine ⟨some new, qs, lost, mem', ?_, hlist, ?_, hown', ?_⟩
    · rw [Memory.mcUriToOptions, hfound]
      simp only [bind, Except.bind, hmade, halloc, hinit]
    · simp only [hport, hlost, elidedHost]
    · exact (hsame1.trans hsame2).trans (hsame'.subset (List.subset_append_right lost ps))

end

end Mcoap

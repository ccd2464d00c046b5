import Mcoap.UriRequests

/-! # The get program

    `mcget/mcget.c`: a command line program that gets a list of URIs.

    * `packargs_spec`: the arguments are packed where they stand, and what
      is left are the URIs;
    * `getport_spec`: what becomes of the option for the port.

    An argument is a string; reading or writing behind the last one is a
    fault.  What is printed is left out.  The socket of an endpoint is taken
    to be created and bound, so that a receive does not block for longer than
    its wait: the program goes on when `mc_endpt_udp_init` has failed, and
    then the socket is closed or blocks. -/

namespace Mcoap

namespace Mcget

open ByteMem ByteProg StableSort DList CString

/-! ## Section 1: The program -/

abbrev Arg := List UInt8

/-- "-p" -/
def dashP : Arg := [0x2d, 0x70]

def argAt (argv : List Arg) (iarg : Nat) : Except Fault Arg :=
  match argv[iarg]? with
  | some arg => .ok arg
  | none => .error .outOfBounds

def setArg (argv : List Arg) (iarg : Nat) (arg : Arg) : Except Fault (List Arg) :=
  if iarg < argv.length then .ok (argv.set iarg arg) else .error .outOfBounds

/-- The loop of `getport`: the code and `*port`, if there is a -p with
    something behind it.  The endpoints, first and last, are skipped. -/
def portLoop (overflow : Int → Int) (argc : Nat) (argv : List Arg) :
    Nat → Nat → Except Fault (Option (Int × UInt16))
  | 0, _ => .error .endless
  | fuel + 1, iarg => do
    if iarg + 1 < argc then
      let arg ← argAt argv iarg
      if arg = dashP then
        let text ← argAt argv (iarg + 1)
        let port := UInt16.ofInt (atoi overflow text)
        return some (if port = 0 then 1 else 0, port)
      else
        portLoop overflow argc argv fuel (iarg + 1)
    else
      return none

/-- The code and `*port`, which is left alone if no option is found. -/
def getport (overflow : Int → Int) (argc : Nat) (argv : List Arg) (port : UInt16) :
    Except Fault (Int × UInt16) := do
  let found ← portLoop overflow argc argv (argc + 1) 1
  match found with
  | some (err, port) => return (err, port)
  | none =>
    -- check the case of a trailing -p option
    if argc = 0 then .error .outOfBounds
    else
      let last ← argAt argv (argc - 1)
      return (if last = dashP then 1 else 0, port)

/-- The loop of `packargs`: `idest` and the arguments. -/
def packLoop (argc : Nat) : Nat → Nat → Nat → List Arg → Except Fault (Nat × List Arg)
  | 0, _, _, _ => .error .endless
  | fuel + 1, iarg, idest, argv => do
    if iarg < argc then
      let arg ← argAt argv iarg
      if arg = dashP then
        -- skip the port
        packLoop argc fuel (iarg + 1 + 1) idest argv
      else
        let argv ← setArg argv idest arg
        packLoop argc fuel (iarg + 1) (idest + 1) argv
    else
      return (idest, argv)

/-- Pack the args vector moving values to the "left". -/
def packargs (argc : Nat) (argv : List Arg) : Except Fault (Nat × List Arg) :=
  packLoop argc (argc + 1) 1 0 argv

/-- What a call of `get_uri` takes from the system: the name service, its
    uninitialised address, the clock, the random numbers and the socket, and
    what arrives. -/
structure Surroundings where
  env      : UriEnv
  addr     : SockAddr
  host     : Host
  arrivals : Nat → Arrival

/-- What `get_uri` prints, the address it sends to, and its endpoint before
    that is freed. -/
structure Fetch where
  port    : UInt16
  uri     : Arg
  addr    : SockAddr
  msgid   : UInt16
  ntries  : Nat
  msg     : Option McMessage
  seconds : ℚ
  endpt   : Endpoint

section

variable (qsort : Qsort McOption)

/-- `while ((msg == 0) && (ntries < 3))`, with as many tries left. -/
def recvLoop (arrivals : Nat → Arrival) :
    Nat → Nat → Endpoint → Except Fault (Nat × Option McMessage × Endpoint)
  | 0, ntries, endpt => return (ntries, none, endpt)
  | left + 1, ntries, endpt => do
    let (msg, endpt) ← mcEndptUdpRecv qsort (arrivals ntries) endpt
    if msg.isSome then return (ntries + 1, msg, endpt)
    else recvLoop arrivals left (ntries + 1) endpt

/-- The result function is 0, so the message is nonconfirmable. -/
def getUri (around : Surroundings) (port : UInt16) (uri : Arg) : Except Fault Fetch := do
  -- nobody looks at the code
  let (_, addr) ← mcUriToAddress around.env around.addr uri
  let endpt := mcEndptUdpInit 1024 1024 around.host
  let (start, host) := mnGettime endpt.host
  let (msgid, endpt) ← mcEndptUdpGet qsort (uriToOptions qsort around.env)
    { endpt with host := host } addr 0 uri none
  let (ntries, msg, endpt) ← recvLoop qsort around.arrivals 3 0 endpt
  let (stop, host) := mnGettime endpt.host
  return ⟨port, uri, addr, msgid, ntries, msg, stop - start, { endpt with host := host }⟩

/-- The loop of `get_uris`, with `left` URIs to go. -/
def getUris (arounds : Nat → Surroundings) (port : UInt16) (uris : List Arg) :
    Nat → Nat → Except Fault (List Fetch)
  | 0, _ => return []
  | left + 1, iuri => do
    let uri ← argAt uris iuri
    let fetch ← getUri qsort (arounds iuri) port uri
    let fetches ← getUris arounds port uris left (iuri + 1)
    return fetch :: fetches

/-- `main`; no value if only the usage is printed. -/
def main (overflow : Int → Int) (arounds : Nat → Surroundings) (argv : List Arg) :
    Except Fault (Option (List Fetch)) := do
  let (err, port) ← getport overflow argv.length argv mcDefaultPort.toUInt16
  let (argc, argv) ← packargs argv.length argv
  if err ≠ 0 ∨ argc < 1 then return none
  else
    let fetches ← getUris qsort arounds port argv argc 0
    return some fetches

end

/-! ## Section 2: The command line -/

/-- The arguments that are no -p and do not stand behind one. -/
def uriArgs : List Arg → List Arg
  | [] => []
  | [arg] => if arg = dashP then [] else [arg]
  | arg :: next :: args => if arg = dashP then uriArgs args else arg :: uriArgs (next :: args)

/-- What stands behind the first -p, if there is one; nothing, if it is the
    last argument. -/
def portArg : List Arg → Option (Option Arg)
  | [] => none
  | arg :: args => if arg = dashP then some args.head? else portArg args

/-- The code and the port of a command line. -/
def portGiven (overflow : Int → Int) (name : Arg) (args : List Arg) (port : UInt16) :
    Int × UInt16 :=
  match portArg args with
  | some (some text) =>
    (if UInt16.ofInt (atoi overflow text) = 0 then 1 else 0, UInt16.ofInt (atoi overflow text))
  | some none => (1, port)
  -- without arguments the name of the program is the last one
  | none => (if args = [] ∧ name = dashP then 1 else 0, port)

section

variable {argv args : List Arg} {arg name : Arg} {overflow : Int → Int}

theorem argAt_of_drop {iarg : Nat} {rest : List Arg} (h : argv.drop iarg = arg :: rest) :
    argAt argv iarg = .ok arg ∧ argv.drop (iarg + 1) = rest := by
  have hget : argv[iarg]? = some arg := by
    rw [← List.head?_drop, h]
    rfl
  constructor
  · rw [argAt, hget]
  · rw [← List.drop_drop, h]
    rfl

theorem uriArgs_dashP (args : List Arg) : uriArgs (dashP :: args) = uriArgs args.tail := by
  cases args with
  | nil => rfl
  | cons next args => exact if_pos rfl

theorem uriArgs_cons (h : arg ≠ dashP) (args : List Arg) :
    uriArgs (arg :: args) = arg :: uriArgs args := by
  cases args with
  | nil => exact if_neg h
  | cons next args => exact if_neg h

/-- The arguments in front of the gap are those that have been kept, and
    those behind it are as they were: what is written is never read again. -/
theorem packLoop_spec (fuel : Nat) {iarg idest : Nat} (hgap : idest < iarg) (hpos : 0 < fuel)
    (hfuel : argv.length < iarg + fuel) :
    ∃ argv', packLoop argv.length fuel iarg idest argv =
        .ok (idest + (uriArgs (argv.drop iarg)).length, argv') ∧
      argv'.take (idest + (uriArgs (argv.drop iarg)).length) =
        argv.take idest ++ uriArgs (argv.drop iarg) := by
  induction fuel generalizing iarg idest argv with
  | zero => exact absurd hpos (Nat.lt_irrefl 0)
  | succ fuel ih =>
    by_cases hlt : iarg < argv.length
    · obtain ⟨arg, rest, hdrop⟩ : ∃ arg rest, argv.drop iarg = arg :: rest :=
        ⟨_, _, List.drop_eq_getElem_cons hlt⟩
      obtain ⟨harg, hrest⟩ := argAt_of_drop hdrop
      simp only [packLoop, if_pos hlt]
      rw [harg, hdrop]
      show ∃ argv', (if arg = dashP then _ else _) = _ ∧ _
      by_cases hdash : arg = dashP
      · rw [if_pos hdash, hdash, uriArgs_dashP]
        have htail : rest.tail = argv.drop (iarg + 1 + 1) := by
          rw [← hrest, List.tail_drop]
        rw [htail]
        exact ih (by omega) (by omega) (by omega)
      · rw [if_neg hdash, uriArgs_cons hdash, ← hrest]
        have hset : setArg argv idest arg = .ok (argv.set idest arg) := if_pos (by omega)
        rw [hset]
        show ∃ argv', packLoop argv.length fuel (iarg + 1) (idest + 1) (argv.set idest arg) = _ ∧ _
        have hlen : (argv.set idest arg).length = argv.length := List.length_set
        have hbehind : (argv.set idest arg).drop (iarg + 1) = argv.drop (iarg + 1) :=
          List.drop_set_of_lt (by omega)
        have hfront : (argv.set idest arg).take (idest + 1) = argv.take idest ++ [arg] := by
          rw [List.take_add_one, List.take_set_of_le (Nat.le_refl idest),
            List.getElem?_set_self (by omega)]
          rfl
        obtain ⟨argv', hloop, htake⟩ := @ih (argv.set idest arg) (iarg + 1) (idest + 1)
          (by omega) (by omega) (by omega)
        rw [hlen, hbehind] at hloop
        rw [hbehind, hfront] at htake
        refine ⟨argv', ?_, ?_⟩
        · rw [hloop, List.length_cons, Nat.add_right_comm, Nat.add_assoc]
        · rw [List.length_cons, ← Nat.add_assoc, Nat.add_right_comm, htake, List.append_assoc]
          rfl
    · have hend : argv.drop iarg = [] := List.drop_eq_nil_of_le (Nat.not_lt.mp hlt)
      refine ⟨argv, ?_, ?_⟩
      · simp only [packLoop, if_neg hlt]
        rw [hend]
        rfl
      · rw [hend]
        exact (List.append_nil _).symm

/-- The name of the program is overwritten, and what is left of the others
    stands at the front. -/
theorem packargs_spec (name : Arg) (args : List Arg) :
    ∃ argv', packargs (name :: args).length (name :: args) = .ok ((uriArgs args).length, argv') ∧
      argv'.take (uriArgs args).length = uriArgs args := by
  obtain ⟨argv', hloop, htake⟩ := @packLoop_spec (name :: args) ((name :: args).length + 1) 1 0
    Nat.zero_lt_one (Nat.succ_pos _) (by omega)
  rw [List.drop_succ_cons, List.drop_zero, Nat.zero_add] at hloop htake
  exact ⟨argv', hloop, htake⟩

/-- The search stops at the first -p that is not the last argument. -/
theorem portLoop_spec (fuel : Nat) {iarg : Nat} (hpos : 0 < fuel)
    (hfuel : argv.length < iarg + fuel) :
    portLoop overflow argv.length argv fuel iarg = .ok ((portArg (argv.drop iarg)).bind fun found =>
      found.map fun text => (if UInt16.ofInt (atoi overflow text) = 0 then 1 else 0,
        UInt16.ofInt (atoi overflow text))) := by
  induction fuel generalizing iarg with
  | zero => exact absurd hpos (Nat.lt_irrefl 0)
  | succ fuel ih =>
    by_cases hlt : iarg + 1 < argv.length
    · obtain ⟨arg, rest, hdrop⟩ : ∃ arg rest, argv.drop iarg = arg :: rest :=
        ⟨_, _, List.drop_eq_getElem_cons (by omega)⟩
      obtain ⟨harg, hrest⟩ := argAt_of_drop hdrop
      obtain ⟨text, rest', hdrop'⟩ : ∃ text rest', argv.drop (iarg + 1) = text :: rest' :=
        ⟨_, _, List.drop_eq_getElem_cons hlt⟩
      obtain ⟨htext, _⟩ := argAt_of_drop hdrop'
      simp only [portLoop, if_pos hlt]
      rw [harg, hdrop]
      show (if arg = dashP then _ else _) = _
      by_cases hdash : arg = dashP
      · rw [if_pos hdash, htext, portArg, if_pos hdash, ← hrest, hdrop']
        rfl
      · rw [if_neg hdash, portArg, if_neg hdash, ← hrest]
        exact ih (by omega) (by omega)
    · simp only [portLoop, if_neg hlt]
      have hshort : (argv.drop iarg).length ≤ 1 := by
        rw [List.length_drop]
        omega
      cases hdrop : argv.drop iarg with
      | nil => rfl
      | cons arg rest =>
        have hnil : rest = [] := by
          rw [hdrop, List.length_cons] at hshort
          exact List.eq_nil_of_length_eq_zero (by omega)
        rw [hnil, portArg]
        split
        · rfl
        · rfl

/-- The last argument is a -p if the first one is it, or if there is none
    in front of it. -/
theorem portArg_last (args : List Arg) :
    (portArg args = some none → args.getLast? = some dashP) ∧
      (portArg args = none → args.getLast? ≠ some dashP) := by
  induction args with
  | nil => exact ⟨fun h => (nomatch h), fun _ h => (nomatch h)⟩
  | cons arg args ih =>
    unfold portArg
    by_cases hdash : arg = dashP
    · rw [if_pos hdash]
      refine ⟨fun h => ?_, fun h => (nomatch h)⟩
      cases args with
      | nil => rw [hdash]; rfl
      | cons next args => exact absurd h (by simp)
    · rw [if_neg hdash]
      cases args with
      | nil =>
        refine ⟨fun h => (nomatch h), fun _ hlast => hdash ?_⟩
        exact Option.some.inj hlast
      | cons next args =>
        rw [List.getLast?_cons_cons]
        exact ih

theorem getport_spec (overflow : Int → Int) (name : Arg) (args : List Arg) (port : UInt16) :
    getport overflow (name :: args).length (name :: args) port =
      .ok (portGiven overflow name args port) := by
  have hloop := @portLoop_spec (name :: args) overflow ((name :: args).length + 1) 1
    (Nat.succ_pos _) (by omega)
  rw [List.drop_succ_cons, List.drop_zero] at hloop
  have hlast : argAt (name :: args) ((name :: args).length - 1) =
      .ok ((args.getLast?).getD name) := by
    rw [argAt, ← List.getLast?_eq_getElem?, List.getLast?_cons]
  -- no port is found: the last argument is looked at
  have hrest : portLoop overflow (name :: args).length (name :: args)
      ((name :: args).length + 1) 1 = .ok none →
      getport overflow (name :: args).length (name :: args) port =
        .ok (if (args.getLast?).getD name = dashP then 1 else 0, port) := by
    intro hnone
    simp only [getport, hnone, hlast]
    rfl
  obtain ⟨htrailing, hfree⟩ := portArg_last args
  unfold portGiven
  cases hport : portArg args with
  | none =>
    rw [hport] at hloop
    rw [hrest hloop]
    cases args with
    | nil =>
      by_cases hname : name = dashP
      · simp [hname]
      · simp [hname]
    | cons next args =>
      have hne := hfree hport
      rw [List.getLast?_eq_some_getLast (List.cons_ne_nil next args)] at hne ⊢
      have hlast' : (next :: args).getLast (List.cons_ne_nil next args) ≠ dashP :=
        fun heq => hne (congrArg some heq)
      simp [hlast']
  | some found =>
    rw [hport] at hloop
    cases found with
    | some text =>
      simp only [getport, hloop]
      rfl
    | none =>
      rw [hrest hloop, htrailing hport]
      rfl

end

end Mcget

end Mcoap

import Mcoap.Lib.CString
import Mcoap.Host
import Mcoap.Message

/-! # URIs

    `mcoap/mc_uri.c`, and `mnet/mn_sockaddr.c` as far as it is used there:
    a URI and a destination address become an options list, and a URI an
    address.

    The parser moves one pointer over the string.  A pointer is the suffix
    it points to; moving it past the terminating zero is a fault, and so is
    a store behind the last slot of the option array.  Lengths are `size_t`
    until they are handed to `ms_copy_cstr`, which takes a `uint32_t`. -/

namespace Mcoap

open CString StableSort

/-! ## Section 1: Characters and constants -/

def colon        : UInt8 := 0x3a
def slash        : UInt8 := 0x2f
def question     : UInt8 := 0x3f
def ampersand    : UInt8 := 0x26
def openBracket  : UInt8 := 0x5b
def closeBracket : UInt8 := 0x5d

/-- "coap" -/
def schemeCoap : List UInt8 := [0x63, 0x6f, 0x61, 0x70]

/-- "coaps" -/
def schemeCoaps : List UInt8 := [0x63, 0x6f, 0x61, 0x70, 0x73]

/-- "*" -/
def anyHost : List UInt8 := [0x2a]

def optionUriHost  : UInt16 := 3
def optionUriPort  : UInt16 := 7
def optionUriPath  : UInt16 := 11
def optionUriQuery : UInt16 := 15

def mcDefaultPort : UInt32 := 5683

def afInet : UInt16 := 2

/-! ## Section 2: Addresses -/

/-- What a call takes from the system: the addresses of host names, the
    contents of its uninitialised socket address, what a comparison of the
    bytes behind two socket addresses finds, and `atoi` of a number no
    `int` can hold. -/
structure UriEnv where
  resolve  : List UInt8 → Option UInt32
  uriaddr  : SockAddr
  past     : Bool
  overflow : Int → Int

/-- Initialize an internet address structure.  Says whether it succeeded,
    and what the structure holds then; the wildcard leaves the family, and a
    name that has no address the address. -/
def mnSockaddrInetInit (resolve : List UInt8 → Option UInt32) (addr : SockAddr)
    (hostname : List UInt8) (port : UInt16) : Bool × SockAddr :=
  let addr := { addr with port := msSwapU16 port }
  if hostname ≠ anyHost then
    let addr := { addr with family := afInet }
    match resolve hostname with
    | none => (false, addr)
    | some inaddr => (true, { addr with addr := inaddr })
  else
    (true, { addr with addr := 0 })

/-- For another family than `AF_INET` twelve bytes more are compared than
    the structures have. -/
def equaladdr (past : Bool) (left : SockAddr) (right : Option SockAddr) : Bool :=
  match right with
  | none => false
  | some right =>
    if left.family ≠ right.family then false
    else if left.family = afInet then left = right
    else left = right && past

/-! ## Section 3: Moving through the string -/

/-- Allocate and copy an array of chars with null termination.  The size of
    the block is a `uint32_t`, and 0 for the largest count. -/
def msCopyCstr (count : UInt32) (data : List UInt8) : Except Fault (List UInt8) :=
  if count + 1 = 0 then .error .outOfBounds else .ok (data.take count.toNat)

/-- `str + n`. -/
def pointerAdd (str : List UInt8) (n : Nat) : Except Fault (List UInt8) :=
  if n ≤ str.length then .ok (str.drop n) else .error .outOfBounds

/-- A pointer offset by a word that str must start with, or 0 on error. -/
def advanceby : (str word : List UInt8) → Option (List UInt8)
  | spos, [] => some spos
  | [], _ :: _ => none
  | s :: spos, p :: ppos => if s ≠ p then none else advanceby spos ppos

/-- Advance to next character in chars, if *not* found advances to
    end-of-string; also if str stands on such a character already. -/
def advanceto (str chars : List UInt8) : List UInt8 :=
  let nbytes := strcspn str chars
  let nbytes := if nbytes = 0 then str.length else nbytes
  str.drop nbytes

/-! ## Section 4: The parts of a URI -/

/-- Extract the scheme from the URI. -/
def getscheme (uri : List UInt8) : Except Fault (Option (List UInt8)) := do
  if colon ∈ uri then
    let scheme ← msCopyCstr (UInt32.ofNat (strcspn uri [colon])) uri
    return some scheme
  else
    return none

def validscheme (scheme : Option (List UInt8)) : Bool :=
  scheme = some schemeCoap || scheme = some schemeCoaps

/-- Get an IP v6 host by extracting anything between []'s. -/
def getip6host (uri : List UInt8) : Except Fault (Option (List UInt8)) := do
  match advanceby uri [openBracket] with
  | none => .error .nullDeref
  | some current =>
    let nchar := strcspn current [closeBracket]
    if nchar = 0 then return none
    else if (current.drop nchar).head? ≠ some closeBracket then return none
    else
      let host ← msCopyCstr (UInt32.ofNat nchar) current
      return some host

/-- Get any characters from start of URI to next : or /. -/
def gethost (uri : List UInt8) : Except Fault (Option (List UInt8)) := do
  let host ← msCopyCstr (UInt32.ofNat (strcspn uri [colon, slash])) uri
  return some host

/-- Get host address from URI, IP v6 is a special case. -/
def getaddress (uri : List UInt8) : Except Fault (Option (List UInt8)) :=
  if uri.head? = some openBracket then getip6host uri else gethost uri

/-- Get port from URI. -/
def getport (overflow : Int → Int) (uri : List UInt8) : Except Fault UInt32 := do
  if uri.head? ≠ some colon then return mcDefaultPort
  else
    match advanceby uri [colon] with
    | none => .error .nullDeref
    | some current =>
      let portstr ← msCopyCstr (UInt32.ofNat (strcspn current [slash])) current
      let port := UInt32.ofInt (atoi overflow portstr)
      return if port = 0 then mcDefaultPort else port

/-- Estimate the number of path and query options needed by counting /, ?,
    and & characters. -/
def estimatenopts (str : List UInt8) : UInt32 :=
  UInt32.ofNat (str.countP (· ∈ [slash, question, ampersand]))

/-- Get next component.  It must begin with a character of `first` and goes
    up until the next one of `last` or end of line. -/
def getcomponent (first last : List UInt8) :
    List UInt8 → Except Fault (Option (List UInt8))
  | [] => return none
  | c :: current => do
    if c ∉ first then return none
    else
      let component ← msCopyCstr (UInt32.ofNat (strcspn current last)) current
      return some component

def getpath : List UInt8 → Except Fault (Option (List UInt8)) :=
  getcomponent [slash] [slash, question]

def getquery : List UInt8 → Except Fault (Option (List UInt8)) :=
  getcomponent [question, ampersand] [ampersand]

/-! ## Section 5: The options -/

/-- Initialize the next of the `nopts` options that were allocated. -/
def putOption (nopts : UInt32) (options : List McOption) (option : McOption) :
    Except Fault (List McOption) :=
  if options.length < nopts.toNat then .ok (options ++ [option]) else .error .outOfBounds

/-- The two loops of `mc_uri_to_options`: one option for each component.
    An iteration moves the pointer forward, so the length of the string is
    fuel enough. -/
def componentsLoop (get : List UInt8 → Except Fault (Option (List UInt8))) (optionNum : UInt16)
    (chars : List UInt8) (nopts : UInt32) :
    Nat → List McOption → List UInt8 → Except Fault (List McOption × List UInt8)
  | 0, _, _ => .error .endless
  | fuel + 1, options, current => do
    let component ← get current
    match component with
    | none => return (options, current)
    | some component =>
      let options ← putOption nopts options (mcOptionInitStr optionNum component)
      let current ← pointerAdd current 1
      componentsLoop get optionNum chars nopts fuel options (advanceto current chars)

def pathsLoop (nopts : UInt32) (options : List McOption) (current : List UInt8) :
    Except Fault (List McOption × List UInt8) :=
  componentsLoop getpath optionUriPath [slash, question] nopts (current.length + 1) options current

def queriesLoop (nopts : UInt32) (options : List McOption) (current : List UInt8) :
    Except Fault (List McOption × List UInt8) :=
  componentsLoop getquery optionUriQuery [ampersand] nopts (current.length + 1) options current

/-- The host a pointer stands on, and the pointer behind it. -/
def hostAt (current : List UInt8) : Except Fault (Option (List UInt8 × List UInt8)) := do
  let host ← getaddress current
  match host with
  | none => return none
  | some host =>
    if host.length = 0 then return none
    else
      -- check and compensate for IP v6 []'s if needed
      let current ←
        if current.head? = some openBracket then pointerAdd current 2 else .ok current
      let current ← pointerAdd current host.length
      return some (host, current)

/-- The first half of `mc_uri_to_options`: scheme and host. -/
def uriHost (uri : List UInt8) : Except Fault (Option (List UInt8 × List UInt8)) := do
  let scheme ← getscheme uri
  if validscheme scheme then
    match advanceby (advanceto uri [colon]) [colon, slash, slash] with
    | none => return none
    | some current => hostAt current
  else
    return none

/-- The options of the path and of the query. -/
def uriComponents (nopts : UInt32) (options : List McOption) (current : List UInt8) :
    Except Fault (List McOption) := do
  let (options, current) ← pathsLoop nopts options current
  let (options, _) ← queriesLoop nopts options current
  return options

/-- The second half: the option array, from the pointer behind the host. -/
def uriOptions (env : UriEnv) (dest : Option SockAddr) (host current : List UInt8) :
    Except Fault (List McOption) := do
  let port ← getport env.overflow current
  let current := advanceto current [slash, question]
  let nopts := estimatenopts current
  let (_, uriaddr) := mnSockaddrInetInit env.resolve env.uriaddr host port.toUInt16
  if equaladdr env.past uriaddr dest then
    -- the destination is what the URI names: host and port are elided
    uriComponents nopts [] current
  else
    let nopts := nopts + 2
    let options ← putOption nopts [] (mcOptionInitStr optionUriHost host)
    let options ← putOption nopts options (mcOptionInitUint32 optionUriPort port)
    uriComponents nopts options current

/-- The options before they are sorted; `none` is a URI that is rejected. -/
def uriArray (env : UriEnv) (dest : Option SockAddr) (uri : List UInt8) :
    Except Fault (Option (List McOption)) := do
  let found ← uriHost (cstring uri)
  match found with
  | none => return none
  | some (host, current) =>
    let options ← uriOptions env dest host current
    return some options

/-- Parse host, port, path, and query components from uri. -/
def mcUriToOptions (qsort : Qsort McOption) (env : UriEnv) (dest : Option SockAddr)
    (uri : List UInt8) : Except Fault (Option McOptionsList) := do
  let options ← uriArray env dest uri
  return options.map (mcOptionsListInit qsort)

/-! ## Section 6: The address -/

/-- Initialize a socket address from a coap URI.  Says whether it succeeded,
    and what the structure holds then.  The scheme is skipped, whatever it
    is. -/
def mcUriToAddress (env : UriEnv) (addr : SockAddr) (uri : List UInt8) :
    Except Fault (Bool × SockAddr) := do
  match advanceby (advanceto (cstring uri) [colon]) [colon, slash, slash] with
  | none => return (false, addr)
  | some current =>
    let found ← hostAt current
    match found with
    | none => return (false, addr)
    | some (host, current) =>
      let port ← getport env.overflow current
      if port = 0 then return (false, addr)
      else return mnSockaddrInetInit env.resolve addr host port.toUInt16

end Mcoap

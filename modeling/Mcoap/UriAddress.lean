import Mcoap.UriPort

/-! # The address a URI names

    `mc_uri_to_address` against the elision of host and port in
    `mc_uri_to_options`, for a host that the resolver has an address for.

    Both parsers come to the same family, port and address.  But all sixteen
    bytes of the two structures are compared, and the last eight are written
    by neither parser.  So what is elided depends on what these eight were
    before, in the caller's structure and in the local one.

    * `NamedBy`: an address is the URI's own, but for those eight bytes;
    * `showsAuthority_iff`: when a list has host and port options;
    * `own_address_elided_iff`: when they are elided for the URI's own
      address, and when the other bytes of an address make a difference. -/

namespace Mcoap

open CString StableSort

/-! ## Section 1: Addresses that are initialized -/

/-- For a host with an address everything but the last eight bytes is
    written. -/
theorem mnSockaddrInetInit_resolved {resolve : List UInt8 → Option UInt32} {host : List UInt8}
    {inaddr : UInt32} (addr : SockAddr) (port : UInt16) (hlooked : host ≠ anyHost)
    (haddr : resolve host = some inaddr) :
    mnSockaddrInetInit resolve addr host port =
      (true, ⟨afInet, msSwapU16 port, inaddr, addr.zero⟩) := by
  rw [mnSockaddrInetInit, if_pos hlooked, haddr]

/-- An internet address is compared as a whole. -/
theorem equaladdr_inet {past : Bool} {left right : SockAddr} (hfamily : left.family = afInet) :
    equaladdr past left (some right) = true ↔ left = right := by
  rw [equaladdr]
  by_cases hsame : left.family = right.family
  · rw [if_neg (not_not_intro hsame), if_pos hfamily, decide_eq_true_iff]
  · rw [if_pos hsame]
    constructor
    · exact fun h => absurd h Bool.false_ne_true
    · exact fun h => absurd (congrArg SockAddr.family h) hsame

theorem getport_ne_zero {overflow : Int → Int} {current : List UInt8} {port : UInt32}
    (h : getport overflow current = .ok port) : port ≠ 0 := by
  have hdefault : mcDefaultPort ≠ 0 := by decide
  rw [getport] at h
  split at h
  · cases h
    exact hdefault
  · split at h
    · cases h
    · rw [bind_eq_ok] at h
      obtain ⟨portstr, _, h⟩ := h
      cases h
      split
      · exact hdefault
      · assumption

/-- A host behind a scheme that `mc_uri_to_options` accepts is found by
    `mc_uri_to_address` as well. -/
theorem mcUriToAddress_found {env : UriEnv} {addr : SockAddr} {uri host current : List UInt8}
    {result : Bool × SockAddr} (hfound : uriHost (cstring uri) = .ok (some (host, current)))
    (h : mcUriToAddress env addr uri = .ok result) :
    ∃ port, getport env.overflow current = .ok port ∧
      result = mnSockaddrInetInit env.resolve addr host port.toUInt16 := by
  rw [uriHost, bind_eq_ok] at hfound
  obtain ⟨scheme, _, hfound⟩ := hfound
  split at hfound
  · rw [mcUriToAddress] at h
    cases hauthority : advanceby (advanceto (cstring uri) [colon]) [colon, slash, slash] with
    | none =>
      rw [hauthority] at hfound
      cases hfound
    | some authority =>
      rw [hauthority] at hfound h
      rw [bind_eq_ok] at h
      obtain ⟨found, hat, h⟩ := h
      cases hfound.symm.trans hat
      rw [bind_eq_ok] at h
      obtain ⟨port, hport, h⟩ := h
      rw [if_neg (getport_ne_zero hport)] at h
      cases h
      exact ⟨port, hport, rfl⟩
  · cases hfound

/-! ## Section 2: The URI's own address -/

/-- The host of the URI is looked up, and has an address. -/
def Resolved (env : UriEnv) (uri : List UInt8) : Prop :=
  ∀ host current, uriHost (cstring uri) = .ok (some (host, current)) →
    host ≠ anyHost ∧ ∃ inaddr, env.resolve host = some inaddr

/-- The address is what the URI names, whatever its last eight bytes are. -/
def NamedBy (env : UriEnv) (uri : List UInt8) (dest : SockAddr) : Prop :=
  ∃ host current port, uriHost (cstring uri) = .ok (some (host, current)) ∧
    getport env.overflow current = .ok port ∧ dest.family = afInet ∧
    dest.port = msSwapU16 port.toUInt16 ∧ env.resolve host = some dest.addr

/-- Two addresses that differ in the last eight bytes at most. -/
structure SameAddr (dest dest' : SockAddr) : Prop where
  family : dest.family = dest'.family
  port   : dest.port = dest'.port
  addr   : dest.addr = dest'.addr

/-- The list has an option for the host or for the port. -/
def ShowsAuthority (list : McOptionsList) : Prop :=
  ∃ o ∈ list.options, o.optionNum = optionUriHost ∨ o.optionNum = optionUriPort

theorem NamedBy.congr {env : UriEnv} {uri : List UInt8} {dest dest' : SockAddr}
    (hsame : SameAddr dest dest') : NamedBy env uri dest ↔ NamedBy env uri dest' := by
  rw [NamedBy, NamedBy, hsame.family, hsame.port, hsame.addr]

section

variable {qsort : Qsort McOption} {env : UriEnv} {uri : List UInt8} {list : McOptionsList}

/-- The address is the URI's own, and keeps the bytes nobody writes. -/
theorem mcUriToAddress_namedBy (hresolved : Resolved env uri) {addr own : SockAddr}
    {host current : List UInt8} (hfound : uriHost (cstring uri) = .ok (some (host, current)))
    (h : mcUriToAddress env addr uri = .ok (true, own)) :
    NamedBy env uri own ∧ own.zero = addr.zero := by
  obtain ⟨hlooked, inaddr, haddr⟩ := hresolved host current hfound
  obtain ⟨port, hport, hinit⟩ := mcUriToAddress_found hfound h
  rw [mnSockaddrInetInit_resolved addr _ hlooked haddr] at hinit
  cases hinit
  exact ⟨⟨host, current, port, hfound, hport, rfl, rfl, haddr⟩, rfl⟩

/-- Host and port are elided for the URI's own address, if the unwritten
    bytes agree as well. -/
theorem showsAuthority_iff (hresolved : Resolved env uri) {dest : SockAddr}
    (h : mcUriToOptions qsort env (some dest) uri = .ok (some list)) :
    ShowsAuthority list ↔ ¬ (NamedBy env uri dest ∧ dest.zero = env.uriaddr.zero) := by
  obtain ⟨host, current, options, hfound, hoptions, rfl⟩ := mcUriToOptions_ok h
  obtain ⟨hlooked, inaddr, haddr⟩ := hresolved host current hfound
  obtain ⟨port, more, hport, rfl, hnum, _, _⟩ := uriOptions_authority hoptions
  rw [mnSockaddrInetInit_resolved _ _ hlooked haddr]
  have hequal : equaladdr env.past ⟨afInet, msSwapU16 port.toUInt16, inaddr, env.uriaddr.zero⟩
      (some dest) = true ↔ NamedBy env uri dest ∧ dest.zero = env.uriaddr.zero := by
    rw [equaladdr_inet rfl]
    constructor
    · rintro rfl
      exact ⟨⟨host, current, port, hfound, hport, rfl, rfl, haddr⟩, rfl⟩
    · rintro ⟨⟨host', current', port', hfound', hport', hfamily, hportField, haddr'⟩, hzero⟩
      rw [hfound] at hfound'
      cases hfound'
      rw [hport] at hport'
      cases hport'
      rw [haddr] at haddr'
      cases haddr'
      rw [← hfamily, ← hportField, ← hzero]
  rw [← hequal]
  by_cases helided : equaladdr env.past ⟨afInet, msSwapU16 port.toUInt16, inaddr,
      env.uriaddr.zero⟩ (some dest) = true
  · rw [if_pos helided, List.nil_append]
    constructor
    · rintro ⟨o, ho, hshown⟩
      -- only path and query are left
      have ho : o ∈ more := (qsort.perm compareOptions more).mem_iff.mp ho
      rcases hnum o ho with hn | hn <;> rw [hn] at hshown <;> exact absurd hshown (by decide)
    · exact fun hnot => absurd helided hnot
  · rw [if_neg helided]
    constructor
    · exact fun _ => helided
    · intro _
      exact ⟨mcOptionInitStr optionUriHost host,
        (qsort.perm compareOptions _).mem_iff.mpr List.mem_cons_self, Or.inl rfl⟩

end

/-! ## Section 3: The bytes nobody writes -/

/-- Host and port are elided for the URI's own address exactly when the
    unwritten bytes of the two structures agree; and an address that differs
    from another one only there is treated like it, in two calls with any
    local structures, exactly when both agree or neither does. -/
theorem own_address_elided_iff (qsort : Qsort McOption) (env : UriEnv) (uri : List UInt8)
    (hresolved : Resolved env uri) :
    (∀ addr own list, mcUriToAddress env addr uri = .ok (true, own) →
      mcUriToOptions qsort env (some own) uri = .ok (some list) →
        (¬ ShowsAuthority list ↔ addr.zero = env.uriaddr.zero)) ∧
    (∀ uriaddr uriaddr' dest dest' list list', SameAddr dest dest' →
      mcUriToOptions qsort { env with uriaddr := uriaddr } (some dest) uri = .ok (some list) →
      mcUriToOptions qsort { env with uriaddr := uriaddr' } (some dest') uri =
        .ok (some list') →
        ((ShowsAuthority list ↔ ShowsAuthority list') ↔
          (NamedBy env uri dest → (dest.zero = uriaddr.zero ↔ dest'.zero = uriaddr'.zero)))) := by
  constructor
  · intro addr own list hown hlist
    obtain ⟨host, current, _, hfound, _⟩ := mcUriToOptions_ok hlist
    obtain ⟨hnamed, hzero⟩ := mcUriToAddress_namedBy hresolved hfound hown
    rw [showsAuthority_iff hresolved hlist, not_not, hzero]
    exact and_iff_right hnamed
  · intro uriaddr uriaddr' dest dest' list list' hsame hlist hlist'
    -- neither the host's address nor the port depends on the local structure
    have hnamed : ∀ local', NamedBy { env with uriaddr := local' } uri dest ↔
        NamedBy env uri dest := fun _ => Iff.rfl
    have hresolved1 : Resolved { env with uriaddr := uriaddr } uri := hresolved
    have hresolved2 : Resolved { env with uriaddr := uriaddr' } uri := hresolved
    rw [showsAuthority_iff hresolved1 hlist, showsAuthority_iff hresolved2 hlist',
      ← NamedBy.congr hsame, hnamed, hnamed, not_iff_not]
    exact and_congr_right_iff

/-- "coap://h", where h is 127.0.0.1. -/
def localUri : List UInt8 := schemeCoap ++ [colon, slash, slash, 0x68]

def localEnv : UriEnv := ⟨fun _ => some 0x0100007f, ⟨0, 0, 0, 0⟩, false, id⟩

/-- The address of the URI, with its last eight bytes. -/
def localAddr (zero : UInt64) : SockAddr := ⟨afInet, msSwapU16 5683, 0x0100007f, zero⟩

theorem localUri_found : uriHost (cstring localUri) = .ok (some ([0x68], [])) := by decide

theorem localUri_resolved : Resolved localEnv localUri := by
  intro host current hfound
  rw [localUri_found] at hfound
  cases hfound
  exact ⟨by decide, _, rfl⟩

theorem localUri_address (zero : UInt64) :
    mcUriToAddress localEnv ⟨0, 0, 0, zero⟩ localUri = .ok (true, localAddr zero) := rfl

/-- Left-over bytes in the caller's structure: the URI's own address is
    shown, and one that differs only there is not. -/
theorem own_address_shown :
    Resolved localEnv localUri ∧ ∃ list list',
      mcUriToAddress localEnv ⟨0, 0, 0, 1⟩ localUri = .ok (true, localAddr 1) ∧
      mcUriToOptions (insertion McOption) localEnv (some (localAddr 1)) localUri =
        .ok (some list) ∧ ShowsAuthority list ∧
      SameAddr (localAddr 1) (localAddr 0) ∧
      mcUriToOptions (insertion McOption) localEnv (some (localAddr 0)) localUri =
        .ok (some list') ∧ ¬ ShowsAuthority list' := by
  refine ⟨localUri_resolved, _, _, localUri_address 1, rfl, ?_, ⟨rfl, rfl, rfl⟩, rfl, ?_⟩
  · exact ⟨_, List.mem_cons_self, Or.inl rfl⟩
  · rintro ⟨o, ho, _⟩
    exact absurd ho List.not_mem_nil

/-- The witness: the same addresses. -/
theorem own_address_elided_iff_local :
    ∃ list list',
      mcUriToOptions (insertion McOption) localEnv (some (localAddr 1)) localUri =
        .ok (some list) ∧ ¬ ¬ ShowsAuthority list ∧
      mcUriToOptions (insertion McOption) localEnv (some (localAddr 0)) localUri =
        .ok (some list') ∧ ¬ (ShowsAuthority list ↔ ShowsAuthority list') := by
  obtain ⟨hown, hother⟩ :=
    own_address_elided_iff (insertion McOption) localEnv localUri localUri_resolved
  have hnamed := (mcUriToAddress_namedBy localUri_resolved localUri_found (localUri_address 1)).1
  refine ⟨_, _, rfl, ?_, rfl, ?_⟩
  · intro helided
    have hzero := (hown _ _ _ (localUri_address 1) rfl).mp helided
    exact absurd hzero (by decide)
  · intro hiff
    have hzero := (hother ⟨0, 0, 0, 0⟩ ⟨0, 0, 0, 0⟩ (localAddr 1) (localAddr 0) _ _
      ⟨rfl, rfl, rfl⟩ rfl rfl).mp hiff hnamed
    exact absurd (hzero.mpr rfl) (by decide)

end Mcoap

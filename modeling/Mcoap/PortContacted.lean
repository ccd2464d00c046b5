import Mcoap.UriAddress
import Mcoap.OptionNumbers

/-! # The port that is sent

    The Uri-Port option that `mc_uri_to_options` makes of a URI against the
    port that `mc_uri_to_address` puts into the socket address.

    Both take the same number from the same text.  The option has room for
    all 32 bits of it; the socket address has 16.

    * `portText`: the text the number is read from;
    * `PortSent`: the option reads as the port that is contacted;
    * `port_sent_iff`: it does exactly when the number fits. -/

namespace Mcoap

open CString StableSort Blocks

/-! ## Section 1: The two ports -/

/-- The text of the port behind the host, if there is one. -/
def portText (current : List UInt8) : Option (List UInt8) :=
  match current with
  | [] => none
  | c :: current =>
    if c = colon then some (current.take (UInt32.ofNat (strcspn current [slash])).toNat) else none

/-- The number of the port is one of 16 bits; 0 selects the default port. -/
def PortFits (env : UriEnv) (uri : List UInt8) : Prop :=
  ∀ host current text, uriHost (cstring uri) = .ok (some (host, current)) →
    portText current = some text → atoi env.overflow text % 2 ^ 32 ≤ 65535

/-- The option in the cell reads as the port of the address in host order,
    and that is a port. -/
def PortSent (own : SockAddr) (mem : Memory) (cell : OptionCell) : Prop :=
  ∃ v, mem.mcOptionAsUint32 (some cell) = .ok v ∧ v = (msSwapU16 own.port).toUInt32 ∧
    1 ≤ v ∧ v ≤ 65535

theorem msCopyCstr_ok {count : UInt32} {data text : List UInt8}
    (h : msCopyCstr count data = .ok text) : text = data.take count.toNat := by
  unfold msCopyCstr at h
  split at h
  · cases h
  · cases h
    rfl

section

variable {overflow : Int → Int} {current text : List UInt8} {port : UInt32}

theorem getport_default (h : getport overflow current = .ok port)
    (hnone : portText current = none) : port = mcDefaultPort := by
  have hhead : current.head? ≠ some colon := by
    cases current with
    | nil => exact fun hc => by cases hc
    | cons c current =>
      intro hc
      cases hc
      rw [portText, if_pos rfl] at hnone
      cases hnone
  rw [getport, if_pos hhead] at h
  cases h
  rfl

theorem getport_number (h : getport overflow current = .ok port)
    (htext : portText current = some text) :
    port = if UInt32.ofInt (atoi overflow text) = 0 then mcDefaultPort
      else UInt32.ofInt (atoi overflow text) := by
  cases current with
  | nil => cases htext
  | cons c current =>
    by_cases hcolon : c = colon
    · subst hcolon
      rw [portText, if_pos rfl] at htext
      cases htext
      have hhead : ¬ (colon :: current).head? ≠ some colon := fun hc => hc rfl
      have hbehind : advanceby (colon :: current) [colon] = some current := by simp [advanceby]
      rw [getport, if_neg hhead, hbehind] at h
      simp only [bind_eq_ok] at h
      obtain ⟨copied, hcopy, h⟩ := h
      rw [← msCopyCstr_ok hcopy]
      cases h
      rfl
    · rw [portText, if_neg hcolon] at htext
      cases htext

theorem ofInt_le_iff (n : Int) : UInt32.ofInt n ≤ 65535 ↔ n % 2 ^ 32 ≤ 65535 := by
  have h65535 : (65535 : UInt32).toNat = 65535 := rfl
  rw [UInt32.le_iff_toNat_le, h65535, UInt32.ofInt, ofNat32_toNat (by omega)]
  omega

/-- 0 is replaced by a port that fits. -/
theorem getport_le_iff (h : getport overflow current = .ok port) :
    port ≤ 65535 ↔
      ∀ text, portText current = some text → atoi overflow text % 2 ^ 32 ≤ 65535 := by
  have hdefault : mcDefaultPort ≤ 65535 := by decide
  cases htext : portText current with
  | none =>
    rw [getport_default h htext]
    exact iff_of_true hdefault fun _ hnone => by cases hnone
  | some text =>
    have hread : port ≤ 65535 ↔ UInt32.ofInt (atoi overflow text) ≤ 65535 := by
      rw [getport_number h htext]
      split
      · next hzero =>
        rw [hzero]
        exact iff_of_true hdefault (by decide)
      · exact Iff.rfl
    rw [hread, ofInt_le_iff]
    constructor
    · rintro hle text' hsame
      cases hsame
      exact hle
    · exact fun hall => hall text rfl

end

/-- The address gets the low 16 bits, whatever the host is. -/
theorem mnSockaddrInetInit_port (resolve : List UInt8 → Option UInt32) (addr : SockAddr)
    (host : List UInt8) (port : UInt16) :
    (mnSockaddrInetInit resolve addr host port).2.port = msSwapU16 port := by
  rw [mnSockaddrInetInit]
  split
  · cases resolve host with
    | none => rfl
    | some inaddr => rfl
  · rfl

theorem truncated_eq_iff (port : UInt32) : port = port.toUInt16.toUInt32 ↔ port ≤ 65535 := by
  have h65535 : (65535 : UInt32).toNat = 65535 := rfl
  rw [← UInt32.toNat_inj, UInt16.toNat_toUInt32, UInt32.toNat_toUInt16, UInt32.le_iff_toNat_le,
    h65535]
  omega

theorem mcOptionInitUint32_uint (optionNum : UInt16) (value : UInt32) :
    (mcOptionInitUint32 optionNum value).wire = ⟨optionNum.toNat, uintValue value⟩ := by
  unfold mcOptionInitUint32 uintValue
  split
  · exact McOption.wire_init _ rfl
  · split
    · exact McOption.wire_init _ rfl
    · exact McOption.wire_init _ rfl

/-- The option with the number of a URI's port. -/
theorem portOption_eq {qsort : Qsort McOption} {env : UriEnv} {dest : Option SockAddr}
    {uri : List UInt8} {list : McOptionsList} {o : McOption}
    (h : mcUriToOptions qsort env dest uri = .ok (some list)) (ho : o ∈ list.options)
    (hnum : o.optionNum = optionUriPort) :
    ∃ host current port, uriHost (cstring uri) = .ok (some (host, current)) ∧
      getport env.overflow current = .ok port ∧ o = mcOptionInitUint32 optionUriPort port := by
  obtain ⟨host, current, options, hfound, hoptions, rfl⟩ := mcUriToOptions_ok h
  obtain ⟨port, more, hport, rfl, hmore, _, _⟩ := uriOptions_authority hoptions
  refine ⟨host, current, port, hfound, hport, ?_⟩
  have ho := (qsort.perm compareOptions _).mem_iff.mp ho
  rcases List.mem_append.mp ho with ho | ho
  · split at ho
    · exact absurd ho List.not_mem_nil
    · rcases List.mem_cons.mp ho with rfl | ho
      · have hhost : optionUriHost = optionUriPort := hnum
        exact absurd hhost (by decide)
      · exact List.mem_singleton.mp ho
  · rcases hmore o ho with hpath | hquery
    · exact absurd (hpath.symm.trans hnum) (by decide)
    · exact absurd (hquery.symm.trans hnum) (by decide)

/-! ## Section 2: Where they are the same -/

/-- The Uri-Port option of a URI reads as the port of the address, and that
    is a port, exactly when the number in the URI fits. -/
theorem port_sent_iff (qsort : Qsort McOption) (env : UriEnv) (addr own : SockAddr)
    (dest : Option SockAddr) (uri : List UInt8) (list : McOptionsList)
    (hown : mcUriToAddress env addr uri = .ok (true, own))
    (hlist : mcUriToOptions qsort env dest uri = .ok (some list)) (o : McOption)
    (ho : o ∈ list.options) (hnum : o.optionNum = optionUriPort) :
    (∀ mem cell, OptionAt mem cell o.wire → PortSent own mem cell) ↔ PortFits env uri := by
  obtain ⟨host, current, port, hfound, hport, rfl⟩ := portOption_eq hlist ho hnum
  obtain ⟨port', hport', haddr⟩ := mcUriToAddress_found hfound hown
  cases hport.symm.trans hport'
  have hfits : port ≤ 65535 ↔ PortFits env uri := by
    rw [getport_le_iff hport]
    constructor
    · intro hall host' current' text hfound' htext
      cases hfound.symm.trans hfound'
      exact hall text htext
    · exact fun hfits text htext => hfits host current text hfound htext
  have hsocket : (msSwapU16 own.port).toUInt32 = port.toUInt16.toUInt32 := by
    have hinit := mnSockaddrInetInit_port env.resolve addr host port.toUInt16
    rw [← haddr] at hinit
    rw [hinit, msSwapU16_swap]
  have hread : ∀ mem cell, OptionAt mem cell (mcOptionInitUint32 optionUriPort port).wire →
      mem.mcOptionAsUint32 (some cell) = .ok port := by
    intro mem cell hat
    rw [mcOptionInitUint32_uint] at hat
    exact asUint32_uintValue hat
  rw [← hfits]
  constructor
  · intro hall
    -- there is a memory with this option
    have hnull : Freeable ⟨Store.empty, false⟩ ⟨0, 0, none⟩ := fun p hp => by cases hp
    obtain ⟨cell, mem, _, hat⟩ := initUint32_at hnull optionUriPort port
    rw [← mcOptionInitUint32_uint] at hat
    obtain ⟨v, hv, heq, _⟩ := hall mem cell hat
    cases (hread mem cell hat).symm.trans hv
    rw [hsocket] at heq
    exact (truncated_eq_iff port).mp heq
  · intro hle mem cell hat
    refine ⟨port, hread mem cell hat, ?_, ?_, hle⟩
    · rw [hsocket]
      exact (truncated_eq_iff port).mpr hle
    · have hne := getport_ne_zero hport
      rw [UInt32.le_iff_toNat_le, UInt32.toNat_one]
      have hpos : port.toNat ≠ 0 := fun hzero => hne (UInt32.toNat_inj.mp hzero)
      omega

/-- "coap://h:65616" and "coap://h:61616". -/
def wideUri : List UInt8 := localUri ++ [colon, 0x36, 0x35, 0x36, 0x31, 0x36]

def narrowUri : List UInt8 := localUri ++ [colon, 0x36, 0x31, 0x36, 0x31, 0x36]

/-- Host and port of such a URI. -/
def portList (port : UInt32) : McOptionsList :=
  ⟨[mcOptionInitStr optionUriHost [0x68], mcOptionInitUint32 optionUriPort port]⟩

theorem portList_port (port : UInt32) :
    mcOptionInitUint32 optionUriPort port ∈ (portList port).options :=
  List.mem_cons_of_mem _ (List.mem_singleton.mpr rfl)

/-- Port 80 is contacted, and 65616 is sent. -/
theorem port_not_sent :
    ∃ own, mcUriToAddress localEnv ⟨0, 0, 0, 0⟩ wideUri = .ok (true, own) ∧
      own.port = msSwapU16 80 ∧
      mcUriToOptions (insertion McOption) localEnv none wideUri = .ok (some (portList 65616)) ∧
      OptionAt (bytesMemory (uintValue 65616)) ⟨7, 4, some 0⟩
        (mcOptionInitUint32 optionUriPort 65616).wire ∧
      ¬ PortSent own (bytesMemory (uintValue 65616)) ⟨7, 4, some 0⟩ := by
  refine ⟨⟨afInet, msSwapU16 80, 0x0100007f, 0⟩, rfl, rfl, rfl, ?_, ?_⟩
  · rw [mcOptionInitUint32_uint]
    exact bytesMemory_at 7 4 rfl
  · rintro ⟨v, hv, heq, _⟩
    have hread : OptionAt (bytesMemory (uintValue 65616)) ⟨7, 4, some 0⟩ ⟨7, uintValue 65616⟩ :=
      bytesMemory_at 7 4 rfl
    cases (asUint32_uintValue hread).symm.trans hv
    exact absurd heq (by decide)

/-- The witness: a port that fits. -/
theorem port_sent_iff_narrow :
    PortSent ⟨afInet, msSwapU16 61616, 0x0100007f, 0⟩ (bytesMemory (uintValue 61616))
      ⟨7, 2, some 0⟩ := by
  have hfits : PortFits localEnv narrowUri := by
    intro host current text hfound htext
    have hnarrow : uriHost (cstring narrowUri) =
        .ok (some ([0x68], [colon, 0x36, 0x31, 0x36, 0x31, 0x36])) := by decide
    cases hnarrow.symm.trans hfound
    cases htext
    decide
  have hsent := (port_sent_iff (insertion McOption) localEnv ⟨0, 0, 0, 0⟩
    ⟨afInet, msSwapU16 61616, 0x0100007f, 0⟩ none narrowUri (portList 61616) rfl rfl
    (mcOptionInitUint32 optionUriPort 61616) (portList_port 61616) (mcOptionInitUint32_num _ _)).mpr hfits
  apply hsent
  rw [mcOptionInitUint32_uint]
  exact bytesMemory_at 7 2 rfl

end Mcoap

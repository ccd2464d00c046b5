import Mcoap.UriParts

/-! # An omitted port

    A URI without a port against the same URI with the default port.

    `advanceto` jumps to the end of the string when the pointer stands on a
    delimiter already.  Behind a host without a port it does, so the path
    and the query are lost: `default_port_iff` says that the two URIs give
    the same list exactly when there is nothing to lose. -/

namespace Mcoap

open CString StableSort

/-! ## Section 1: What the loops append -/

theorem putOption_ok {nopts : UInt32} {options options' : List McOption} {option : McOption}
    (h : putOption nopts options option = .ok options') : options' = options ++ [option] := by
  unfold putOption at h
  split at h
  · cases h
    rfl
  · cases h

/-- A loop appends options of its number, and at least one if it starts on a
    delimiter. -/
theorem componentsLoop_appends {first last current current' : List UInt8} {optionNum : UInt16}
    {nopts : UInt32} {fuel : Nat} {options options' : List McOption}
    (h : componentsLoop (getcomponent first last) optionNum last nopts fuel options current =
      .ok (options', current')) :
    ∃ more, options' = options ++ more ∧ (∀ o ∈ more, o.optionNum = optionNum) ∧
      ((∃ c ∈ current.head?, c ∈ first) → more ≠ []) ∧
      ((∀ c ∈ current.head?, c ∉ first) → more = [] ∧ current' = current) := by
  induction fuel generalizing options current with
  | zero => cases h
  | succ fuel ih =>
    rw [componentsLoop, bind_eq_ok] at h
    obtain ⟨component, hget, h⟩ := h
    cases component with
    | none =>
      cases h
      refine ⟨[], by simp, by simp, ?_, fun _ => ⟨rfl, rfl⟩⟩
      rintro ⟨c, hc, hfirst⟩
      cases current' with
      | nil => cases hc
      | cons d tail =>
        cases hc
        rw [getcomponent, if_neg (not_not_intro hfirst), bind_eq_ok] at hget
        obtain ⟨_, _, hget⟩ := hget
        cases hget
    | some component =>
      rw [bind_eq_ok] at h
      obtain ⟨options1, hput, h⟩ := h
      rw [bind_eq_ok] at h
      obtain ⟨current1, _, h⟩ := h
      obtain ⟨more, rfl, hnum, _, _⟩ := ih h
      rw [putOption_ok hput]
      refine ⟨mcOptionInitStr optionNum component :: more, by simp, ?_, by simp, ?_⟩
      · intro o ho
        rcases List.mem_cons.mp ho with rfl | ho
        · rfl
        · exact hnum o ho
      · intro hend
        rw [getcomponent_none hend] at hget
        cases hget

/-- The options behind host and port: none at the end of the string, and at
    least one at a delimiter. -/
theorem uriComponents_appends {nopts : UInt32} {options options' : List McOption}
    {current : List UInt8} (h : uriComponents nopts options current = .ok options') :
    ∃ more, options' = options ++ more ∧
      (∀ o ∈ more, o.optionNum = optionUriPath ∨ o.optionNum = optionUriQuery) ∧
      (current = [] → more = []) ∧
      (current ≠ [] → StopsAt [slash, question] current → more ≠ []) := by
  rw [uriComponents, bind_eq_ok] at h
  obtain ⟨⟨options1, current1⟩, hpaths, h⟩ := h
  rw [bind_eq_ok] at h
  obtain ⟨⟨options2, current2⟩, hqueries, h⟩ := h
  cases h
  obtain ⟨paths, rfl, hpathNum, hsome, hnone⟩ := componentsLoop_appends hpaths
  obtain ⟨queries, rfl, hqueryNum, hsome', hnone'⟩ := componentsLoop_appends hqueries
  refine ⟨paths ++ queries, by simp, ?_, ?_, ?_⟩
  · intro o ho
    rcases List.mem_append.mp ho with ho | ho
    · exact Or.inl (hpathNum o ho)
    · exact Or.inr (hqueryNum o ho)
  · intro hempty
    subst hempty
    obtain ⟨rfl, rfl⟩ := hnone (by simp)
    rw [(hnone' (by simp)).1]
    rfl
  · intro hne hstop hnil
    obtain ⟨hnoPath, hnoQuery⟩ := List.append_eq_nil_iff.mp hnil
    obtain ⟨c, tail, rfl⟩ := List.exists_cons_of_ne_nil hne
    -- a path, or else a query
    by_cases hslash : c ∈ [slash]
    · exact hsome ⟨c, rfl, hslash⟩ hnoPath
    · have hquestion : c ∈ [question, ampersand] := by
        have hin := (stopsAt_cons _ _ _).mp hstop
        simp only [List.mem_cons, List.not_mem_nil, or_false] at hin hslash ⊢
        exact Or.inl (hin.resolve_left hslash)
      obtain ⟨_, rfl⟩ := hnone fun d hd => by
        cases hd
        exact hslash
      exact hsome' ⟨c, rfl, hquestion⟩ hnoQuery

/-- The array starts with host and port, unless the destination is what the
    URI names. -/
theorem uriOptions_authority {env : UriEnv} {dest : Option SockAddr} {host current : List UInt8}
    {options : List McOption} (h : uriOptions env dest host current = .ok options) :
    ∃ port more, getport env.overflow current = .ok port ∧
      options = (if equaladdr env.past (mnSockaddrInetInit env.resolve env.uriaddr host
          port.toUInt16).2 dest then []
        else [mcOptionInitStr optionUriHost host, mcOptionInitUint32 optionUriPort port]) ++
          more ∧
      (∀ o ∈ more, o.optionNum = optionUriPath ∨ o.optionNum = optionUriQuery) ∧
      (advanceto current [slash, question] = [] → more = []) ∧
      (advanceto current [slash, question] ≠ [] →
        StopsAt [slash, question] (advanceto current [slash, question]) → more ≠ []) := by
  rw [uriOptions, bind_eq_ok] at h
  obtain ⟨port, hport, h⟩ := h
  by_cases helided : equaladdr env.past (mnSockaddrInetInit env.resolve env.uriaddr host
      port.toUInt16).2 dest = true
  · simp only [if_pos helided] at h
    obtain ⟨more, rfl, hnum, hnone, hsome⟩ := uriComponents_appends h
    exact ⟨port, options, hport, by rw [if_pos helided]; rfl, hnum, hnone, hsome⟩
  · simp only [if_neg helided] at h
    rw [bind_eq_ok] at h
    obtain ⟨options1, hput1, h⟩ := h
    rw [bind_eq_ok] at h
    obtain ⟨options2, hput2, h⟩ := h
    rw [putOption_ok hput2, putOption_ok hput1] at h
    obtain ⟨more, rfl, hnum, hnone, hsome⟩ := uriComponents_appends h
    exact ⟨port, more, hport, by rw [if_neg helided]; rfl, hnum, hnone, hsome⟩

/-- With no destination the array starts with host and port. -/
theorem uriOptions_appends {env : UriEnv} {host current : List UInt8} {options : List McOption}
    (h : uriOptions env none host current = .ok options) :
    ∃ port more, getport env.overflow current = .ok port ∧
      options = mcOptionInitStr optionUriHost host ::
        mcOptionInitUint32 optionUriPort port :: more ∧
      (∀ o ∈ more, o.optionNum = optionUriPath ∨ o.optionNum = optionUriQuery) ∧
      (advanceto current [slash, question] = [] → more = []) ∧
      (advanceto current [slash, question] ≠ [] →
        StopsAt [slash, question] (advanceto current [slash, question]) → more ≠ []) := by
  obtain ⟨port, more, hport, hoptions, hmore⟩ := uriOptions_authority h
  have hshown : ∀ addr, ¬ equaladdr env.past addr none = true := fun _ => Bool.false_ne_true
  rw [if_neg (hshown _)] at hoptions
  exact ⟨port, more, hport, hoptions, hmore⟩

/-- At the end of the string there is nothing but host and port. -/
theorem uriOptions_bare (env : UriEnv) {host current : List UInt8} {port : UInt32}
    (hport : getport env.overflow current = .ok port)
    (hend : advanceto current [slash, question] = []) :
    uriOptions env none host current =
      .ok [mcOptionInitStr optionUriHost host, mcOptionInitUint32 optionUriPort port] := by
  rw [uriOptions, hport]
  simp only [bind, Except.bind, hend]
  rfl

/-! ## Section 2: With and without the default port -/

/-- "5683" -/
def defaultPortText : List UInt8 := [0x35, 0x36, 0x38, 0x33]

theorem defaultPortText_free : ∀ c ∈ colon :: defaultPortText, c ∉ [slash, question] := by
  simp [defaultPortText, colon, slash, question]

/-- scheme://host and a remainder. -/
def bareUri (scheme text remainder : List UInt8) : List UInt8 :=
  scheme ++ (schemeEnd ++ (text ++ remainder))

/-- scheme://host:5683 and a remainder. -/
def portUri (scheme text remainder : List UInt8) : List UInt8 :=
  bareUri scheme text (colon :: (defaultPortText ++ remainder))

theorem bareUri_noZero {scheme host text remainder : List UInt8}
    (hscheme : scheme = schemeCoap ∨ scheme = schemeCoaps) (htext : HostText host text)
    (hhost : ∀ c ∈ host, c ≠ 0) (hremainder : ∀ c ∈ remainder, c ≠ 0) :
    ∀ c ∈ bareUri scheme text remainder, c ≠ 0 := by
  have hvalid := scheme_noZero hscheme
  have htextZero := htext.noZero hhost
  intro c hc
  rw [bareUri] at hc
  simp only [List.mem_append] at hc
  rcases hc with hc | hc | hc | hc
  · exact hvalid c (List.mem_append_left _ hc)
  · exact hvalid c (List.mem_append_right _ hc)
  · exact htextZero c hc
  · exact hremainder c hc

theorem portUri_noZero {scheme host text remainder : List UInt8}
    (hscheme : scheme = schemeCoap ∨ scheme = schemeCoaps) (htext : HostText host text)
    (hhost : ∀ c ∈ host, c ≠ 0) (hremainder : ∀ c ∈ remainder, c ≠ 0) :
    ∀ c ∈ portUri scheme text remainder, c ≠ 0 := by
  have hport : ∀ c ∈ colon :: defaultPortText, c ≠ 0 := by simp [defaultPortText, colon]
  apply bareUri_noZero hscheme htext hhost
  intro c hc
  rw [← List.cons_append] at hc
  rcases List.mem_append.mp hc with hc | hc
  · exact hport c hc
  · exact hremainder c hc

/-- A list that is returned is the sorted array. -/
theorem mcUriToOptions_ok {qsort : Qsort McOption} {env : UriEnv} {dest : Option SockAddr}
    {uri : List UInt8} {list : McOptionsList}
    (h : mcUriToOptions qsort env dest uri = .ok (some list)) :
    ∃ host current options, uriHost (cstring uri) = .ok (some (host, current)) ∧
      uriOptions env dest host current = .ok options ∧
      list = mcOptionsListInit qsort options := by
  rw [mcUriToOptions, bind_eq_ok] at h
  obtain ⟨array, harray, h⟩ := h
  rw [uriArray, bind_eq_ok] at harray
  obtain ⟨found, hfound, harray⟩ := harray
  cases found with
  | none =>
    cases harray
    cases h
  | some found =>
    rw [bind_eq_ok] at harray
    obtain ⟨options, hoptions, harray⟩ := harray
    cases harray
    cases h
    exact ⟨found.1, found.2, options, hfound, hoptions, rfl⟩

theorem mcUriToOptions_of {env : UriEnv} {dest : Option SockAddr}
    {uri host current : List UInt8} {options : List McOption} (qsort : Qsort McOption)
    (hhost : uriHost (cstring uri) = .ok (some (host, current)))
    (hoptions : uriOptions env dest host current = .ok options) :
    mcUriToOptions qsort env dest uri = .ok (some (mcOptionsListInit qsort options)) := by
  rw [mcUriToOptions, uriArray, hhost]
  simp only [bind, Except.bind, hoptions]
  rfl

/-- Two arrays that give the same list have the same options. -/
theorem perm_of_init_eq {qsort : Qsort McOption} {options options' : List McOption}
    (h : mcOptionsListInit qsort options = mcOptionsListInit qsort options') :
    options.Perm options' := by
  have hsorts : qsort.sort compareOptions options = qsort.sort compareOptions options' :=
    congrArg McOptionsList.options h
  have hperm := qsort.perm compareOptions options
  rw [hsorts] at hperm
  exact hperm.symm.trans (qsort.perm compareOptions options')

/-- Behind a name the pointer is as far as the copy of it is long. -/
theorem hostAt_moves {uri found current : List UInt8}
    (hopen : ¬ uri.head? = some openBracket)
    (h : hostAt uri = .ok (some (found, current))) :
    current = uri.drop found.length ∧ found.length < 2 ^ 32 := by
  rw [hostAt, getaddress, if_neg hopen, bind_eq_ok] at h
  obtain ⟨host, hhost, h⟩ := h
  rw [gethost, bind_eq_ok] at hhost
  obtain ⟨copy, hcopy, hhost⟩ := hhost
  cases hhost
  simp only [if_neg hopen] at h
  split at h
  · cases h
  · rw [bind_eq_ok] at h
    obtain ⟨_, hsame, h⟩ := h
    cases hsame
    rw [bind_eq_ok] at h
    obtain ⟨current1, hmove, h⟩ := h
    cases h
    unfold pointerAdd at hmove
    split at hmove
    · cases hmove
      refine ⟨rfl, ?_⟩
      unfold msCopyCstr at hcopy
      split at hcopy
      · cases hcopy
      · cases hcopy
        have hcount := (UInt32.ofNat (strcspn uri [colon, slash])).toNat_lt
        rw [List.length_take]
        omega
    · cases hmove

/-- The array for the URI with the port: host, port, and the options of the
    remainder. -/
theorem portUri_options {scheme host text remainder : List UInt8} {env : UriEnv}
    {qsort : Qsort McOption} {list : McOptionsList}
    (hscheme : scheme = schemeCoap ∨ scheme = schemeCoaps) (htext : HostText host text)
    (hshort : Short host) (hremainder : StopsAt [slash, question] remainder)
    (hhostZero : ∀ c ∈ host, c ≠ 0) (hremainderZero : ∀ c ∈ remainder, c ≠ 0)
    (h : mcUriToOptions qsort env none (portUri scheme text remainder) = .ok (some list)) :
    ∃ port more, list = mcOptionsListInit qsort (mcOptionInitStr optionUriHost host ::
        mcOptionInitUint32 optionUriPort port :: more) ∧ (remainder ≠ [] → more ≠ []) := by
  obtain ⟨found, current, options, hhost, hoptions, rfl⟩ := mcUriToOptions_ok h
  rw [cstring_of_noZero (portUri_noZero hscheme htext hhostZero hremainderZero), portUri, bareUri,
    uriHost_text hscheme htext hshort (by simp)] at hhost
  cases hhost
  obtain ⟨port, more, _, rfl, _, _, hsome⟩ := uriOptions_appends hoptions
  have hadvance : advanceto (colon :: (defaultPortText ++ remainder)) [slash, question] =
      remainder := advanceto_append (List.cons_ne_nil _ _) defaultPortText_free hremainder
  rw [hadvance] at hsome
  exact ⟨port, more, rfl, fun hne => hsome hne hremainder⟩

/-- The array for the URI without a port: if the host is the same, there is
    nothing behind host and port. -/
theorem bareUri_options {scheme host text remainder : List UInt8} {env : UriEnv}
    {qsort : Qsort McOption} {list : McOptionsList}
    (hscheme : scheme = schemeCoap ∨ scheme = schemeCoaps) (htext : HostText host text)
    (hshort : Short host) (hremainder : StopsAt [slash, question] remainder)
    (hhostZero : ∀ c ∈ host, c ≠ 0) (hremainderZero : ∀ c ∈ remainder, c ≠ 0)
    (h : mcUriToOptions qsort env none (bareUri scheme text remainder) = .ok (some list)) :
    ∃ found port more, list = mcOptionsListInit qsort (mcOptionInitStr optionUriHost found ::
        mcOptionInitUint32 optionUriPort port :: more) ∧ found.length < 2 ^ 32 ∧
      (∀ o ∈ more, o.optionNum = optionUriPath ∨ o.optionNum = optionUriQuery) ∧
      (found.length = host.length → more = []) := by
  obtain ⟨found, current, options, hhost, hoptions, rfl⟩ := mcUriToOptions_ok h
  obtain ⟨port, more, _, rfl, hnum, hnone, _⟩ := uriOptions_appends hoptions
  rw [cstring_of_noZero (bareUri_noZero hscheme htext hhostZero hremainderZero), bareUri,
    uriHost_scheme hscheme] at hhost
  refine ⟨found, port, more, rfl, ?_⟩
  -- the host in the text is found unless it is a name with a query behind it
  have hexact : hostAt (text ++ remainder) = .ok (some (host, remainder)) →
      found.length < 2 ^ 32 ∧
      (∀ o ∈ more, o.optionNum = optionUriPath ∨ o.optionNum = optionUriQuery) ∧
      (found.length = host.length → more = []) := by
    intro hat
    rw [hat] at hhost
    cases hhost
    unfold Short at hshort
    exact ⟨by omega, hnum, fun _ => hnone (advanceto_stop hremainder)⟩
  cases htext with
  | literal hne hfree =>
    exact hexact (hostAt_literal remainder hne hfree hshort)
  | name hne hfree =>
    have hopen : ¬ (host ++ remainder).head? = some openBracket := by
      obtain ⟨d, ds, rfl⟩ := List.exists_cons_of_ne_nil hne
      intro hd
      have hd : d = openBracket := by simpa using hd
      exact hfree d List.mem_cons_self (by simp [hd])
    obtain ⟨hcurrent, hlen⟩ := hostAt_moves hopen hhost
    refine ⟨hlen, hnum, ?_⟩
    intro hsame
    apply hnone
    rw [hcurrent, hsame, List.drop_left]
    exact advanceto_stop hremainder

/-- The host option is the only one with its number, so two arrays with the
    same options have the same one. -/
theorem hostOption_eq {host found : List UInt8} {port : UInt32} {more options : List McOption}
    (hperm : (mcOptionInitStr optionUriHost host :: options).Perm
      (mcOptionInitStr optionUriHost found :: mcOptionInitUint32 optionUriPort port :: more))
    (hnum : ∀ o ∈ more, o.optionNum = optionUriPath ∨ o.optionNum = optionUriQuery) :
    mcOptionInitStr optionUriHost host = mcOptionInitStr optionUriHost found := by
  have hthree : (mcOptionInitStr optionUriHost host).optionNum = 3 := rfl
  rcases List.mem_cons.mp (hperm.mem_iff.mp List.mem_cons_self) with h | h
  · exact h
  · rcases List.mem_cons.mp h with h | h
    · have hnum := congrArg McOption.optionNum h
      rw [hthree, mcOptionInitUint32_num] at hnum
      exact absurd hnum (by decide)
    · rcases hnum _ h with hn | hn
      · rw [hthree] at hn
        exact absurd hn (by decide)
      · rw [hthree] at hn
        exact absurd hn (by decide)

/-- A value this short is as long as its option says. -/
theorem hostOption_length {host found : List UInt8} (hhost : host.length < 2 ^ 32)
    (hfound : found.length < 2 ^ 32)
    (h : mcOptionInitStr optionUriHost host = mcOptionInitStr optionUriHost found) :
    found.length = host.length := by
  have hbytes : (UInt32.ofNat host.length).toNat = (UInt32.ofNat found.length).toNat :=
    congrArg (fun o => o.value.nbytes.toNat) h
  rw [ofNat32_toNat hhost, ofNat32_toNat hfound] at hbytes
  exact hbytes.symm

/-- The two URIs give the same list exactly when nothing follows the host. -/
theorem default_port_iff (qsort : Qsort McOption) (env env' : UriEnv)
    {scheme host text remainder : List UInt8}
    (hscheme : scheme = schemeCoap ∨ scheme = schemeCoaps) (htext : HostText host text)
    (hshort : Short host) (hremainder : StopsAt [slash, question] remainder)
    (hhostZero : ∀ c ∈ host, c ≠ 0) (hremainderZero : ∀ c ∈ remainder, c ≠ 0) :
    (∃ list, mcUriToOptions qsort env none (bareUri scheme text remainder) = .ok (some list) ∧
      mcUriToOptions qsort env' none (portUri scheme text remainder) = .ok (some list)) ↔
        remainder = [] := by
  constructor
  · intro ⟨list, hbare, hport⟩
    by_contra hne
    obtain ⟨port, more, hlist, hmore⟩ := portUri_options hscheme htext hshort hremainder
      hhostZero hremainderZero hport
    obtain ⟨found, port', more', hlist', hlen, hnum, hnone⟩ := bareUri_options hscheme htext
      hshort hremainder hhostZero hremainderZero hbare
    have hperm := perm_of_init_eq (hlist.symm.trans hlist')
    have hsame : found.length = host.length := by
      unfold Short at hshort
      exact hostOption_length (by omega) hlen (hostOption_eq hperm hnum)
    have hcount := hperm.length_eq
    rw [hnone hsame] at hcount
    simp only [List.length_cons, List.length_nil] at hcount
    exact hmore hne (List.eq_nil_of_length_eq_zero (by omega))
  · rintro rfl
    have hhost : uriHost (cstring (bareUri scheme text [])) = .ok (some (host, [])) := by
      rw [cstring_of_noZero (bareUri_noZero hscheme htext hhostZero hremainderZero)]
      exact uriHost_text hscheme htext hshort (stopsAt_nil _)
    have hhost' : uriHost (cstring (portUri scheme text [])) =
        .ok (some (host, colon :: (defaultPortText ++ []))) := by
      rw [cstring_of_noZero (portUri_noZero hscheme htext hhostZero hremainderZero)]
      exact uriHost_text hscheme htext hshort (by simp)
    have hport : getport env'.overflow (colon :: (defaultPortText ++ [])) = .ok mcDefaultPort :=
      getport_text _ (by simp [defaultPortText, isdigit]) (by decide) (by decide) (by simp)
        (by decide)
    have hoptions : uriOptions env none host [] =
        .ok [mcOptionInitStr optionUriHost host,
          mcOptionInitUint32 optionUriPort mcDefaultPort] :=
      uriOptions_bare env (getport_none _ (by simp)) rfl
    have hoptions' : uriOptions env' none host (colon :: (defaultPortText ++ [])) =
        .ok [mcOptionInitStr optionUriHost host,
          mcOptionInitUint32 optionUriPort mcDefaultPort] :=
      uriOptions_bare env' hport (by decide)
    exact ⟨_, mcUriToOptions_of qsort hhost hoptions, mcUriToOptions_of qsort hhost' hoptions'⟩

/-- coap://h/a keeps its path only with a port. -/
theorem default_port_lost :
    ¬ ∃ list, mcUriToOptions (insertion McOption) ⟨fun _ => none, ⟨0, 0, 0, 0⟩, false, id⟩ none
        (bareUri schemeCoap [0x68] [slash, 0x61]) = .ok (some list) ∧
      mcUriToOptions (insertion McOption) ⟨fun _ => none, ⟨0, 0, 0, 0⟩, false, id⟩ none
        (portUri schemeCoap [0x68] [slash, 0x61]) = .ok (some list) := by
  intro ⟨list, hbare, hport⟩
  have hcount := congrArg (fun r => r.toOption.map (·.map (·.options.length)))
    (hbare.trans hport.symm)
  exact absurd hcount (by decide)

/-- The witness: coap://h -/
theorem default_port_iff_host :
    ∃ list, mcUriToOptions (insertion McOption) ⟨fun _ => none, ⟨0, 0, 0, 0⟩, false, id⟩ none
        (bareUri schemeCoap [0x68] []) = .ok (some list) ∧
      mcUriToOptions (insertion McOption) ⟨fun _ => none, ⟨0, 0, 0, 0⟩, false, id⟩ none
        (portUri schemeCoap [0x68] []) = .ok (some list) :=
  (default_port_iff (insertion McOption) _ _ (Or.inl rfl)
    (HostText.name (by decide) (by simp [colon, slash, question, openBracket]))
    (by unfold Short; decide) (stopsAt_nil _) (by simp) (by simp)).mpr rfl

end Mcoap

import Mcoap.UriPort

/-! # The URI parser on any string

    `mc_uri_to_options` on a string that need not be a URI at all: whether
    it comes to an end, stays in front of the terminating zero, and has a
    slot for every option it stores.

    * `componentSpans`: what a loop cuts its string into;
    * `CopiesFit`: no text that is copied has a length whose successor is 0
      as a `uint32_t`;
    * `uri_parser_safe`: with that, and fewer than 2^32 delimiters, nothing
      goes wrong;
    * `delimiters_wrap`: with 2^32 of them, the first option has no slot. -/

namespace Mcoap

open CString StableSort

/-! ## Section 1: Copies and moves -/

/-- `ms_copy_cstr` can allocate one byte more than `n`. -/
def CopyFits (n : Nat) : Prop := (n + 1) % 2 ^ 32 ≠ 0

/-- The characters that `estimatenopts` counts. -/
def delimiters (s : List UInt8) : Nat := s.countP (· ∈ [slash, question, ampersand])

theorem msCopyCstr_fits {n : Nat} (data : List UInt8) (h : CopyFits n) :
    msCopyCstr (UInt32.ofNat n) data = .ok (data.take (n % 2 ^ 32)) := by
  have hne : ¬ UInt32.ofNat n + 1 = 0 := by
    intro h0
    have hsum := congrArg UInt32.toNat h0
    rw [UInt32.toNat_add, UInt32.toNat_ofNat', UInt32.toNat_one, UInt32.toNat_zero,
      Nat.mod_add_mod] at hsum
    exact h hsum
  rw [msCopyCstr, if_neg hne, UInt32.toNat_ofNat']

theorem pointerAdd_inside {s : List UInt8} {n : Nat} (h : n ≤ s.length) :
    pointerAdd s n = .ok (s.drop n) := if_pos h

theorem strcspn_le (s chars : List UInt8) : strcspn s chars ≤ s.length :=
  (List.takeWhile_sublist _).length_le

/-- A pointer only moves forward. -/
theorem advanceto_suffix (s chars : List UInt8) : advanceto s chars <:+ s := List.drop_suffix _ _

theorem delimiters_suffix {s s' : List UInt8} (h : s' <:+ s) : delimiters s' ≤ delimiters s :=
  h.sublist.countP_le

/-! ## Section 2: The loops -/

/-- The lengths of the components a loop finds, and where it ends. -/
def componentSpans (first last : List UInt8) : List UInt8 → List Nat × List UInt8
  | [] => ([], [])
  | c :: tail =>
    if c ∈ first then
      let found := componentSpans first last (advanceto tail last)
      (strcspn tail last :: found.1, found.2)
    else ([], c :: tail)
termination_by s => s.length
decreasing_by
  have hle := (advanceto_suffix tail last).length_le
  rw [List.length_cons]
  omega

theorem componentSpans_suffix (first last s : List UInt8) :
    (componentSpans first last s).2 <:+ s := by
  fun_induction componentSpans first last s with
  | case1 => exact List.suffix_refl _
  | case2 c tail _ found ih =>
    exact (ih.trans (advanceto_suffix tail last)).trans (List.suffix_cons c tail)
  | case3 c tail _ => exact List.suffix_refl _

/-- Every component takes a delimiter. -/
theorem componentSpans_count (first last s : List UInt8)
    (hfirst : ∀ c ∈ first, c ∈ [slash, question, ampersand]) :
    (componentSpans first last s).1.length + delimiters (componentSpans first last s).2 ≤
      delimiters s := by
  fun_induction componentSpans first last s with
  | case1 => simp
  | case2 c tail hc found ih =>
    have htail := delimiters_suffix (advanceto_suffix tail last)
    have hhead : delimiters (c :: tail) = delimiters tail + 1 := by
      rw [delimiters, List.countP_cons, if_pos (by simpa using hfirst c hc)]
      rfl
    have hrest : found.1.length + delimiters found.2 ≤ delimiters (advanceto tail last) := ih
    show found.1.length + 1 + delimiters found.2 ≤ delimiters (c :: tail)
    omega
  | case3 c tail _ => simp

/-- A loop with room for its components stores one option for each. -/
theorem componentsLoop_safe {first last : List UInt8} (optionNum : UInt16) {nopts : UInt32}
    {fuel : Nat} (options : List McOption) {current : List UInt8} (hfuel : current.length < fuel)
    (hcopies : ∀ n ∈ (componentSpans first last current).1, CopyFits n)
    (hroom : options.length + (componentSpans first last current).1.length ≤ nopts.toNat) :
    ∃ options', componentsLoop (getcomponent first last) optionNum last nopts fuel options
        current = .ok (options', (componentSpans first last current).2) ∧
      options'.length = options.length + (componentSpans first last current).1.length := by
  induction fuel generalizing options current with
  | zero => omega
  | succ fuel ih =>
    cases current with
    | nil =>
      refine ⟨options, ?_, ?_⟩
      · rw [componentsLoop_end fuel (by simp), componentSpans]
      · rw [componentSpans]
        rfl
    | cons c tail =>
      rw [componentSpans] at hcopies hroom ⊢
      by_cases hc : c ∈ first
      · rw [if_pos hc] at hcopies hroom ⊢
        simp only [List.length_cons] at hcopies hroom hfuel ⊢
        have hle := (advanceto_suffix tail last).length_le
        have hget : getcomponent first last (c :: tail) =
            .ok (some (tail.take (strcspn tail last % 2 ^ 32))) := by
          rw [getcomponent, if_neg (not_not_intro hc),
            msCopyCstr_fits tail (hcopies _ List.mem_cons_self)]
          rfl
        obtain ⟨options', hloop, hlength⟩ := ih
          (options ++ [mcOptionInitStr optionNum (tail.take (strcspn tail last % 2 ^ 32))])
          (show (advanceto tail last).length < fuel by omega)
          (fun n hn => hcopies n (List.mem_cons_of_mem _ hn))
          (by rw [List.length_append, List.length_singleton]; omega)
        refine ⟨options', ?_, ?_⟩
        · rw [componentsLoop, hget]
          simp only [bind, Except.bind, putOption_room _ (show options.length < nopts.toNat by omega),
            pointerAdd_one]
          exact hloop
        · rw [List.length_append, List.length_singleton] at hlength
          omega
      · rw [if_neg hc]
        refine ⟨options, componentsLoop_end fuel ?_, rfl⟩
        intro d hd
        cases hd
        exact hc

/-! ## Section 3: The string -/

/-- The length of the host a pointer stands on. -/
def hostSpan (current : List UInt8) : Nat :=
  if current.head? = some openBracket then strcspn current.tail [closeBracket]
  else strcspn current [colon, slash]

/-- No text that is copied from the string has a length one short of a
    multiple of 2^32: scheme and host, and from the pointer behind the host
    the port text, the segments and the arguments. -/
structure CopiesFit (uri : List UInt8) : Prop where
  scheme : CopyFits (strcspn uri [colon])
  host : ∀ current, advanceby (advanceto uri [colon]) schemeEnd = some current →
    CopyFits (hostSpan current)
  port : ∀ host current, uriHost uri = .ok (some (host, current)) →
    current.head? = some colon → CopyFits (strcspn current.tail [slash])
  segments : ∀ host current, uriHost uri = .ok (some (host, current)) →
    ∀ n ∈ (componentSpans [slash] [slash, question]
      (advanceto current [slash, question])).1, CopyFits n
  arguments : ∀ host current, uriHost uri = .ok (some (host, current)) →
    ∀ n ∈ (componentSpans [question, ampersand] [ampersand] (componentSpans [slash]
      [slash, question] (advanceto current [slash, question])).2).1, CopyFits n

theorem advanceby_suffix {s word rest : List UInt8} (h : advanceby s word = some rest) :
    s = word ++ rest := by
  induction word generalizing s with
  | nil =>
    cases s with
    | nil =>
      cases h
      rfl
    | cons _ _ =>
      cases h
      rfl
  | cons p ppos ih =>
    cases s with
    | nil => cases h
    | cons c spos =>
      rw [advanceby] at h
      split at h
      · cases h
      · next hc =>
        rw [ih h, not_not.mp hc]
        rfl

/-- The host of a literal leaves room for its brackets. -/
theorem getip6host_safe {tail : List UInt8} (hfits : CopyFits (strcspn tail [closeBracket])) :
    ∃ found, getip6host (openBracket :: tail) = .ok found ∧
      ∀ host, found = some host → host.length + 1 ≤ tail.length := by
  have hbracket : advanceby (openBracket :: tail) [openBracket] = some tail :=
    advanceby_append [openBracket] tail
  unfold getip6host
  simp only [hbracket]
  by_cases hzero : strcspn tail [closeBracket] = 0
  · rw [if_pos hzero]
    exact ⟨none, rfl, fun _ h => by cases h⟩
  rw [if_neg hzero]
  by_cases hclose : (tail.drop (strcspn tail [closeBracket])).head? ≠ some closeBracket
  · rw [if_pos hclose]
    exact ⟨none, rfl, fun _ h => by cases h⟩
  -- the closing bracket is there
  have hlt : strcspn tail [closeBracket] < tail.length := by
    by_contra hge
    apply hclose
    rw [List.drop_eq_nil_of_le (by omega)]
    simp
  rw [if_neg hclose, msCopyCstr_fits tail hfits]
  refine ⟨_, rfl, ?_⟩
  intro host h
  cases h
  rw [List.length_take]
  omega

theorem gethost_safe {current : List UInt8} (hfits : CopyFits (strcspn current [colon, slash])) :
    ∃ host, gethost current = .ok (some host) ∧ host.length ≤ current.length := by
  rw [gethost, msCopyCstr_fits current hfits]
  refine ⟨_, rfl, ?_⟩
  rw [List.length_take]
  omega

/-- A host that is found lies in front of the pointer that comes back. -/
theorem hostAt_safe {current : List UInt8} (hfits : CopyFits (hostSpan current)) :
    ∃ found, hostAt current = .ok found ∧
      ∀ host rest, found = some (host, rest) → rest <:+ current := by
  unfold hostAt getaddress
  by_cases hopen : current.head? = some openBracket
  · obtain ⟨tail, rfl⟩ := List.head?_eq_some_iff.mp hopen
    rw [hostSpan, if_pos hopen, List.tail_cons] at hfits
    obtain ⟨found, hget, hlen⟩ := getip6host_safe hfits
    simp only [if_pos hopen, hget, bind, Except.bind]
    cases found with
    | none => exact ⟨none, rfl, fun _ _ h => by cases h⟩
    | some host =>
      have hlen := hlen host rfl
      by_cases hempty : host.length = 0
      · simp only [if_pos hempty]
        exact ⟨none, rfl, fun _ _ h => by cases h⟩
      · have htwo : pointerAdd (openBracket :: tail) 2 = .ok (tail.drop 1) :=
          pointerAdd_inside (by rw [List.length_cons]; omega)
        have hmove : pointerAdd (tail.drop 1) host.length = .ok ((tail.drop 1).drop host.length) :=
          pointerAdd_inside (by rw [List.length_drop]; omega)
        simp only [if_neg hempty, htwo, hmove]
        refine ⟨_, rfl, ?_⟩
        intro _ _ h
        cases h
        exact ((List.drop_suffix _ _).trans (List.drop_suffix _ _)).trans (List.suffix_cons _ _)
  · rw [hostSpan, if_neg hopen] at hfits
    obtain ⟨host, hget, hlen⟩ := gethost_safe hfits
    simp only [if_neg hopen, hget, bind, Except.bind]
    by_cases hempty : host.length = 0
    · simp only [if_pos hempty]
      exact ⟨none, rfl, fun _ _ h => by cases h⟩
    · simp only [if_neg hempty, pointerAdd_inside hlen]
      refine ⟨_, rfl, ?_⟩
      intro _ _ h
      cases h
      exact List.drop_suffix _ _

/-- Scheme and host; the two slashes behind the scheme are not counted again. -/
theorem uriHost_safe {uri : List UInt8} (hscheme : CopyFits (strcspn uri [colon]))
    (hhost : ∀ current, advanceby (advanceto uri [colon]) schemeEnd = some current →
      CopyFits (hostSpan current)) :
    ∃ found, uriHost uri = .ok found ∧ ∀ host rest, found = some (host, rest) →
      rest <:+ uri ∧ delimiters rest + 2 ≤ delimiters uri := by
  have hget : ∃ scheme, getscheme uri = .ok scheme := by
    unfold getscheme
    split
    · rw [msCopyCstr_fits uri hscheme]
      exact ⟨_, rfl⟩
    · exact ⟨none, rfl⟩
  obtain ⟨scheme, hget⟩ := hget
  unfold uriHost
  simp only [hget, bind, Except.bind]
  by_cases hvalid : validscheme scheme = true
  · simp only [if_pos hvalid]
    cases hcolons : advanceby (advanceto uri [colon]) schemeEnd with
    | none =>
      have hcolons : advanceby (advanceto uri [colon]) [colon, slash, slash] = none := hcolons
      simp only [hcolons]
      exact ⟨none, rfl, fun _ _ h => by cases h⟩
    | some current =>
      obtain ⟨found, hfound, hrest⟩ := hostAt_safe (hhost current hcolons)
      have hsplit := advanceby_suffix hcolons
      have hcolons : advanceby (advanceto uri [colon]) [colon, slash, slash] = some current :=
        hcolons
      simp only [hcolons]
      refine ⟨found, hfound, ?_⟩
      intro host rest h
      have hsuffix := advanceto_suffix uri [colon]
      have hle := delimiters_suffix (hrest host rest h)
      have hle' := delimiters_suffix hsuffix
      have hcurrent : current <:+ advanceto uri [colon] := by
        rw [hsplit]
        exact List.suffix_append _ _
      refine ⟨((hrest host rest h).trans hcurrent).trans hsuffix, ?_⟩
      have htwo : delimiters (schemeEnd ++ current) = delimiters current + 2 := by
        rw [delimiters, List.countP_append, Nat.add_comm]
        rfl
      rw [hsplit, htwo] at hle'
      omega
  · simp only [if_neg hvalid]
    exact ⟨none, rfl, fun _ _ h => by cases h⟩

theorem getport_safe (overflow : Int → Int) {current : List UInt8}
    (hfits : current.head? = some colon → CopyFits (strcspn current.tail [slash])) :
    ∃ port, getport overflow current = .ok port := by
  unfold getport
  by_cases hcolon : current.head? ≠ some colon
  · rw [if_pos hcolon]
    exact ⟨_, rfl⟩
  · rw [not_not] at hcolon
    obtain ⟨tail, rfl⟩ := List.head?_eq_some_iff.mp hcolon
    have hskip : advanceby (colon :: tail) [colon] = some tail := advanceby_append [colon] tail
    rw [if_neg (not_not_intro hcolon)]
    simp only [hskip, bind, Except.bind]
    have hfits := hfits hcolon
    rw [List.tail_cons] at hfits
    rw [msCopyCstr_fits tail hfits]
    exact ⟨_, rfl⟩

/-- Both loops, with a slot for each delimiter that is left. -/
theorem uriComponents_safe {nopts : UInt32} {options : List McOption} {current : List UInt8}
    (hsegments : ∀ n ∈ (componentSpans [slash] [slash, question] current).1, CopyFits n)
    (harguments : ∀ n ∈ (componentSpans [question, ampersand] [ampersand]
      (componentSpans [slash] [slash, question] current).2).1, CopyFits n)
    (hroom : options.length + delimiters current ≤ nopts.toNat) :
    ∃ options', uriComponents nopts options current = .ok options' := by
  have hcount := componentSpans_count [slash] [slash, question] current (by simp)
  obtain ⟨options1, hpaths, hlength⟩ := componentsLoop_safe optionUriPath options
    (Nat.lt_succ_self current.length) hsegments (show _ ≤ nopts.toNat by omega)
  have hpaths : pathsLoop nopts options current = .ok _ := hpaths
  -- the path loop leaves the delimiters it has not used to the query loop
  have hcount' := componentSpans_count [question, ampersand] [ampersand]
    (componentSpans [slash] [slash, question] current).2 (by simp)
  obtain ⟨options2, hqueries, _⟩ := componentsLoop_safe optionUriQuery options1
    (Nat.lt_succ_self _) harguments (show _ ≤ nopts.toNat by omega)
  have hqueries : queriesLoop nopts options1
    (componentSpans [slash] [slash, question] current).2 = .ok _ := hqueries
  rw [uriComponents, hpaths]
  simp only [bind, Except.bind, hqueries]
  exact ⟨_, rfl⟩

theorem uriOptions_safe (env : UriEnv) (dest : Option SockAddr) (host : List UInt8)
    {current : List UInt8}
    (hport : current.head? = some colon → CopyFits (strcspn current.tail [slash]))
    (hsegments : ∀ n ∈ (componentSpans [slash] [slash, question]
      (advanceto current [slash, question])).1, CopyFits n)
    (harguments : ∀ n ∈ (componentSpans [question, ampersand] [ampersand] (componentSpans [slash]
      [slash, question] (advanceto current [slash, question])).2).1, CopyFits n)
    (hcount : delimiters current + 2 < 2 ^ 32) :
    ∃ options, uriOptions env dest host current = .ok options := by
  obtain ⟨port, hport⟩ := getport_safe env.overflow hport
  have hle := delimiters_suffix (advanceto_suffix current [slash, question])
  have hslots : delimiters (advanceto current [slash, question]) + 2 < 2 ^ 32 := by omega
  obtain ⟨options, hoptions, _⟩ := uriOptions_room (P := fun _ _ => True) dest host hport rfl
    hslots fun nopts options hroom => by
      obtain ⟨options', hoptions'⟩ := uriComponents_safe hsegments harguments hroom
      exact ⟨options', hoptions', trivial⟩
  exact ⟨options, hoptions⟩

/-! ## Section 4: The parser -/

theorem uriArray_safe (env : UriEnv) (dest : Option SockAddr) {uri : List UInt8}
    (hcopies : CopiesFit (cstring uri)) (hcount : delimiters (cstring uri) < 2 ^ 32) :
    ∃ options, uriArray env dest uri = .ok options := by
  obtain ⟨found, hfound, hrest⟩ := uriHost_safe hcopies.scheme hcopies.host
  unfold uriArray
  simp only [hfound, bind, Except.bind]
  cases found with
  | none => exact ⟨none, rfl⟩
  | some found =>
    obtain ⟨host, current⟩ := found
    obtain ⟨_, hle⟩ := hrest host current rfl
    obtain ⟨options, hoptions⟩ := uriOptions_safe env dest host
      (hcopies.port host current hfound) (hcopies.segments host current hfound)
      (hcopies.arguments host current hfound) (by omega)
    simp only [hoptions]
    exact ⟨_, rfl⟩

/-- On every string with fewer than 2^32 delimiters whose texts can be
    copied: the parser comes to an end, stays inside the string, and has a
    slot for every option. -/
theorem uri_parser_safe (qsort : Qsort McOption) (env : UriEnv) (dest : Option SockAddr)
    (uri : List UInt8) (hcopies : CopiesFit (cstring uri))
    (hcount : delimiters (cstring uri) < 2 ^ 32) :
    ∃ list, mcUriToOptions qsort env dest uri = .ok list := by
  obtain ⟨options, harray⟩ := uriArray_safe env dest hcopies hcount
  rw [mcUriToOptions, harray]
  exact ⟨_, rfl⟩

theorem copyFits_of_le {n : Nat} {s : List UInt8} (h : n ≤ s.length) (hshort : Short s) :
    CopyFits n := by
  unfold Short at hshort
  unfold CopyFits
  rw [Nat.mod_eq_of_lt (by omega)]
  exact Nat.succ_ne_zero n

theorem componentSpans_le (first last s : List UInt8) :
    ∀ n ∈ (componentSpans first last s).1, n ≤ s.length := by
  fun_induction componentSpans first last s with
  | case1 => exact fun n hn => absurd hn List.not_mem_nil
  | case2 c tail _ found ih =>
    have hle := (advanceto_suffix tail last).length_le
    intro n hn
    rw [List.length_cons]
    rcases List.mem_cons.mp hn with rfl | hn
    · exact Nat.le_succ_of_le (strcspn_le tail last)
    · exact (ih n hn).trans (Nat.le_succ_of_le hle)
  | case3 c tail _ => exact fun n hn => absurd hn List.not_mem_nil

/-- A string shorter than 2^32 - 1 has no text that is too long. -/
theorem copiesFit_of_short {uri : List UInt8} (h : Short uri) : CopiesFit uri := by
  have hfits : ∀ {n s}, s <:+ uri → n ≤ List.length s → CopyFits n :=
    fun hs hn => copyFits_of_le (hn.trans hs.length_le) h
  have hscheme : CopyFits (strcspn uri [colon]) := hfits (List.suffix_refl _) (strcspn_le _ _)
  have hhost : ∀ current, advanceby (advanceto uri [colon]) schemeEnd = some current →
      CopyFits (hostSpan current) := by
    intro current hcurrent
    have hsuffix := advanceto_suffix uri [colon]
    rw [advanceby_suffix hcurrent] at hsuffix
    apply hfits ((List.suffix_append _ _).trans hsuffix)
    unfold hostSpan
    split
    · exact (strcspn_le _ _).trans (List.tail_suffix _).length_le
    · exact strcspn_le _ _
  -- behind the host there is a suffix
  have hrest : ∀ host current, uriHost uri = .ok (some (host, current)) → current <:+ uri := by
    intro host current hfound
    obtain ⟨found, hok, hsuffix⟩ := uriHost_safe hscheme hhost
    rw [hfound] at hok
    cases hok
    exact (hsuffix host current rfl).1
  constructor
  · exact hscheme
  · exact hhost
  · intro host current hfound _
    exact hfits (hrest host current hfound)
      ((strcspn_le _ _).trans (List.tail_suffix _).length_le)
  · intro host current hfound n hn
    exact hfits ((advanceto_suffix _ _).trans (hrest host current hfound))
      (componentSpans_le _ _ _ n hn)
  · intro host current hfound n hn
    exact hfits (((componentSpans_suffix _ _ _).trans (advanceto_suffix _ _)).trans
      (hrest host current hfound)) (componentSpans_le _ _ _ n hn)

/-- The witness: coap://h:1//?&/ -/
theorem uri_parser_safe_empty :
    ∃ list, mcUriToOptions (insertion McOption) ⟨fun _ => none, ⟨0, 0, 0, 0⟩, false, id⟩ none
      (schemeCoap ++ (schemeEnd ++ [0x68, colon, 0x31, slash, slash, question, ampersand, slash])) =
        .ok list :=
  uri_parser_safe (insertion McOption) _ none _ (copiesFit_of_short (by unfold Short; decide))
    (by decide)

/-- coap://h:1 with as many delimiters behind it as let the count of the
    slots come out as 0. -/
theorem slots_wrap {rest : List UInt8} (env : UriEnv) (hrest : StopsAt [slash] rest)
    (hzero : ∀ c ∈ rest, c ≠ 0) (hcount : delimiters rest = 2 ^ 32 - 2) :
    uriArray env none (schemeCoap ++ (schemeEnd ++ ([0x68] ++ (colon :: ([0x31] ++ rest))))) =
      .error .outOfBounds := by
  have hnoZero : ∀ c ∈ schemeCoap ++ (schemeEnd ++ ([0x68] ++ (colon :: ([0x31] ++ rest)))),
      c ≠ 0 := by
    have hscheme := scheme_noZero (Or.inl (Eq.refl schemeCoap))
    intro c hc
    rw [← List.append_assoc] at hc
    rcases List.mem_append.mp hc with hc | hc
    · exact hscheme c hc
    · simp only [List.cons_append, List.nil_append, List.mem_cons] at hc
      rcases hc with rfl | rfl | rfl | hc
      · decide
      · decide
      · decide
      · exact hzero c hc
  have hstop : StopsAt [slash, question] rest := by
    intro c hc
    rw [List.mem_singleton.mp (hrest c hc)]
    simp
  have hhost : uriHost (schemeCoap ++ (schemeEnd ++ ([0x68] ++ (colon :: ([0x31] ++ rest))))) =
      .ok (some ([0x68], colon :: ([0x31] ++ rest))) :=
    uriHost_text (Or.inl rfl)
      (HostText.name (by decide) (by simp [colon, slash, question, openBracket]))
      (by unfold Short; decide) (by simp)
  have hspan : strcspn ([0x31] ++ rest) [slash] = 1 := strcspn_append (by simp [slash]) hrest
  have hdigit : ∀ c ∈ rest.head?, isdigit c = false := by
    intro c hc
    rw [List.mem_singleton.mp (hrest c hc)]
    rfl
  have hport : getport env.overflow (colon :: ([0x31] ++ rest)) = .ok 1 :=
    getport_text env.overflow (by simp [isdigit]) (by decide) (by decide) hdigit
      (by rw [hspan]; decide)
  have hadvance : advanceto (colon :: ([0x31] ++ rest)) [slash, question] = rest :=
    advanceto_append (List.cons_ne_nil colon [0x31]) (by simp [colon, slash, question]) hstop
  have hslots : estimatenopts rest + 2 = 0 := by
    have hestimate : estimatenopts rest = UInt32.ofNat (delimiters rest) := rfl
    rw [hestimate, hcount]
    decide
  have hshown : ∀ addr, ¬ equaladdr env.past addr none = true := fun _ => Bool.false_ne_true
  rw [uriArray, cstring_of_noZero hnoZero, hhost]
  simp only [bind, Except.bind, uriOptions, hport, hadvance, if_neg (hshown _), hslots]
  rfl

/-- coap://h:1 and 2^32 - 2 times '/'. -/
theorem delimiters_wrap :
    mcUriToOptions (insertion McOption) ⟨fun _ => none, ⟨0, 0, 0, 0⟩, false, id⟩ none
      (schemeCoap ++ (schemeEnd ++ ([0x68] ++ (colon :: ([0x31] ++
        List.replicate (2 ^ 32 - 2) slash))))) = .error .outOfBounds := by
  have hall : ∀ c ∈ List.replicate (2 ^ 32 - 2) slash, c = slash :=
    fun c hc => List.eq_of_mem_replicate hc
  have hstop : StopsAt [slash] (List.replicate (2 ^ 32 - 2) slash) := by
    intro c hc
    rw [hall c (List.mem_of_mem_head? hc)]
    simp
  have hzero : ∀ c ∈ List.replicate (2 ^ 32 - 2) slash, c ≠ 0 := by
    intro c hc
    rw [hall c hc]
    decide
  have hcount : delimiters (List.replicate (2 ^ 32 - 2) slash) = 2 ^ 32 - 2 := by
    rw [delimiters, List.countP_replicate, if_pos (by simp)]
  have harray := slots_wrap ⟨fun _ => none, ⟨0, 0, 0, 0⟩, false, id⟩ hstop hzero hcount
  rw [mcUriToOptions, harray]
  rfl

end Mcoap

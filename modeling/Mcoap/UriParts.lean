import Mcoap.Encoder
import Mcoap.Uri

/-! # The parts of a URI

    What `mc_uri_to_options` makes of a URI that is written as
    scheme://host:port/segment/segment?argument&argument.

    * `HostText`: a host as it stands in a URI, in brackets or not;
    * `uriHost_text`: the parser finds it, and stands right behind it;
    * `componentsLoop_found`: each loop turns its words into one option
      each, in their order, up to the first empty one;
    * `uri_decomposed`: the whole list. -/

namespace Mcoap

open ByteMem CString StableSort

/-! ## Section 1: Texts -/

/-- "://" -/
def schemeEnd : List UInt8 := [colon, slash, slash]

/-- The text that names a host: a name, or a literal in brackets. -/
inductive HostText (host : List UInt8) : List UInt8 → Prop where
  | name (hne : host ≠ []) (hfree : ∀ c ∈ host, c ∉ [colon, slash, question, openBracket]) :
      HostText host host
  | literal (hne : host ≠ []) (hfree : ∀ c ∈ host, c ∉ [closeBracket]) :
      HostText host (openBracket :: (host ++ [closeBracket]))

/-- '/' and each segment. -/
def pathText (segments : List (List UInt8)) : List UInt8 :=
  segments.flatMap (slash :: ·)

/-- '?' and the arguments joined by '&', when there are any. -/
def queryText : List (List UInt8) → List UInt8
  | [] => []
  | argument :: rest => question :: (argument ++ rest.flatMap (ampersand :: ·))

/-- What `ms_copy_cstr` copies in one piece. -/
def Short (text : List UInt8) : Prop := text.length < 2 ^ 32 - 1

/-! ## Section 2: Copies and steps -/

theorem msCopyCstr_short {w rest : List UInt8} (h : Short w) :
    msCopyCstr (UInt32.ofNat w.length) (w ++ rest) = .ok w := by
  unfold Short at h
  have hlen : (UInt32.ofNat w.length).toNat = w.length := ofNat32_toNat (by omega)
  have hne : ¬ UInt32.ofNat w.length + 1 = 0 := by
    intro h0
    have hsum := congrArg UInt32.toNat h0
    rw [UInt32.toNat_add, hlen, UInt32.toNat_one, UInt32.toNat_zero] at hsum
    omega
  rw [msCopyCstr, if_neg hne, hlen, List.take_left]

theorem pointerAdd_append (w rest : List UInt8) : pointerAdd (w ++ rest) w.length = .ok rest := by
  rw [pointerAdd, if_pos (by simp), List.drop_left]

theorem pointerAdd_one (c : UInt8) (rest : List UInt8) : pointerAdd (c :: rest) 1 = .ok rest :=
  pointerAdd_append [c] rest

/-- Up to the next delimiter, if the pointer is not on one. -/
theorem advanceto_append {w rest chars : List UInt8} (hne : w ≠ []) (hw : ∀ c ∈ w, c ∉ chars)
    (hrest : StopsAt chars rest) : advanceto (w ++ rest) chars = rest := by
  have hpos : w.length ≠ 0 := fun h => hne (List.eq_nil_of_length_eq_zero h)
  simp only [advanceto, strcspn_append hw hrest, if_neg hpos, List.drop_left]

/-- On a delimiter, to the end of the string. -/
theorem advanceto_stop {s chars : List UInt8} (h : StopsAt chars s) : advanceto s chars = [] := by
  simp only [advanceto, strcspn_stop h, if_true, List.drop_length]

theorem advanceby_append (word rest : List UInt8) : advanceby (word ++ rest) word = some rest := by
  induction word with
  | nil =>
    cases rest with
    | nil => rfl
    | cons _ _ => rfl
  | cons c word ih => simp [advanceby, ih]

theorem putOption_room {nopts : UInt32} {options : List McOption} (option : McOption)
    (h : options.length < nopts.toNat) :
    putOption nopts options option = .ok (options ++ [option]) :=
  if_pos h

/-! ## Section 3: The host -/

theorem getscheme_text {scheme rest : List UInt8} (hscheme : ∀ c ∈ scheme, c ≠ colon)
    (hshort : Short scheme) : getscheme (scheme ++ (colon :: rest)) = .ok (some scheme) := by
  have hin : colon ∈ scheme ++ (colon :: rest) := by simp
  have hspan : strcspn (scheme ++ (colon :: rest)) [colon] = scheme.length :=
    strcspn_append (by simpa using hscheme) (by simp)
  rw [getscheme, if_pos hin, hspan, msCopyCstr_short hshort]
  rfl

/-- What stands in front of the host holds no terminator. -/
theorem scheme_noZero {scheme : List UInt8} (hscheme : scheme = schemeCoap ∨ scheme = schemeCoaps) :
    ∀ c ∈ scheme ++ schemeEnd, c ≠ 0 := by
  rcases hscheme with rfl | rfl
  · simp [schemeCoap, schemeEnd, colon, slash]
  · simp [schemeCoaps, schemeEnd, colon, slash]

/-- A valid scheme is found, whatever follows. -/
theorem uriHost_scheme {scheme rest : List UInt8}
    (hscheme : scheme = schemeCoap ∨ scheme = schemeCoaps) :
    uriHost (scheme ++ (schemeEnd ++ rest)) = hostAt rest := by
  have hfree : ∀ c ∈ scheme, c ≠ colon := by
    rcases hscheme with rfl | rfl
    · simp [schemeCoap, colon]
    · simp [schemeCoaps, colon]
  have hshort : Short scheme := by
    rcases hscheme with rfl | rfl <;> simp [Short, schemeCoap, schemeCoaps]
  have hne : scheme ≠ [] := by
    rcases hscheme with rfl | rfl <;> decide
  have hvalid : validscheme (some scheme) = true := by
    rcases hscheme with rfl | rfl <;> decide
  have hadvance : advanceto (scheme ++ (schemeEnd ++ rest)) [colon] = schemeEnd ++ rest :=
    advanceto_append hne (by simpa using hfree) (by simp [schemeEnd])
  have hcolons : advanceby (schemeEnd ++ rest) [colon, slash, slash] = some rest :=
    advanceby_append schemeEnd rest
  have hget : getscheme (scheme ++ (schemeEnd ++ rest)) = .ok (some scheme) :=
    getscheme_text hfree hshort
  rw [uriHost, hget]
  simp only [bind, Except.bind, hvalid, if_true, hadvance, hcolons]

/-- A name goes up to the next ':' or '/'. -/
theorem hostAt_name {host rest : List UInt8} (hne : host ≠ [])
    (hfree : ∀ c ∈ host, c ∉ [colon, slash, question, openBracket]) (hshort : Short host)
    (hrest : StopsAt [colon, slash] rest) : hostAt (host ++ rest) = .ok (some (host, rest)) := by
  have hlen : host.length ≠ 0 := fun h => hne (List.eq_nil_of_length_eq_zero h)
  have hopen : ¬ (host ++ rest).head? = some openBracket := by
    obtain ⟨c, cs, rfl⟩ := List.exists_cons_of_ne_nil hne
    intro h
    have hc : c = openBracket := by simpa using h
    exact hfree c List.mem_cons_self (by simp [hc])
  have hspan : strcspn (host ++ rest) [colon, slash] = host.length := by
    apply strcspn_append _ hrest
    intro c hc hin
    apply hfree c hc
    simp only [List.mem_cons, List.not_mem_nil, or_false] at hin ⊢
    tauto
  have hget : getaddress (host ++ rest) = .ok (some host) := by
    rw [getaddress, if_neg hopen, gethost, hspan, msCopyCstr_short hshort]
    rfl
  rw [hostAt, hget]
  simp only [bind, Except.bind, if_neg hlen, if_neg hopen, pointerAdd_append]
  rfl

/-- A literal goes up to its bracket, whatever follows. -/
theorem hostAt_literal {host : List UInt8} (rest : List UInt8) (hne : host ≠ [])
    (hfree : ∀ c ∈ host, c ∉ [closeBracket]) (hshort : Short host) :
    hostAt (openBracket :: (host ++ [closeBracket]) ++ rest) = .ok (some (host, rest)) := by
  have hlen : host.length ≠ 0 := fun h => hne (List.eq_nil_of_length_eq_zero h)
  have hopen : (openBracket :: (host ++ [closeBracket]) ++ rest).head? = some openBracket := rfl
  have htail : openBracket :: (host ++ [closeBracket]) ++ rest =
      [openBracket] ++ (host ++ (closeBracket :: rest)) := by simp
  have hspan : strcspn (host ++ (closeBracket :: rest)) [closeBracket] = host.length :=
    strcspn_append hfree (by simp)
  have hclose : ¬ ((host ++ (closeBracket :: rest)).drop host.length).head? ≠
      some closeBracket := by
    rw [List.drop_left]
    simp
  have hget : getaddress (openBracket :: (host ++ [closeBracket]) ++ rest) = .ok (some host) := by
    rw [getaddress, if_pos hopen, getip6host, htail, advanceby_append]
    simp only [hspan, if_neg hlen, if_neg hclose, msCopyCstr_short hshort]
    rfl
  -- two for the brackets, although only one is behind the pointer yet
  have hskip : pointerAdd (openBracket :: (host ++ [closeBracket]) ++ rest) 2 =
      .ok ((host ++ (closeBracket :: rest)).drop 1) := by
    rw [pointerAdd, if_pos (by simp; omega)]
    simp
  have hmove : pointerAdd ((host ++ (closeBracket :: rest)).drop 1) host.length = .ok rest := by
    obtain ⟨c, cs, rfl⟩ := List.exists_cons_of_ne_nil hne
    have hmove := pointerAdd_append (cs ++ [closeBracket]) rest
    simpa using hmove
  rw [hostAt, hget]
  simp only [bind, Except.bind, if_neg hlen, if_pos hopen, hskip, hmove]
  rfl

theorem uriHost_text {scheme host text rest : List UInt8}
    (hscheme : scheme = schemeCoap ∨ scheme = schemeCoaps) (htext : HostText host text)
    (hshort : Short host) (hrest : StopsAt [colon, slash] rest) :
    uriHost (scheme ++ (schemeEnd ++ (text ++ rest))) = .ok (some (host, rest)) := by
  rw [uriHost_scheme hscheme]
  cases htext with
  | name hne hfree => exact hostAt_name hne hfree hshort hrest
  | literal hne hfree => exact hostAt_literal rest hne hfree hshort

/-! ## Section 4: The components -/

theorem getcomponent_word {first last w rest : List UInt8} {c : UInt8} (hc : c ∈ first)
    (hw : ∀ d ∈ w, d ∉ last) (hrest : StopsAt last rest) (hshort : Short w) :
    getcomponent first last (c :: (w ++ rest)) = .ok (some w) := by
  rw [getcomponent, if_neg (not_not_intro hc), strcspn_append hw hrest, msCopyCstr_short hshort]
  rfl

theorem getcomponent_none {first last s : List UInt8} (h : ∀ c ∈ s.head?, c ∉ first) :
    getcomponent first last s = .ok none := by
  cases s with
  | nil => rfl
  | cons c current =>
    rw [getcomponent, if_pos (h c rfl)]
    rfl

/-- One iteration: the word behind a delimiter becomes an option. -/
theorem componentsLoop_word {first last w rest : List UInt8} {c : UInt8} {optionNum : UInt16}
    {nopts : UInt32} {options : List McOption} (fuel : Nat) (hc : c ∈ first) (hne : w ≠ [])
    (hw : ∀ d ∈ w, d ∉ last) (hrest : StopsAt last rest) (hshort : Short w)
    (hroom : options.length < nopts.toNat) :
    componentsLoop (getcomponent first last) optionNum last nopts (fuel + 1) options
        (c :: (w ++ rest)) =
      componentsLoop (getcomponent first last) optionNum last nopts fuel
        (options ++ [mcOptionInitStr optionNum w]) rest := by
  rw [componentsLoop, getcomponent_word hc hw hrest hshort]
  simp only [bind, Except.bind, putOption_room _ hroom, pointerAdd_one,
    advanceto_append hne hw hrest]

theorem componentsLoop_end {first last rest : List UInt8} {optionNum : UInt16} {nopts : UInt32}
    {options : List McOption} (fuel : Nat) (hend : ∀ c ∈ rest.head?, c ∉ first) :
    componentsLoop (getcomponent first last) optionNum last nopts (fuel + 1) options rest =
      .ok (options, rest) := by
  rw [componentsLoop, getcomponent_none hend]
  rfl

/-- An empty word becomes an option, and the pointer goes to the end. -/
theorem componentsLoop_empty {first last rest : List UInt8} {c : UInt8} {optionNum : UInt16}
    {nopts : UInt32} {options : List McOption} (fuel : Nat) (hc : c ∈ first)
    (hrest : StopsAt last rest) (hroom : options.length < nopts.toNat) :
    componentsLoop (getcomponent first last) optionNum last nopts (fuel + 2) options (c :: rest) =
      .ok (options ++ [mcOptionInitStr optionNum []], []) := by
  have hget : getcomponent first last (c :: rest) = .ok (some []) :=
    getcomponent_word hc (w := []) (fun _ hd => absurd hd List.not_mem_nil) hrest
      (show 0 < 2 ^ 32 - 1 by omega)
  rw [componentsLoop, hget]
  simp only [bind, Except.bind, putOption_room _ hroom, pointerAdd_one, advanceto_stop hrest]
  exact componentsLoop_end fuel (by simp)

/-- The words up to the first empty one, with it. -/
def upToEmpty : List (List UInt8) → List (List UInt8)
  | [] => []
  | w :: words => if w = [] then [[]] else w :: upToEmpty words

theorem upToEmpty_of_nonempty {words : List (List UInt8)} (h : ∀ w ∈ words, w ≠ []) :
    upToEmpty words = words := by
  induction words with
  | nil => rfl
  | cons w words ih =>
    rw [upToEmpty, if_neg (h w List.mem_cons_self),
      ih fun v hv => h v (List.mem_cons_of_mem _ hv)]

theorem upToEmpty_length (words : List (List UInt8)) :
    (upToEmpty words).length ≤ words.length := by
  induction words with
  | nil => exact Nat.le_refl 0
  | cons w words ih =>
    rw [upToEmpty]
    split
    · exact Nat.succ_le_succ (Nat.zero_le _)
    · exact Nat.succ_le_succ ih

/-- Every word up to the first empty one becomes one option, in their order;
    an empty one takes the pointer to the end. -/
theorem componentsLoop_found {first last rest : List UInt8} {c : UInt8} {optionNum : UInt16}
    {nopts : UInt32} {words : List (List UInt8)} (options : List McOption) (fuel : Nat)
    (hc : c ∈ first) (hlast : c ∈ last) (hfree : ∀ w ∈ words, ∀ d ∈ w, d ∉ last)
    (hshort : ∀ w ∈ words, Short w) (hrest : StopsAt last rest)
    (hend : ∀ d ∈ rest.head?, d ∉ first) (hroom : options.length + words.length ≤ nopts.toNat)
    (hfuel : words.length < fuel) :
    componentsLoop (getcomponent first last) optionNum last nopts fuel options
        (words.flatMap (c :: ·) ++ rest) =
      .ok (options ++ (upToEmpty words).map (mcOptionInitStr optionNum),
        if [] ∈ words then [] else rest) := by
  induction words generalizing options fuel with
  | nil =>
    obtain ⟨fuel, rfl⟩ : ∃ k, fuel = k + 1 := ⟨fuel - 1, by simp at hfuel; omega⟩
    rw [List.flatMap_nil, List.nil_append, componentsLoop_end fuel hend, upToEmpty, List.map_nil,
      List.append_nil, if_neg List.not_mem_nil]
  | cons w words ih =>
    simp only [List.length_cons] at hroom hfuel
    obtain ⟨fuel, rfl⟩ : ∃ k, fuel = k + 2 := ⟨fuel - 2, by omega⟩
    -- the next word, or what is behind the last one, starts with a delimiter
    have hstop : StopsAt last (words.flatMap (c :: ·) ++ rest) := by
      cases words with
      | nil => exact hrest
      | cons _ _ => exact (stopsAt_cons _ _ _).mpr hlast
    rw [List.flatMap_cons, List.cons_append, List.cons_append, List.append_assoc]
    by_cases hne : w = []
    · subst hne
      rw [List.nil_append, componentsLoop_empty fuel hc hstop (by omega), upToEmpty, if_pos rfl,
        if_pos List.mem_cons_self]
      rfl
    · have htail := ih (options ++ [mcOptionInitStr optionNum w]) (fuel + 1)
        (fun v hv => hfree v (List.mem_cons_of_mem _ hv))
        (fun v hv => hshort v (List.mem_cons_of_mem _ hv)) (by simp; omega) (by omega)
      have hmem : [] ∈ w :: words ↔ [] ∈ words := by
        simp [Ne.symm hne]
      rw [componentsLoop_word (fuel + 1) hc hne (hfree w List.mem_cons_self) hstop
          (hshort w List.mem_cons_self) (by omega), htail, upToEmpty, if_neg hne, List.map_cons,
        List.append_assoc, List.singleton_append]
      simp only [hmem]

/-- The delimiters `estimatenopts` counts are at least the components. -/
theorem words_le_count (c : UInt8) (hc : c ∈ [slash, question, ampersand])
    (words : List (List UInt8)) (rest : List UInt8) :
    words.length + rest.countP (· ∈ [slash, question, ampersand]) ≤
      (words.flatMap (c :: ·) ++ rest).countP (· ∈ [slash, question, ampersand]) := by
  induction words with
  | nil => simp
  | cons w words ih =>
    rw [List.flatMap_cons, List.append_assoc, List.cons_append, List.countP_cons,
      List.countP_append, List.length_cons]
    simp only [hc, decide_true, if_true]
    omega

/-! ## Section 5: The port -/

theorem isdigit_iff (c : UInt8) : isdigit c = true ↔ 0x30 ≤ c.toNat ∧ c.toNat ≤ 0x39 := by
  simp only [isdigit, Bool.and_eq_true, decide_eq_true_eq, UInt8.le_iff_toNat_le]
  exact Iff.rfl

theorem isdigit_free {c : UInt8} (h : isdigit c = true) : c ∉ [colon, slash, question] := by
  rw [isdigit_iff] at h
  intro hin
  simp only [List.mem_cons, List.not_mem_nil, or_false] at hin
  rcases hin with rfl | rfl | rfl <;> exact absurd h (by decide)

/-- A port text, and whatever follows it. -/
theorem getport_text (overflow : Int → Int) {port rest : List UInt8}
    (hdigits : ∀ c ∈ port, isdigit c = true) (hlow : 1 ≤ decimal port)
    (hhigh : decimal port ≤ 65535) (hrest : ∀ c ∈ rest.head?, isdigit c = false)
    (hshort : strcspn (port ++ rest) [slash] < 2 ^ 32 - 1) :
    getport overflow (colon :: (port ++ rest)) = .ok (UInt32.ofNat (decimal port)) := by
  have hne : port ≠ [] := by
    intro h
    rw [h] at hlow
    exact absurd hlow (by decide)
  have hhead : ¬ (colon :: (port ++ rest)).head? ≠ some colon := not_not_intro rfl
  have hcolon : advanceby (colon :: (port ++ rest)) [colon] = some (port ++ rest) :=
    advanceby_append [colon] (port ++ rest)
  -- the text that is copied goes on to the next '/'
  obtain ⟨extra, tail, rfl, hextra, htail⟩ := exists_span rest [slash]
  have hfree : ∀ c ∈ port ++ extra, c ∉ [slash] := by
    intro c hc
    rcases List.mem_append.mp hc with hc | hc
    · intro hin
      apply isdigit_free (hdigits c hc)
      simp only [List.mem_cons, List.not_mem_nil, or_false] at hin ⊢
      exact Or.inr (Or.inl hin)
    · exact hextra c hc
  rw [← List.append_assoc] at hshort ⊢
  rw [strcspn_append hfree htail] at hshort
  have hcopy : msCopyCstr (UInt32.ofNat (strcspn (port ++ extra ++ tail) [slash]))
      (port ++ extra ++ tail) = .ok (port ++ extra) := by
    rw [strcspn_append hfree htail]
    exact msCopyCstr_short hshort
  have hnodigit : ∀ c ∈ extra.head?, isdigit c = false := by
    intro c hc
    apply hrest c
    cases extra with
    | nil => cases hc
    | cons d ds => exact hc
  have hread : atoi overflow (port ++ extra) = decimal port :=
    atoi_digits overflow hdigits hne hnodigit (by omega)
  have hport : UInt32.ofInt (decimal port : Int) = UInt32.ofNat (decimal port) :=
    ofInt32_natCast (by omega)
  have hpos : ¬ UInt32.ofNat (decimal port) = 0 := by
    intro h
    have hn := congrArg UInt32.toNat h
    rw [ofNat32_toNat (by omega), UInt32.toNat_zero] at hn
    omega
  rw [← List.append_assoc] at hhead hcolon
  rw [getport, if_neg hhead, hcolon]
  simp only [bind, Except.bind, hcopy, hread, hport, if_neg hpos]
  rfl

/-- Without a ':' it is the default port. -/
theorem getport_none (overflow : Int → Int) {rest : List UInt8}
    (h : rest.head? ≠ some colon) : getport overflow rest = .ok mcDefaultPort := by
  rw [getport, if_pos h]
  rfl

/-! ## Section 6: Decomposition -/

/-- A URI by its parts: scheme://host:port, the path and the query. -/
structure UriParts where
  scheme        : List UInt8
  host          : List UInt8
  text          : List UInt8
  port          : List UInt8
  segments      : List (List UInt8)
  arguments     : List (List UInt8)
  validScheme   : scheme = schemeCoap ∨ scheme = schemeCoaps
  hostText      : HostText host text
  portDigits    : ∀ c ∈ port, isdigit c = true
  portLow       : 1 ≤ decimal port
  portHigh      : decimal port ≤ 65535
  segmentsFree  : ∀ s ∈ segments, s ≠ [] ∧ ∀ c ∈ s, c ∉ [slash, question]
  argumentsFree : ∀ a ∈ arguments, a ≠ [] ∧ ∀ c ∈ a, c ∉ [ampersand]
  noZero        : ∀ w ∈ host :: (segments ++ arguments), ∀ c ∈ w, c ≠ 0

namespace UriParts

variable (parts : UriParts)

/-- The path and the query. -/
def tail : List UInt8 := pathText parts.segments ++ queryText parts.arguments

def uri : List UInt8 :=
  parts.scheme ++ (schemeEnd ++ (parts.text ++ (colon :: (parts.port ++ parts.tail))))

/-- What the parser copies in one piece fits the `uint32_t` of
    `ms_copy_cstr` (the port is copied with what follows it up to the next
    '/'), and the option array a `uint32_t` of slots. -/
structure Fits : Prop where
  host      : Short parts.host
  port      : strcspn (parts.port ++ parts.tail) [slash] < 2 ^ 32 - 1
  segments  : ∀ s ∈ parts.segments, Short s
  arguments : ∀ a ∈ parts.arguments, Short a
  slots     : parts.tail.countP (· ∈ [slash, question, ampersand]) + 2 < 2 ^ 32

/-- The options of the path and of the query. -/
def components : List McOption :=
  parts.segments.map (mcOptionInitStr optionUriPath) ++
    parts.arguments.map (mcOptionInitStr optionUriQuery)

/-- The options of host and port. -/
def authority : List McOption :=
  [mcOptionInitStr optionUriHost parts.host,
    mcOptionInitUint32 optionUriPort (UInt32.ofNat (decimal parts.port))]

/-- The destination is the address the URI names. -/
def elided (env : UriEnv) (dest : Option SockAddr) : Bool :=
  equaladdr env.past (mnSockaddrInetInit env.resolve env.uriaddr parts.host
    (UInt32.ofNat (decimal parts.port)).toUInt16).2 dest

end UriParts

theorem queryText_head (arguments : List (List UInt8)) :
    ∀ c ∈ (queryText arguments).head?, c = question := by
  intro c hc
  cases arguments with
  | nil => cases hc
  | cons a rest =>
    cases hc
    rfl

theorem tail_stops (segments arguments : List (List UInt8)) :
    StopsAt [slash, question] (pathText segments ++ queryText arguments) := by
  cases segments with
  | nil =>
    intro c hc
    rw [queryText_head arguments c hc]
    simp
  | cons s rest => exact (stopsAt_cons _ _ _).mpr (by simp)

theorem components_le_count (segments arguments : List (List UInt8)) :
    segments.length + arguments.length ≤
      (pathText segments ++ queryText arguments).countP (· ∈ [slash, question, ampersand]) := by
  have hpath := words_le_count slash (by simp) segments (queryText arguments)
  have hquery : arguments.length ≤
      (queryText arguments).countP (· ∈ [slash, question, ampersand]) := by
    cases arguments with
    | nil => simp
    | cons a rest =>
      have hrest := words_le_count ampersand (by simp) rest []
      rw [List.append_nil] at hrest
      rw [queryText, List.countP_cons, List.countP_append, List.length_cons]
      simp
      simp at hrest
      omega
  unfold pathText
  omega

/-- The loop over the arguments. -/
theorem queriesLoop_found {nopts : UInt32} (options : List McOption)
    {arguments : List (List UInt8)} (hfree : ∀ a ∈ arguments, ∀ c ∈ a, c ∉ [ampersand])
    (hshort : ∀ a ∈ arguments, Short a)
    (hroom : options.length + arguments.length ≤ nopts.toNat) :
    queriesLoop nopts options (queryText arguments) =
      .ok (options ++ (upToEmpty arguments).map (mcOptionInitStr optionUriQuery), []) := by
  unfold queriesLoop getquery
  cases arguments with
  | nil =>
    rw [componentsLoop_end _ (by simp [queryText]), upToEmpty, List.map_nil, List.append_nil]
    rfl
  | cons a rest =>
    rw [List.length_cons] at hroom
    have hstop : StopsAt [ampersand] (rest.flatMap (ampersand :: ·)) := by
      cases rest with
      | nil => exact stopsAt_nil _
      | cons _ _ => exact (stopsAt_cons _ _ _).mpr (by simp)
    -- every argument has its delimiter, so the string is longer than the list
    have hlen : rest.length < (question :: (a ++ rest.flatMap (ampersand :: ·))).length := by
      have hcount := words_le_count ampersand (by simp) rest []
      have hle := List.countP_le_length (p := (· ∈ [slash, question, ampersand]))
        (l := rest.flatMap (ampersand :: ·))
      simp only [List.append_nil, List.countP_nil, Nat.add_zero] at hcount
      simp only [List.length_cons, List.length_append]
      omega
    by_cases hne : a = []
    · subst hne
      rw [queryText, List.nil_append, List.length_cons, componentsLoop_empty _ (by simp) hstop
        (by omega), upToEmpty, if_pos rfl]
      rfl
    · have hwords : componentsLoop (getcomponent [question, ampersand] [ampersand]) optionUriQuery
          [ampersand] nopts (question :: (a ++ rest.flatMap (ampersand :: ·))).length
          (options ++ [mcOptionInitStr optionUriQuery a]) (rest.flatMap (ampersand :: ·) ++ []) =
          .ok (options ++ [mcOptionInitStr optionUriQuery a] ++
            (upToEmpty rest).map (mcOptionInitStr optionUriQuery),
            if [] ∈ rest then [] else []) :=
        componentsLoop_found _ _ (by simp) (by simp)
          (fun w hw => hfree w (List.mem_cons_of_mem _ hw))
          (fun w hw => hshort w (List.mem_cons_of_mem _ hw)) (stopsAt_nil _) (by simp)
          (by simp; omega) hlen
      rw [List.append_nil, ite_self] at hwords
      rw [queryText, componentsLoop_word _ (by simp) hne (hfree a List.mem_cons_self) hstop
        (hshort a List.mem_cons_self) (by omega), hwords, upToEmpty, if_neg hne, List.map_cons,
        List.append_assoc, List.singleton_append]

/-- Both loops over the path and the query.  An empty segment ends both. -/
theorem uriComponents_found {nopts : UInt32} (options : List McOption)
    {segments arguments : List (List UInt8)}
    (hsegments : ∀ s ∈ segments, ∀ c ∈ s, c ∉ [slash, question])
    (hsegmentsShort : ∀ s ∈ segments, Short s)
    (harguments : ∀ a ∈ arguments, ∀ c ∈ a, c ∉ [ampersand])
    (hargumentsShort : ∀ a ∈ arguments, Short a)
    (hroom : options.length + (segments.length + arguments.length) ≤ nopts.toNat) :
    uriComponents nopts options (pathText segments ++ queryText arguments) =
      .ok (options ++ ((upToEmpty segments).map (mcOptionInitStr optionUriPath) ++
        (if [] ∈ segments then [] else upToEmpty arguments).map
          (mcOptionInitStr optionUriQuery))) := by
  have hstop : StopsAt [slash, question] (queryText arguments) := tail_stops [] arguments
  have hend : ∀ c ∈ (queryText arguments).head?, c ∉ [slash] := by
    intro c hc
    rw [queryText_head arguments c hc]
    decide
  have hcount := components_le_count segments arguments
  have hlen := List.countP_le_length (p := (· ∈ [slash, question, ampersand]))
    (l := pathText segments ++ queryText arguments)
  have hpaths : pathsLoop nopts options (pathText segments ++ queryText arguments) =
      .ok (options ++ (upToEmpty segments).map (mcOptionInitStr optionUriPath),
        if [] ∈ segments then [] else queryText arguments) :=
    componentsLoop_found options _ (by simp) (by simp) hsegments hsegmentsShort hstop hend
      (by omega) (by omega)
  have hstored := upToEmpty_length segments
  rw [uriComponents, hpaths]
  by_cases hempty : [] ∈ segments
  -- the query loop starts at the end of the string
  · have hqueries : queriesLoop nopts
        (options ++ (upToEmpty segments).map (mcOptionInitStr optionUriPath)) [] =
        .ok (options ++ (upToEmpty segments).map (mcOptionInitStr optionUriPath), []) :=
      componentsLoop_end _ (by simp)
    simp only [bind, Except.bind, if_pos hempty, hqueries, List.map_nil, List.append_nil]
    rfl
  · have hqueries := queriesLoop_found
      (options ++ (upToEmpty segments).map (mcOptionInitStr optionUriPath)) harguments
      hargumentsShort (show _ ≤ nopts.toNat by simp; omega)
    simp only [bind, Except.bind, if_neg hempty, hqueries, List.append_assoc]
    rfl

/-- The same for words that are not empty. -/
theorem uriComponents_text {nopts : UInt32} (options : List McOption)
    {segments arguments : List (List UInt8)}
    (hsegments : ∀ s ∈ segments, s ≠ [] ∧ ∀ c ∈ s, c ∉ [slash, question])
    (hsegmentsShort : ∀ s ∈ segments, Short s)
    (harguments : ∀ a ∈ arguments, a ≠ [] ∧ ∀ c ∈ a, c ∉ [ampersand])
    (hargumentsShort : ∀ a ∈ arguments, Short a)
    (hroom : options.length + (segments.length + arguments.length) ≤ nopts.toNat) :
    uriComponents nopts options (pathText segments ++ queryText arguments) =
      .ok (options ++ (segments.map (mcOptionInitStr optionUriPath) ++
        arguments.map (mcOptionInitStr optionUriQuery))) := by
  have hempty : [] ∉ segments := fun h => (hsegments [] h).1 rfl
  rw [uriComponents_found options (fun s hs => (hsegments s hs).2) hsegmentsShort
    (fun a ha => (harguments a ha).2) hargumentsShort hroom, if_neg hempty,
    upToEmpty_of_nonempty fun s hs => (hsegments s hs).1,
    upToEmpty_of_nonempty fun a ha => (harguments a ha).1]

/-- The array has a slot for everything: host and port are stored, or not,
    and what the loops then do holds of the whole array. -/
theorem uriOptions_room {env : UriEnv} {current rest : List UInt8} {number : UInt32}
    {P : List McOption → List McOption → Prop} (dest : Option SockAddr) (host : List UInt8)
    (hport : getport env.overflow current = .ok number)
    (hadvance : advanceto current [slash, question] = rest)
    (hslots : rest.countP (· ∈ [slash, question, ampersand]) + 2 < 2 ^ 32)
    (hcomponents : ∀ (nopts : UInt32) (options : List McOption),
      options.length + rest.countP (· ∈ [slash, question, ampersand]) ≤ nopts.toNat →
        ∃ options', uriComponents nopts options rest = .ok options' ∧ P options options') :
    ∃ options, uriOptions env dest host current = .ok options ∧
      P (if equaladdr env.past (mnSockaddrInetInit env.resolve env.uriaddr host
          number.toUInt16).2 dest then []
        else [mcOptionInitStr optionUriHost host, mcOptionInitUint32 optionUriPort number])
        options := by
  have hnopts : (estimatenopts rest).toNat = rest.countP (· ∈ [slash, question, ampersand]) :=
    ofNat32_toNat (by omega)
  rw [uriOptions, hport]
  simp only [bind, Except.bind, hadvance]
  by_cases helided : equaladdr env.past (mnSockaddrInetInit env.resolve env.uriaddr host
      number.toUInt16).2 dest = true
  · rw [if_pos helided, if_pos helided]
    exact hcomponents _ [] (by rw [List.length_nil]; omega)
  · have htwo : (estimatenopts rest + 2).toNat =
        rest.countP (· ∈ [slash, question, ampersand]) + 2 := by
      rw [position_no_wrap (by rw [hnopts]; exact hslots), hnopts]
      rfl
    rw [if_neg helided, if_neg helided, putOption_room _ (by rw [List.length_nil]; omega)]
    simp only [List.nil_append]
    rw [putOption_room _ (by rw [List.length_singleton]; omega), List.singleton_append]
    exact hcomponents _ _ (by rw [List.length_cons, List.length_singleton]; omega)

/-- The second half of the parser, from what the loops make of the path and
    the query. -/
theorem uriOptions_found {env : UriEnv} {port tail : List UInt8} {number : UInt32}
    {found : List McOption} (dest : Option SockAddr) (host : List UInt8)
    (hport : getport env.overflow (colon :: (port ++ tail)) = .ok number)
    (hfree : ∀ c ∈ port, c ∉ [slash, question]) (hstops : StopsAt [slash, question] tail)
    (hslots : tail.countP (· ∈ [slash, question, ampersand]) + 2 < 2 ^ 32)
    (hfound : ∀ (nopts : UInt32) (options : List McOption),
      options.length + tail.countP (· ∈ [slash, question, ampersand]) ≤ nopts.toNat →
        uriComponents nopts options tail = .ok (options ++ found)) :
    uriOptions env dest host (colon :: (port ++ tail)) =
      .ok ((if equaladdr env.past (mnSockaddrInetInit env.resolve env.uriaddr host
          number.toUInt16).2 dest then []
        else [mcOptionInitStr optionUriHost host, mcOptionInitUint32 optionUriPort number]) ++
          found) := by
  have hadvance : advanceto (colon :: (port ++ tail)) [slash, question] = tail := by
    apply advanceto_append (List.cons_ne_nil colon port) _ hstops
    intro c hc
    rcases List.mem_cons.mp hc with rfl | hc
    · decide
    · exact hfree c hc
  obtain ⟨options, hoptions, rfl⟩ := uriOptions_room
    (P := fun options options' => options' = options ++ found) dest host hport hadvance hslots
    fun nopts options hroom => ⟨_, hfound nopts options hroom, rfl⟩
  exact hoptions

theorem delimited_noZero {words : List (List UInt8)} (c : UInt8) (hc : c ≠ 0)
    (hwords : ∀ w ∈ words, ∀ d ∈ w, d ≠ 0) : ∀ d ∈ words.flatMap (c :: ·), d ≠ 0 := by
  intro d hd
  obtain ⟨w, hw, hd⟩ := List.mem_flatMap.mp hd
  rcases List.mem_cons.mp hd with rfl | hd
  · exact hc
  · exact hwords w hw d hd

theorem HostText.noZero {host text : List UInt8} (h : HostText host text)
    (hhost : ∀ c ∈ host, c ≠ 0) : ∀ c ∈ text, c ≠ 0 := by
  cases h with
  | name _ _ => exact hhost
  | literal _ _ =>
    intro c hc
    simp only [List.mem_cons, List.mem_append, List.not_mem_nil, or_false] at hc
    rcases hc with rfl | hc | rfl
    · decide
    · exact hhost c hc
    · decide

theorem queryText_noZero {arguments : List (List UInt8)}
    (h : ∀ a ∈ arguments, ∀ c ∈ a, c ≠ 0) : ∀ c ∈ queryText arguments, c ≠ 0 := by
  cases arguments with
  | nil => exact fun c hc => absurd hc List.not_mem_nil
  | cons a rest =>
    have hrest := delimited_noZero ampersand (by decide)
      fun w hw => h w (List.mem_cons_of_mem _ hw)
    intro c hc
    rw [queryText, List.mem_cons, List.mem_append] at hc
    rcases hc with rfl | hc | hc
    · decide
    · exact h a List.mem_cons_self c hc
    · exact hrest c hc

namespace UriParts

variable (parts : UriParts)

theorem uri_noZero : ∀ c ∈ parts.uri, c ≠ 0 := by
  have hwords := parts.noZero
  have hpath : ∀ c ∈ pathText parts.segments, c ≠ 0 := delimited_noZero slash (by decide)
    fun w hw => hwords w (List.mem_cons_of_mem _ (List.mem_append_left _ hw))
  have hquery : ∀ c ∈ queryText parts.arguments, c ≠ 0 := queryText_noZero
    fun w hw => hwords w (List.mem_cons_of_mem _ (List.mem_append_right _ hw))
  have hhost := parts.hostText.noZero (hwords _ List.mem_cons_self)
  have hport : ∀ c ∈ parts.port, c ≠ 0 := by
    intro c hc h0
    have hdigit := (isdigit_iff c).mp (parts.portDigits c hc)
    rw [h0] at hdigit
    exact absurd hdigit (by decide)
  have hscheme := scheme_noZero parts.validScheme
  intro c hc
  rw [uri, tail] at hc
  simp only [List.mem_append, List.mem_cons] at hc
  rcases hc with hc | hc | hc | rfl | hc | hc | hc
  · exact hscheme c (List.mem_append_left _ hc)
  · exact hscheme c (List.mem_append_right _ hc)
  · exact hhost c hc
  · decide
  · exact hport c hc
  · exact hpath c hc
  · exact hquery c hc

/-- The array of options, in the order they are written in. -/
theorem uriArray_uri (hfits : parts.Fits) (env : UriEnv) (dest : Option SockAddr) :
    uriArray env dest parts.uri =
      .ok (some ((if parts.elided env dest then [] else parts.authority) ++ parts.components)) := by
  have hcount := components_le_count parts.segments parts.arguments
  have hhost : uriHost (cstring parts.uri) =
      .ok (some (parts.host, colon :: (parts.port ++ parts.tail))) := by
    rw [cstring_of_noZero parts.uri_noZero]
    exact uriHost_text parts.validScheme parts.hostText hfits.host (by simp)
  -- behind the port stands a delimiter, or the end
  have hstops : StopsAt [slash, question] parts.tail := tail_stops _ _
  have hnodigit : ∀ c ∈ parts.tail.head?, isdigit c = false := by
    intro c hc
    by_contra hdigit
    have hin := hstops c hc
    apply isdigit_free (Bool.not_eq_false _ ▸ hdigit : isdigit c = true)
    exact List.mem_cons_of_mem _ hin
  have hport := getport_text env.overflow parts.portDigits parts.portLow parts.portHigh hnodigit
    hfits.port
  have hfree : ∀ c ∈ parts.port, c ∉ [slash, question] :=
    fun c hc hin => isdigit_free (parts.portDigits c hc) (List.mem_cons_of_mem _ hin)
  have hcomponents : ∀ (nopts : UInt32) (options : List McOption),
      options.length + parts.tail.countP (· ∈ [slash, question, ampersand]) ≤ nopts.toNat →
      uriComponents nopts options parts.tail = .ok (options ++ parts.components) := by
    intro nopts options hroom
    have hroom : options.length + (pathText parts.segments ++ queryText parts.arguments).countP
      (· ∈ [slash, question, ampersand]) ≤ nopts.toNat := hroom
    exact uriComponents_text options parts.segmentsFree hfits.segments parts.argumentsFree
      hfits.arguments (by omega)
  have hoptions := uriOptions_found dest parts.host hport hfree hstops hfits.slots hcomponents
  rw [uriArray, hhost]
  simp only [bind, Except.bind, hoptions]
  rfl

end UriParts

/-! ## Section 7: The list -/

/-- A port as the shortest big-endian number. -/
def portValue (port : Nat) : List UInt8 :=
  if port < 256 then [UInt8.ofNat port] else [UInt8.ofNat (port / 256), UInt8.ofNat (port % 256)]

theorem McOption.wire_init (optionNum : UInt16) {bytes : List UInt8} {nbytes : UInt32}
    (h : nbytes.toNat = bytes.length) :
    (mcOptionInit optionNum nbytes bytes).wire = ⟨optionNum.toNat, bytes⟩ := by
  rw [McOption.wire, mcOptionInit, McBuffer.toList, h, slice_ofList]

theorem mcOptionInitStr_wire (optionNum : UInt16) {value : List UInt8} (h : Short value) :
    (mcOptionInitStr optionNum value).wire = ⟨optionNum.toNat, value⟩ := by
  unfold Short at h
  exact McOption.wire_init optionNum (ofNat32_toNat (by omega))

theorem mcOptionInitUint32_wire (optionNum : UInt16) {port : Nat} (h : port ≤ 65535) :
    (mcOptionInitUint32 optionNum (UInt32.ofNat port)).wire =
      ⟨optionNum.toNat, portValue port⟩ := by
  have hport : (UInt32.ofNat port).toNat = port := ofNat32_toNat (by omega)
  have hle : ∀ k : UInt32, UInt32.ofNat port ≤ k ↔ port ≤ k.toNat := by
    intro k
    rw [UInt32.le_iff_toNat_le, hport]
  have h255 : (0xff : UInt32).toNat = 255 := rfl
  have h65535 : (0xffff : UInt32).toNat = 65535 := rfl
  by_cases h8 : port < 256
  · rw [mcOptionInitUint32, if_pos ((hle _).mpr (by omega)), portValue, if_pos h8,
      McOption.wire_init _ rfl]
    simp
  · have hhigh : ((UInt32.ofNat port).toUInt16 >>> 8).toUInt8 = UInt8.ofNat (port / 256) := by
      apply UInt8.toNat_inj.mp
      simp [UInt16.toNat_shiftRight, Nat.shiftRight_eq_div_pow]
      omega
    have hlow : (UInt32.ofNat port).toUInt16.toUInt8 = UInt8.ofNat (port % 256) := by
      apply UInt8.toNat_inj.mp
      simp
    rw [mcOptionInitUint32, if_neg (fun hc => h8 (by have := (hle _).mp hc; omega)),
      if_pos ((hle _).mpr (by omega)), portValue, if_neg h8, McOption.wire_init _ rfl,
      image16_swap, hhigh, hlow]

theorem mcOptionInitUint32_num (optionNum : UInt16) (value : UInt32) :
    (mcOptionInitUint32 optionNum value).optionNum = optionNum := by
  unfold mcOptionInitUint32
  split
  · rfl
  · split <;> rfl

theorem sorted_same (optionNum : UInt16) (words : List (List UInt8)) :
    Sorted compareOptions (words.map (mcOptionInitStr optionNum)) := by
  rw [Sorted, List.pairwise_map]
  apply List.pairwise_of_forall
  intro _ _
  simp [compareOptions, mcOptionInitStr, mcOptionInit]

namespace UriParts

variable (parts : UriParts)

/-- The loops write the options in the order of their numbers. -/
theorem sorted_array : Sorted compareOptions (parts.authority ++ parts.components) := by
  have hnum : ∀ (optionNum : UInt16) (words : List (List UInt8)),
      ∀ o ∈ words.map (mcOptionInitStr optionNum), o.optionNum = optionNum := by
    intro optionNum words o ho
    obtain ⟨w, _, rfl⟩ := List.mem_map.mp ho
    rfl
  have hport := mcOptionInitUint32_num optionUriPort (UInt32.ofNat (decimal parts.port))
  have hcomponents : ∀ o ∈ parts.components,
      o.optionNum = optionUriPath ∨ o.optionNum = optionUriQuery := by
    intro o ho
    rcases List.mem_append.mp ho with ho | ho
    · exact Or.inl (hnum _ _ o ho)
    · exact Or.inr (hnum _ _ o ho)
  have hsorted : Sorted compareOptions parts.components := by
    rw [components, Sorted, List.pairwise_append]
    refine ⟨sorted_same _ _, sorted_same _ _, ?_⟩
    intro a ha b hb
    rw [compareOptions, hnum _ _ a ha, hnum _ _ b hb]
    decide
  have hbelow : ∀ o ∈ parts.components, 11 ≤ o.optionNum.toNat := by
    intro o ho
    rcases hcomponents o ho with h | h <;> rw [h] <;> decide
  rw [authority, Sorted, List.cons_append, List.cons_append, List.nil_append, List.pairwise_cons,
    List.pairwise_cons]
  refine ⟨?_, ?_, hsorted⟩
  · intro o ho
    rcases List.mem_cons.mp ho with rfl | ho
    · have h37 : (optionUriHost.toNat : Int) - optionUriPort.toNat ≤ 0 := by decide
      rw [compareOptions, hport]
      exact h37
    · have hle := hbelow o ho
      have h3 : (mcOptionInitStr optionUriHost parts.host).optionNum.toNat = 3 := rfl
      rw [compareOptions, h3]
      omega
  · intro o ho
    have hle := hbelow o ho
    have h7 : optionUriPort.toNat = 7 := rfl
    rw [compareOptions, hport, h7]
    omega

theorem components_wire (hfits : parts.Fits) : wireOptions parts.components =
    parts.segments.map (⟨optionUriPath.toNat, ·⟩) ++
      parts.arguments.map (⟨optionUriQuery.toNat, ·⟩) := by
  have hwords : ∀ (optionNum : UInt16) (words : List (List UInt8)), (∀ w ∈ words, Short w) →
      wireOptions (words.map (mcOptionInitStr optionNum)) =
        words.map (⟨optionNum.toNat, ·⟩) := by
    intro optionNum words hshort
    rw [wireOptions, List.map_map]
    apply List.map_congr_left
    intro w hw
    exact mcOptionInitStr_wire optionNum (hshort w hw)
  rw [components, wireOptions, List.map_append]
  exact congrArg₂ _ (hwords _ _ hfits.segments) (hwords _ _ hfits.arguments)

/-- A URI is taken apart into exactly its parts. -/
theorem uri_decomposed (qsort : Qsort McOption) (hq : qsort.Stable) (hfits : parts.Fits)
    (env : UriEnv) :
    ∃ list, mcUriToOptions qsort env none parts.uri = .ok (some list) ∧
      wireOptions list.options =
        ⟨3, parts.host⟩ :: ⟨7, portValue (decimal parts.port)⟩ ::
          (parts.segments.map (⟨11, ·⟩) ++ parts.arguments.map (⟨15, ·⟩)) := by
  have harray : uriArray env none parts.uri = .ok (some (parts.authority ++ parts.components)) :=
    parts.uriArray_uri hfits env none
  refine ⟨mcOptionsListInit qsort (parts.authority ++ parts.components), ?_, ?_⟩
  · rw [mcUriToOptions, harray]
    rfl
  · have hsort : (mcOptionsListInit qsort (parts.authority ++ parts.components)).options =
        parts.authority ++ parts.components :=
      hq.sort_sorted compareOptions_isOrder parts.sorted_array
    have hcomponents := parts.components_wire hfits
    rw [wireOptions] at hcomponents
    rw [hsort, wireOptions, List.map_append, hcomponents, authority, List.map_cons, List.map_cons,
      mcOptionInitStr_wire _ hfits.host, mcOptionInitUint32_wire _ parts.portHigh]
    rfl

end UriParts

/-- The witness: coap://h:1000/a/b?q&r -/
def partsOfGet : UriParts where
  scheme        := schemeCoap
  host          := [0x68]
  text          := [0x68]
  port          := [0x31, 0x30, 0x30, 0x30]
  segments      := [[0x61], [0x62]]
  arguments     := [[0x71], [0x72]]
  validScheme   := Or.inl rfl
  hostText      := HostText.name (by decide) (by simp [colon, slash, question, openBracket])
  portDigits    := by simp [isdigit]
  portLow       := by decide
  portHigh      := by decide
  segmentsFree  := by simp [slash, question]
  argumentsFree := by simp [ampersand]
  noZero        := by simp

theorem partsOfGet_fits : partsOfGet.Fits := by
  constructor
  · exact (by decide : 1 < 2 ^ 32 - 1)
  · exact (by decide : 4 < 2 ^ 32 - 1)
  · show ∀ s ∈ [[0x61], [0x62]], Short s
    simp [Short]
  · show ∀ a ∈ [[0x71], [0x72]], Short a
    simp [Short]
  · exact (by decide : 4 + 2 < 2 ^ 32)

theorem uri_decomposed_get :
    ∃ list, mcUriToOptions (insertion McOption) ⟨fun _ => none, ⟨0, 0, 0, 0⟩, false, id⟩ none
        partsOfGet.uri = .ok (some list) ∧
      wireOptions list.options =
        [⟨3, [0x68]⟩, ⟨7, [0x03, 0xe8]⟩, ⟨11, [0x61]⟩, ⟨11, [0x62]⟩, ⟨15, [0x71]⟩, ⟨15, [0x72]⟩] :=
  partsOfGet.uri_decomposed (insertion McOption) (insertion_stable McOption) partsOfGet_fits _

/-- A host of 2^32 characters is copied as a host of none, and rejected. -/
theorem uriHost_wraps {host rest : List UInt8} (hlen : host.length = 2 ^ 32)
    (hfree : ∀ c ∈ host, c ∉ [colon, slash, question, openBracket])
    (hrest : StopsAt [colon, slash] rest) :
    uriHost (schemeCoap ++ (schemeEnd ++ (host ++ rest))) = .ok none := by
  have hspan : strcspn (host ++ rest) [colon, slash] = 2 ^ 32 := by
    rw [← hlen]
    apply strcspn_append _ hrest
    intro c hc hin
    apply hfree c hc
    simp only [List.mem_cons, List.not_mem_nil, or_false] at hin ⊢
    tauto
  have hopen : ¬ (host ++ rest).head? = some openBracket := by
    intro h
    cases host with
    | nil => simp at hlen
    | cons c cs =>
      have hc : c = openBracket := by simpa using h
      exact hfree c List.mem_cons_self (by simp [hc])
  have hwrap : UInt32.ofNat (2 ^ 32) = 0 := by decide
  have hget : getaddress (host ++ rest) = .ok (some []) := by
    rw [getaddress, if_neg hopen, gethost, hspan, hwrap, msCopyCstr, if_neg (by decide)]
    rfl
  rw [uriHost_scheme (Or.inl rfl), hostAt, hget]
  rfl

/-- coap:// a host of 2^32 characters :1 -/
theorem long_host_rejected :
    mcUriToOptions (insertion McOption) ⟨fun _ => none, ⟨0, 0, 0, 0⟩, false, id⟩ none
      (schemeCoap ++ (schemeEnd ++ (List.replicate (2 ^ 32) 0x61 ++ [colon, 0x31]))) =
        .ok none := by
  have hall : ∀ c ∈ List.replicate (2 ^ 32) (0x61 : UInt8), c = 0x61 :=
    fun c hc => List.eq_of_mem_replicate hc
  have hhost : uriHost (schemeCoap ++ (schemeEnd ++
      (List.replicate (2 ^ 32) 0x61 ++ [colon, 0x31]))) = .ok none := by
    apply uriHost_wraps List.length_replicate
    · intro c hc
      rw [hall c hc]
      decide
    · simp
  have hscheme := scheme_noZero (Or.inl (Eq.refl schemeCoap))
  have hport : ∀ c ∈ [colon, 0x31], c ≠ 0 := by simp [colon]
  have hzero : ∀ c ∈ schemeCoap ++ (schemeEnd ++
      (List.replicate (2 ^ 32) 0x61 ++ [colon, 0x31])), c ≠ 0 := by
    intro c hc
    rw [← List.append_assoc] at hc
    rcases List.mem_append.mp hc with hc | hc
    · exact hscheme c hc
    · rcases List.mem_append.mp hc with hc | hc
      · rw [hall c hc]
        decide
      · exact hport c hc
  rw [mcUriToOptions, uriArray, cstring_of_noZero hzero, hhost]
  rfl

end Mcoap

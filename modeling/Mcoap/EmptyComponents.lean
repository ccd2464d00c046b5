import Mcoap.OptionOrder
import Mcoap.UriSafety

/-! # Empty segments and arguments

    What `mc_uri_to_options` makes of a path with two '/' in a row, or with
    a '/' in front of the '?', and of a query with two '&' in a row, or with
    a '&' behind the '?'.

    Behind an empty component the pointer stands on a delimiter already, and
    there `advanceto` goes to the end of the string.

    * `UriWords`: a URI with a port, its components of any length;
    * `exists_words`: every path and query is of this form;
    * `StillThere`: the components behind the first empty one have an option
      each;
    * `nothing_lost_iff`: they do only if there are none. -/

namespace Mcoap

open CString StableSort

/-! ## Section 1: Components that may be empty -/

/-- The words behind the first empty one. -/
def afterEmpty : List (List UInt8) → List (List UInt8)
  | [] => []
  | w :: words => if w = [] then words else afterEmpty words

theorem upToEmpty_append (words : List (List UInt8)) :
    upToEmpty words ++ afterEmpty words = words := by
  induction words with
  | nil => rfl
  | cons w words ih =>
    rw [upToEmpty, afterEmpty]
    split
    · next hempty =>
      rw [hempty]
      rfl
    · rw [List.cons_append, ih]

theorem upToEmpty_subset (words : List (List UInt8)) : upToEmpty words ⊆ words := by
  intro w hw
  rw [← upToEmpty_append words]
  exact List.mem_append_left _ hw

/-- The arguments behind a delimiter. -/
theorem exists_arguments (s : List UInt8) :
    ∃ a rest, s = a ++ rest.flatMap (ampersand :: ·) ∧
      ∀ w ∈ a :: rest, ∀ c ∈ w, c ∉ [ampersand] := by
  induction hlen : s.length using Nat.strongRecOn generalizing s with
  | _ n ih =>
    obtain ⟨a, tail, rfl, ha, hstop⟩ := exists_span s [ampersand]
    cases tail with
    | nil =>
      refine ⟨a, [], by simp, ?_⟩
      intro w hw
      rw [List.mem_singleton.mp hw]
      exact ha
    | cons c tail =>
      have hc : c = ampersand := List.mem_singleton.mp ((stopsAt_cons _ _ _).mp hstop)
      obtain ⟨b, rest, htail, hfree⟩ :=
        ih tail.length (by rw [← hlen, List.length_append, List.length_cons]; omega) tail rfl
      refine ⟨a, b :: rest, ?_, ?_⟩
      · rw [hc, htail, List.flatMap_cons]
        rfl
      · intro w hw
        rcases List.mem_cons.mp hw with rfl | hw
        · exact ha
        · exact hfree w hw

/-- Whatever stands behind the port is a path and a query. -/
theorem exists_words (s : List UInt8) (hstop : StopsAt [slash, question] s) :
    ∃ segments arguments, s = pathText segments ++ queryText arguments ∧
      (∀ w ∈ segments, ∀ c ∈ w, c ∉ [slash, question]) ∧
      ∀ w ∈ arguments, ∀ c ∈ w, c ∉ [ampersand] := by
  induction hlen : s.length using Nat.strongRecOn generalizing s with
  | _ n ih =>
    cases s with
    | nil => exact ⟨[], [], rfl, by simp, by simp⟩
    | cons c tail =>
      have hc := (stopsAt_cons _ _ _).mp hstop
      simp only [List.mem_cons, List.not_mem_nil, or_false] at hc
      rcases hc with rfl | rfl
      -- a segment, and what is behind it
      · obtain ⟨w, rest, rfl, hw, hrest⟩ := exists_span tail [slash, question]
        obtain ⟨segments, arguments, rfl, hsegments, harguments⟩ :=
          ih rest.length (by rw [← hlen, List.length_cons, List.length_append]; omega) rest hrest
            rfl
        refine ⟨w :: segments, arguments, ?_, ?_, harguments⟩
        · rw [pathText, pathText, List.flatMap_cons, List.append_assoc]
          rfl
        · intro v hv
          rcases List.mem_cons.mp hv with rfl | hv
          · exact hw
          · exact hsegments v hv
      · obtain ⟨a, rest, rfl, hfree⟩ := exists_arguments tail
        exact ⟨[], a :: rest, rfl, by simp, hfree⟩

/-- A URI with a port by its parts: the segments and the arguments are the
    words between the delimiters, and each may be empty. -/
structure UriWords where
  scheme        : List UInt8
  host          : List UInt8
  text          : List UInt8
  port          : List UInt8
  segments      : List (List UInt8)
  arguments     : List (List UInt8)
  validScheme   : scheme = schemeCoap ∨ scheme = schemeCoaps
  hostText      : HostText host text
  portFree      : ∀ c ∈ port, c ∉ [slash, question]
  segmentsFree  : ∀ s ∈ segments, ∀ c ∈ s, c ∉ [slash, question]
  argumentsFree : ∀ a ∈ arguments, ∀ c ∈ a, c ∉ [ampersand]
  noZero        : ∀ w ∈ host :: port :: (segments ++ arguments), ∀ c ∈ w, c ≠ 0

namespace UriWords

variable (parts : UriWords)

/-- The path and the query. -/
def tail : List UInt8 := pathText parts.segments ++ queryText parts.arguments

def uri : List UInt8 :=
  bareUri parts.scheme parts.text (colon :: (parts.port ++ parts.tail))

/-- What the parser copies in one piece fits the `uint32_t` of
    `ms_copy_cstr`, and the option array a `uint32_t` of slots. -/
structure Fits : Prop where
  host      : Short parts.host
  port      : strcspn (parts.port ++ parts.tail) [slash] < 2 ^ 32 - 1
  segments  : ∀ s ∈ parts.segments, Short s
  arguments : ∀ a ∈ parts.arguments, Short a
  slots     : delimiters parts.tail + 2 < 2 ^ 32

/-- The arguments that get an option. -/
def storedArguments : List (List UInt8) :=
  if [] ∈ parts.segments then [] else upToEmpty parts.arguments

/-- The segments behind the first empty component. -/
def laterSegments : List (List UInt8) := afterEmpty parts.segments

/-- The arguments behind the first empty component; it can be a segment. -/
def laterArguments : List (List UInt8) :=
  if [] ∈ parts.segments then parts.arguments else afterEmpty parts.arguments

theorem arguments_append : parts.storedArguments ++ parts.laterArguments = parts.arguments := by
  unfold storedArguments laterArguments
  split
  · rfl
  · exact upToEmpty_append parts.arguments

theorem uri_noZero : ∀ c ∈ parts.uri, c ≠ 0 := by
  have hwords := parts.noZero
  have hpath : ∀ c ∈ pathText parts.segments, c ≠ 0 := delimited_noZero slash (by decide)
    fun w hw => hwords w (by simp [hw])
  have hquery : ∀ c ∈ queryText parts.arguments, c ≠ 0 := queryText_noZero
    fun w hw => hwords w (by simp [hw])
  have hport := hwords parts.port (by simp)
  apply bareUri_noZero parts.validScheme parts.hostText (hwords _ List.mem_cons_self)
  intro c hc
  rw [tail] at hc
  simp only [List.mem_cons, List.mem_append] at hc
  rcases hc with rfl | hc | hc | hc
  · decide
  · exact hport c hc
  · exact hpath c hc
  · exact hquery c hc

/-- The options behind host and port. -/
def stored : List McOption :=
  (upToEmpty parts.segments).map (mcOptionInitStr optionUriPath) ++
    parts.storedArguments.map (mcOptionInitStr optionUriQuery)

/-- The array of options: host and port or nothing, and what is stored of
    path and query. -/
theorem uriArray_uri (hfits : parts.Fits) (env : UriEnv) (dest : Option SockAddr) :
    ∃ authority, uriArray env dest parts.uri = .ok (some (authority ++ parts.stored)) ∧
      ∀ o ∈ authority, o.optionNum = optionUriHost ∨ o.optionNum = optionUriPort := by
  have hcount := components_le_count parts.segments parts.arguments
  have hhost : uriHost (cstring parts.uri) =
      .ok (some (parts.host, colon :: (parts.port ++ parts.tail))) := by
    rw [cstring_of_noZero parts.uri_noZero]
    exact uriHost_text parts.validScheme parts.hostText hfits.host (by simp)
  have hportFits : CopyFits (strcspn (parts.port ++ parts.tail) [slash]) := by
    have hlt := hfits.port
    unfold CopyFits
    rw [Nat.mod_eq_of_lt (by omega)]
    exact Nat.succ_ne_zero _
  obtain ⟨number, hport⟩ := getport_safe env.overflow
    (show (colon :: (parts.port ++ parts.tail)).head? = some colon → _ from fun _ => hportFits)
  have hcomponents : ∀ (nopts : UInt32) (options : List McOption),
      options.length + parts.tail.countP (· ∈ [slash, question, ampersand]) ≤ nopts.toNat →
      uriComponents nopts options parts.tail = .ok (options ++ parts.stored) := by
    intro nopts options hroom
    have hroom : options.length + (pathText parts.segments ++ queryText parts.arguments).countP
      (· ∈ [slash, question, ampersand]) ≤ nopts.toNat := hroom
    exact uriComponents_found options parts.segmentsFree hfits.segments parts.argumentsFree
      hfits.arguments (by omega)
  have hoptions := uriOptions_found dest parts.host hport parts.portFree (tail_stops _ _)
    hfits.slots hcomponents
  rw [uriArray, hhost]
  simp only [bind, Except.bind, hoptions]
  refine ⟨_, rfl, ?_⟩
  intro o ho
  split at ho
  · exact absurd ho List.not_mem_nil
  · rcases List.mem_cons.mp ho with rfl | ho
    · exact Or.inl rfl
    · rw [List.mem_singleton.mp ho]
      exact Or.inr (mcOptionInitUint32_num _ _)

end UriWords

/-! ## Section 2: What is lost -/

/-- Of `words`, those in `later` that are not empty have a value each of
    their own, in their order. -/
structure StillThere (words later values : List (List UInt8)) : Prop where
  own     : ∀ w ∈ later, w ≠ [] → words.count w ≤ values.count w
  ordered : (later.filter (· ≠ [])).Sublist values

/-- When only the others have values, none may be left. -/
theorem stillThere_iff {words stored later values : List (List UInt8)}
    (hwords : stored ++ later = words) (hvalues : values.Perm stored) :
    StillThere words later values ↔ ∀ w ∈ later, w = [] := by
  constructor
  · intro h w hw
    by_contra hne
    have hown := h.own w hw hne
    have hpos := List.count_pos_iff.mpr hw
    rw [hvalues.count_eq, ← hwords, List.count_append] at hown
    omega
  · intro hempty
    refine ⟨fun w hw hne => absurd (hempty w hw) hne, ?_⟩
    have hnil : later.filter (· ≠ []) = [] := by
      rw [List.filter_eq_nil_iff]
      intro w hw
      simpa using hempty w hw
    rw [hnil]
    exact List.nil_sublist _

namespace UriWords

variable (parts : UriWords)

/-- The values that a list with these options has for path and query. -/
theorem valuesOf_stored (hfits : parts.Fits) (qsort : Qsort McOption) {authority : List McOption}
    (hauthority : ∀ o ∈ authority, o.optionNum = optionUriHost ∨ o.optionNum = optionUriPort) :
    let list := mcOptionsListInit qsort (authority ++ parts.stored)
    (valuesOf optionUriPath list).Perm (upToEmpty parts.segments) ∧
      (valuesOf optionUriQuery list).Perm parts.storedArguments := by
  intro list
  have hnone : ∀ n, n ≠ optionUriHost → n ≠ optionUriPort → numbered n authority = [] := by
    intro n hhost hport
    apply List.filter_eq_nil_iff.mpr
    intro o ho
    rcases hauthority o ho with h | h <;> rw [h] <;> simp [Ne.symm hhost, Ne.symm hport]
  have hsorted : ∀ n, (valuesOf n list).Perm
      ((numbered n (authority ++ parts.stored)).map (·.value.toList)) :=
    fun n => ((qsort.perm compareOptions _).filter _).map _
  have hsplit : ∀ n (l l' : List McOption), numbered n (l ++ l') = numbered n l ++ numbered n l' :=
    fun n l l' => List.filter_append ..
  have hvalues : ∀ (n : UInt16) (words : List (List UInt8)), (∀ w ∈ words, Short w) →
      (words.map (mcOptionInitStr n)).map (·.value.toList) = words := by
    intro n words hshort
    rw [List.map_map]
    have hvalue : ∀ w ∈ words, (mcOptionInitStr n w).value.toList = w := fun w hw =>
      congrArg Wire.Opt.value (mcOptionInitStr_wire n (hshort w hw))
    exact (List.map_congr_left hvalue).trans (List.map_id words)
  have hsegments : ∀ w ∈ upToEmpty parts.segments, Short w :=
    fun w hw => hfits.segments w (upToEmpty_subset _ hw)
  have harguments : ∀ w ∈ parts.storedArguments, Short w := by
    intro w hw
    apply hfits.arguments w
    rw [← parts.arguments_append]
    exact List.mem_append_left _ hw
  constructor
  · have hpath := hsorted optionUriPath
    rw [hsplit, hnone _ (by decide) (by decide), stored, hsplit, UriParts.numbered_words,
      UriParts.numbered_words, if_pos rfl, if_neg (by decide), List.nil_append, List.append_nil,
      hvalues _ _ hsegments] at hpath
    exact hpath
  · have hquery := hsorted optionUriQuery
    rw [hsplit, hnone _ (by decide) (by decide), stored, hsplit, UriParts.numbered_words,
      UriParts.numbered_words, if_neg (by decide), if_pos rfl, List.nil_append, List.nil_append,
      hvalues _ _ harguments] at hquery
    exact hquery

/-- Nothing is lost behind an empty component exactly when nothing that is
    not empty follows it. -/
theorem nothing_lost_iff (hfits : parts.Fits) (qsort : Qsort McOption) (env : UriEnv)
    (dest : Option SockAddr) :
    ∃ list, mcUriToOptions qsort env dest parts.uri = .ok (some list) ∧
      ((StillThere parts.segments parts.laterSegments (valuesOf optionUriPath list) ∧
          StillThere parts.arguments parts.laterArguments (valuesOf optionUriQuery list)) ↔
        (∀ s ∈ parts.laterSegments, s = []) ∧ ∀ a ∈ parts.laterArguments, a = []) := by
  obtain ⟨authority, harray, hauthority⟩ := parts.uriArray_uri hfits env dest
  obtain ⟨hpath, hquery⟩ := parts.valuesOf_stored hfits qsort hauthority
  refine ⟨mcOptionsListInit qsort (authority ++ parts.stored), ?_, ?_⟩
  · rw [mcUriToOptions, harray]
    rfl
  · exact and_congr (stillThere_iff (upToEmpty_append parts.segments) hpath)
      (stillThere_iff parts.arguments_append hquery)

end UriWords

theorem schemeCoap_valid : schemeCoap = schemeCoap ∨ schemeCoap = schemeCoaps := Or.inl rfl

theorem hostText_letter : HostText [0x68] [0x68] :=
  HostText.name (by decide) (by simp [colon, slash, question, openBracket])

/-- coap://h:1/a//b -/
def doubledSlash : UriWords where
  scheme        := schemeCoap
  host          := [0x68]
  text          := [0x68]
  port          := [0x31]
  segments      := [[0x61], [], [0x62]]
  arguments     := []
  validScheme   := schemeCoap_valid
  hostText      := hostText_letter
  portFree      := by simp [slash, question]
  segmentsFree  := by simp [slash, question]
  argumentsFree := by simp
  noZero        := by simp

/-- The segment behind the two slashes is lost. -/
theorem segment_lost :
    ∃ list, mcUriToOptions (insertion McOption) ⟨fun _ => none, ⟨0, 0, 0, 0⟩, false, id⟩ none
        doubledSlash.uri = .ok (some list) ∧
      ¬ StillThere doubledSlash.segments doubledSlash.laterSegments
        (valuesOf optionUriPath list) := by
  refine ⟨_, rfl, fun h => ?_⟩
  have hown := h.own [0x62] (by decide) (by decide)
  exact absurd hown (by decide)

theorem doubledSlash_fits : doubledSlash.Fits := by
  constructor
  · exact (by decide : 1 < 2 ^ 32 - 1)
  · exact (by decide : 1 < 2 ^ 32 - 1)
  · simp [doubledSlash, Short]
  · simp [doubledSlash]
  · exact (by decide : 3 + 2 < 2 ^ 32)

/-- The witness: the same URI. -/
theorem nothing_lost_iff_doubled :
    ∃ list, mcUriToOptions (insertion McOption) ⟨fun _ => none, ⟨0, 0, 0, 0⟩, false, id⟩ none
        doubledSlash.uri = .ok (some list) ∧
      ¬ (StillThere doubledSlash.segments doubledSlash.laterSegments
          (valuesOf optionUriPath list) ∧
        StillThere doubledSlash.arguments doubledSlash.laterArguments
          (valuesOf optionUriQuery list)) := by
  obtain ⟨list, hlist, hiff⟩ := doubledSlash.nothing_lost_iff doubledSlash_fits
    (insertion McOption) ⟨fun _ => none, ⟨0, 0, 0, 0⟩, false, id⟩ none
  refine ⟨list, hlist, fun h => ?_⟩
  have hempty := (hiff.mp h).1 [0x62] (by decide)
  exact absurd hempty (by decide)

end Mcoap

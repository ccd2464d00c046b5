import Mcoap.OptionOrder
import Mcoap.OptionsAccepted

/-! # The two passes of the options decoder

    `mc_options_list_from_buffer` counts the options first and parses as
    many afterwards.  The counting pass tests every option against the end
    of the buffer and skips the deltas; the parsing pass decodes the deltas
    and tests nothing.

    * `parseOptions`: a parser in one pass;
    * `ShortForms`: no header on the way has a 4-bit part 14;
    * `PassesAgree`: what the two passes give is what it gives, sorted;
    * `passes_agree_iff`: they agree but for the order of options with the
      same number, which `qsort` may change. -/

namespace Mcoap

open ByteMem ByteProg StableSort

/-! ## Section 1: One pass -/

/-- The options from `p` on, up to the end of the `n` bytes or a marker,
    and where they end.  The number of an option is the sum of the deltas so
    far, modulo 2^16; a 4-bit part 15 is the number 15. -/
def parseOptions (m : Mem) (n prev p : Nat) : Option (List Wire.Opt × Nat) :=
  if p < n ∧ m p ≠ 0xff then
    let start := lengthAt m p + Wire.extensionSize (m p &&& 0x0f).toNat
    let len := numberValue m (lengthAt m p) (m p &&& 0x0f)
    if start + len ≤ n then
      let num := (prev + announcedDelta m p) % 65536
      (parseOptions m n num (start + len)).map fun r => (⟨num, slice m start len⟩ :: r.1, r.2)
    else none
  else some ([], p)
termination_by n - p
decreasing_by
  have h := lengthAt_gt m p
  omega

/-- From `p` on, no header that the scan meets has a 4-bit part 14. -/
def ShortForms (m : Mem) (n p : Nat) : Prop :=
  ∀ k q, Reaches m n k p q → q < n → m q ≠ 0xff → m q >>> 4 ≠ 14 ∧ m q &&& 0x0f ≠ 14

theorem parseOptions_stop {m : Mem} {nbytes : UInt32} {p : Nat} (h : AtStop m nbytes p)
    (prev : Nat) : parseOptions m nbytes.toNat prev p = some ([], p) := by
  rw [parseOptions, if_neg]
  rintro ⟨hlt, hmark⟩
  exact hmark (h.not_header hlt)

theorem parseOptions_option {m : Mem} {n p : Nat} (prev : Nat) (hp : p < n) (hmark : m p ≠ 0xff)
    (hlen : m p &&& 0x0f ≠ 14) (hend : optionEnd m p ≤ n) :
    parseOptions m n prev p =
      (parseOptions m n ((prev + announcedDelta m p) % 65536) (optionEnd m p)).map fun r =>
        (⟨(prev + announcedDelta m p) % 65536, (optionAt m prev p).value⟩ :: r.1, r.2) := by
  have hopt : lengthAt m p + Wire.extensionSize (m p &&& 0x0f).toNat + announcedLength m p =
      optionEnd m p := rfl
  rw [parseOptions, if_pos ⟨hp, hmark⟩]
  simp only [announcedLength_eq hlen, hopt, if_pos hend]
  rfl

/-- Nothing is parsed when an option on the way runs over the end. -/
theorem parseOptions_fallsOff {m : Mem} {n k p q : Nat} (hreach : Reaches m n k p q)
    (hfall : FallsOff m n q) (hshort : ShortForms m n p) (prev : Nat) :
    parseOptions m n prev p = none := by
  induction hreach generalizing prev with
  | here p =>
    obtain ⟨hlt, hmark, hover⟩ := hfall
    obtain ⟨_, hlen⟩ := hshort 0 p (Reaches.here p) hlt hmark
    have hopt : lengthAt m p + Wire.extensionSize (m p &&& 0x0f).toNat + announcedLength m p =
        optionEnd m p := rfl
    rw [if_neg hlen] at hover
    rw [parseOptions, if_pos ⟨hlt, hmark⟩]
    simp only [announcedLength_eq hlen, hopt, if_neg (show ¬ optionEnd m p ≤ n by omega)]
  | option hlt hmark hlen hend _ ih =>
    rw [parseOptions_option prev hlt hmark hlen hend,
      ih hfall fun j q hj => hshort (j + 1) q (Reaches.option hlt hmark hlen hend hj)]
    rfl

/-- Without a 4-bit part 14 there is one way to read a number. -/
theorem numberAt_value {m m' : Mem} {q : Nat} {nib : UInt8} {value : UInt16} (hne : nib ≠ 14)
    (h : NumberAt m q nib value m') : m' = m ∧ value.toNat = numberValue m q nib := by
  unfold NumberAt at h
  unfold numberValue
  by_cases h13 : nib = 13
  · rw [if_pos h13] at h ⊢
    exact ⟨h.2, h.1⟩
  · rw [if_neg h13, if_neg hne] at h ⊢
    exact ⟨h.2, h.1⟩

/-! ## Section 2: The parsing pass -/

section parsing
variable {nbytes p : UInt32} {m : Mem}

/-- One call of `option_from_buffer` on a complete option. -/
theorem optionFromBuffer_parses {Q : Option McOption × UInt32 → Mem → Prop}
    (hwrap : NoWrap nbytes) (hp : p.toNat < nbytes.toNat) (hdelta : m p.toNat >>> 4 ≠ 14)
    (hlen : m p.toNat &&& 0x0f ≠ 14) (hend : optionEnd m p.toNat ≤ nbytes.toNat)
    (prevnum : UInt16)
    (hQ : ∀ (option : McOption) (p' : UInt32),
      option.optionNum.toNat = (prevnum.toNat + announcedDelta m p.toNat) % 65536 →
      option.value.toList = (optionAt m prevnum.toNat p.toNat).value →
      p'.toNat = optionEnd m p.toNat → Q (some option, p') m) :
    wp (datagramMode nbytes False) (optionFromBuffer nbytes prevnum p) Q m := by
  have hopt : optionEnd m p.toNat = lengthAt m p.toNat
    + Wire.extensionSize (m p.toNat &&& 0x0f).toNat + announcedLength m p.toNat := rfl
  rw [optionFromBuffer_iff hwrap hp]
  -- the bytes of both extensions are in front of the option's end, so inside
  refine ⟨fun h13 => ?_, fun delta m1 hd => ⟨fun h13 => ?_, ?_⟩⟩
  · have hat : lengthAt m p.toNat = p.toNat + 1 + 1 := by rw [lengthAt, h13]; rfl
    omega
  · have hsize : Wire.extensionSize (m p.toNat &&& 0x0f).toNat = 1 := by
      rw [h13]
      rfl
    omega
  · intro optlen m2 hl p1 p2 hp1 hp2
    obtain ⟨rfl, hdvalue⟩ := numberAt_value hdelta hd
    obtain ⟨rfl, hlvalue⟩ := numberAt_value hlen hl
    rw [announcedLength_eq hlen] at hlvalue
    refine ⟨fun i _ hi => by omega, ?_⟩
    apply hQ
    · show (delta + prevnum).toNat = _
      rw [UInt16.toNat_add, hdvalue, Nat.add_comm]
      rfl
    · have hl32 : optlen.toUInt32.toNat = (slice m2 p1.toNat optlen.toNat).length := by
        rw [slice_length, UInt16.toNat_toUInt32]
      have hwire := McOption.wire_init (delta + prevnum) hl32
      rw [hp1, hlvalue] at hwire ⊢
      exact congrArg Wire.Opt.value hwire
    · omega

/-- The calls of `option_from_buffer` give what the parser gives. -/
theorem optionsFromBuffer_parses {k x y : Nat} (hwrap : NoWrap nbytes)
    (hreach : Reaches m nbytes.toNat k x y) (hstop : AtStop m nbytes y)
    (hshort : ShortForms m nbytes.toNat x) (prevnum : UInt16) (hp : p.toNat = x) :
    wp (datagramMode nbytes False) (optionsFromBuffer nbytes k prevnum p) (fun r m' =>
      m' = m ∧ r.2.toNat = y ∧ ∃ options, r.1 = some options ∧ options.length = k ∧
        parseOptions m nbytes.toNat prevnum.toNat x = some (wireOptions options, y)) m := by
  induction hreach generalizing p prevnum with
  | here x => exact ⟨rfl, hp, [], rfl, rfl, parseOptions_stop hstop _⟩
  | @option k x y hlt hmark hlen hend hrest ih =>
    subst hp
    obtain ⟨hdelta, _⟩ := hshort 0 p.toNat (Reaches.here _) hlt hmark
    have hshort' : ShortForms m nbytes.toNat (optionEnd m p.toNat) :=
      fun j q hj => hshort (j + 1) q (Reaches.option hlt hmark hlen hend hj)
    simp only [optionsFromBuffer, wp_bind]
    apply optionFromBuffer_parses hwrap hlt hdelta hlen hend
    intro option p' hnum hvalue hp'
    simp only [wp_bind, wp_pure]
    apply wp_mono ?_ (ih hstop hshort' option.optionNum hp')
    rintro ⟨options, p''⟩ m' ⟨hm', hp'', l, hl, hcount, hparse⟩
    cases hl
    refine ⟨hm', hp'', option :: l, rfl, congrArg (· + 1) hcount, ?_⟩
    rw [parseOptions_option _ hlt hmark hlen hend, ← hnum, hparse, ← hvalue]
    rfl

end parsing

/-! ## Section 3: Both passes -/

/-- `count_options` with the position of the header it ends at. -/
def countOptionsAt (nbytes bpos : UInt32) : Code (UInt32 × UInt32) :=
  if nbytes < 4 then return (0, bpos) else countOptionsLoopAt nbytes (nbytes.toNat + 1) bpos 0

theorem countOptions_at (nbytes bpos : UInt32) :
    countOptions nbytes bpos = countOptionsAt nbytes bpos >>= fun r => pure r.1 := by
  unfold countOptions countOptionsAt
  split
  · rfl
  · exact countOptionsLoop_at nbytes _ bpos 0

section passes
variable {nbytes p : UInt32} {m : Mem} {k q : Nat}

/-- The counting pass over complete options. -/
theorem countOptionsAt_stop (h4 : 4 ≤ nbytes.toNat) (hwrap : NoWrap nbytes)
    (hp : p.toNat ≤ nbytes.toNat) (hreach : Reaches m nbytes.toNat k p.toNat q)
    (hstop : AtStop m nbytes q) :
    wp (datagramMode nbytes False) (countOptionsAt nbytes p)
      (fun r m' => r = (UInt32.ofNat k, UInt32.ofNat q) ∧ m' = m) m := by
  have hn4 : ¬ nbytes < 4 := UInt32.not_lt.mpr (UInt32.le_iff_toNat_le.mpr h4)
  obtain ⟨hfuel, hpos, _⟩ := walk_fuel hp hreach
  unfold countOptionsAt
  rw [if_neg hn4, hfuel, countOptionsLoopAt_reaches (fun _ => trivial) (fun _ => trivial)
    (fun _ hi => hi) hwrap hreach rfl hpos, UInt32.zero_add]
  unfold countOptionsLoopAt
  rw [← hpos] at hstop
  rcases hstop with hend | ⟨hlt, hmark⟩
  · have hn : ¬ UInt32.ofNat q < nbytes := by
      rw [UInt32.lt_iff_toNat_lt, hend]
      exact Nat.lt_irrefl _
    rw [if_neg hn]
    exact ⟨rfl, rfl⟩
  · simp only [if_pos (UInt32.lt_iff_toNat_lt.mpr hlt), wp_bind, wp_readByte, hmark, if_true]
    exact ⟨hlt, rfl, rfl⟩

/-- Both passes over complete options, up to the sorting. -/
theorem optionsArrayFromBuffer_parses (h4 : 4 ≤ nbytes.toNat) (hwrap : NoWrap nbytes)
    (hp : p.toNat ≤ nbytes.toNat) (hreach : Reaches m nbytes.toNat k p.toNat q)
    (hstop : AtStop m nbytes q) (hshort : ShortForms m nbytes.toNat p.toNat) (hk : k ≠ 0) :
    wp (datagramMode nbytes False) (optionsArrayFromBuffer nbytes p) (fun r m' =>
      m' = m ∧ ∃ options, r = (some options, UInt32.ofNat q) ∧ options.length = k ∧
        parseOptions m nbytes.toNat 0 p.toNat = some (wireOptions options, q)) m := by
  obtain ⟨_, hpos, hcount⟩ := walk_fuel hp hreach
  have hn := nbytes.toNat_lt
  unfold optionsArrayFromBuffer
  rw [wp_bind]
  apply countOptions_stop (fun _ => trivial) (fun _ => trivial) (fun _ hi => hi) h4 hwrap hp
    hreach hstop
  rw [if_neg (ofNat32_ne_zero hk (by omega)), hcount]
  apply wp_mono ?_ (optionsFromBuffer_parses hwrap hreach hstop hshort 0 rfl)
  rintro ⟨l, p'⟩ m' ⟨hm', hp', options, hl, hlength, hparse⟩
  have hend : p' = UInt32.ofNat q := UInt32.toNat_inj.mp (hp'.trans hpos.symm)
  exact ⟨hm', options, Prod.ext hl hend, hlength, hparse⟩

end passes

/-- Whatever the uninitialised locals hold: when the counting pass gives 0
    there is no list and the position is as it was, and when it gives `k`
    the list is made of the `k` options of the parser.  Both passes end at
    the same header, and no byte outside is read. -/
def PassesAgree (sorts : List Wire.Opt → List Wire.Opt → Prop) (qsort : Qsort McOption)
    (nbytes p : UInt32) (m : Mem) : Prop :=
  ∀ s, ∃ k q, (run (countOptions nbytes p) m s).value = some k ∧
    (run (countOptionsAt nbytes p) m s).value = some (k, q) ∧
    let out := run (mcOptionsListFromBuffer qsort nbytes p) m s
    (k = 0 → out.value = some (none, p)) ∧
    (k ≠ 0 → ∃ list os, out.value = some (some list, q) ∧
      parseOptions m nbytes.toNat 0 p.toNat = some (os, q.toNat) ∧
      os.length = k.toNat ∧ sorts os (wireOptions list.options) ∧
      Reaches m nbytes.toNat k.toNat p.toNat q.toNat ∧ AtStop m nbytes q.toNat ∧
      (∀ i, Access.rd i ∈ out.trace → i < nbytes.toNat) ∧ out.mem = m)

/-- The same options in number order; those of one number in any order. -/
def SortedByNumber (given os : List Wire.Opt) : Prop :=
  os.Perm given ∧ os.Pairwise fun o o' => o.num ≤ o'.num

section agreement
variable {nbytes p : UInt32} {m : Mem}

/-- Without 4-bit parts 14 the two passes agree, up to the sorting. -/
theorem passes_agree {sorts : List Wire.Opt → List Wire.Opt → Prop} {qsort : Qsort McOption}
    (h4 : 4 ≤ nbytes.toNat) (hsmall : nbytes.toNat ≤ 65535) (hp : p.toNat ≤ nbytes.toNat)
    (hshort : ShortForms m nbytes.toNat p.toNat)
    (hsorts : ∀ options q, parseOptions m nbytes.toNat 0 p.toNat = some (wireOptions options, q) →
      sorts (wireOptions options) (wireOptions (mcOptionsListInit qsort options).options)) :
    PassesAgree sorts qsort nbytes p m := by
  intro s
  have hwrap := noWrap_of_small hsmall
  rcases walk_ends hp with ⟨k, q, hreach, hstop | hfall | hlong⟩
  · obtain ⟨_, hpos, hk⟩ := walk_fuel hp hreach
    obtain ⟨r, hat, rfl, _⟩ :=
      (run_meets (countOptionsAt_stop h4 hwrap hp hreach hstop) s fun _ => trivial).returns id
    refine ⟨UInt32.ofNat k, UInt32.ofNat q, ?_, hat, ?_, ?_⟩
    · rw [countOptions_at, run_map_value, hat]
      rfl
    · intro hzero
      have hk0 : k = 0 := by
        rw [← hk, hzero]
        rfl
      obtain ⟨r, hr, hnone⟩ := (run_meets (mcOptionsListFromBuffer_stop qsort h4 hp hwrap hreach
        hstop) s fun _ => trivial).returns id
      rw [if_pos hk0] at hnone
      rw [hr, hnone]
    · intro hne
      have hk0 : k ≠ 0 := by
        rintro rfl
        exact hne rfl
      have hlist : wp (datagramMode nbytes False) (mcOptionsListFromBuffer qsort nbytes p)
          (fun r m' => m' = m ∧ ∃ options,
            r = (some (mcOptionsListInit qsort options), UInt32.ofNat q) ∧ options.length = k ∧
            parseOptions m nbytes.toNat 0 p.toNat = some (wireOptions options, q)) m := by
        rw [mcOptionsListFromBuffer_array, wp_bind]
        apply wp_mono ?_ (optionsArrayFromBuffer_parses h4 hwrap hp hreach hstop hshort hk0)
        rintro r m' ⟨hm', options, rfl, hparsed⟩
        exact ⟨hm', options, rfl, hparsed⟩
      have hmeets := run_meets hlist s fun _ => trivial
      obtain ⟨r, hr, hmem, options, rfl, hlength, hparse⟩ := hmeets.returns id
      rw [hk, hpos]
      exact ⟨_, _, hr, hparse, by rw [wireOptions_length, hlength], hsorts options q hparse,
        hreach, hstop, hmeets.1, hmem⟩
  · obtain ⟨r, hzero, rfl⟩ := (run_meets (countOptions_fallsOff (Q := fun r _ => r = 0) h4 hwrap
      hp hreach hfall fun _ _ => rfl) s fun _ => trivial).returns id
    obtain ⟨r, hlist, rfl, _⟩ := (run_meets (mcOptionsListFromBuffer_fallsOff qsort h4 hp hwrap
      hreach hfall) s fun _ => trivial).returns id
    have hat := hzero
    rw [countOptions_at, run_map_value] at hat
    obtain ⟨⟨k, q'⟩, hat, rfl⟩ := Option.map_eq_some_iff.mp hat
    exact ⟨_, q', hzero, hat, fun _ => hlist, fun hne => absurd rfl hne⟩
  · obtain ⟨hlt, hmark, h14, _⟩ := hlong
    exact absurd h14 (hshort k q hreach hlt hmark).2

/-- The two passes agree up to the order of equal numbers, and with a stable
    `qsort` altogether; with every `qsort` exactly when options with the
    same number do not differ. -/
theorem passes_agree_iff (nbytes p : UInt32) (m : Mem) (h4 : 4 ≤ nbytes.toNat)
    (hsmall : nbytes.toNat ≤ 65535) (hp : p.toNat ≤ nbytes.toNat)
    (hshort : ShortForms m nbytes.toNat p.toNat) :
    (∀ qsort, PassesAgree SortedByNumber qsort nbytes p m) ∧
    (∀ qsort, qsort.Stable → PassesAgree InNumberOrder qsort nbytes p m) ∧
    ((∀ qsort, PassesAgree InNumberOrder qsort nbytes p m) ↔
      ∀ os q, parseOptions m nbytes.toNat 0 p.toNat = some (os, q) →
        ∀ o ∈ os, ∀ o' ∈ os, o.num = o'.num → o = o') := by
  refine ⟨fun qsort => ?_, fun qsort hq => ?_, ?_, ?_⟩
  · apply passes_agree h4 hsmall hp hshort
    intro options q _
    constructor
    · exact (qsort.perm _ _).map _
    · exact wireOptions_ordered (qsort.sorted _ options compareOptions_isOrder)
  · exact passes_agree h4 hsmall hp hshort fun options _ _ => inNumberOrder_init hq options
  · intro hagree os q hparse
    rcases walk_ends hp with ⟨k, q', hreach, hstop | hfall | hlong⟩
    · by_cases hk : k = 0
      · subst hk
        cases hreach
        rw [parseOptions_stop hstop] at hparse
        cases hparse
        exact fun o ho => absurd ho List.not_mem_nil
      -- one array for every `qsort`
      · obtain ⟨r, hr, _, options, rfl, _, hoptions⟩ := (run_meets
          (optionsArrayFromBuffer_parses h4 (noWrap_of_small hsmall) hp hreach hstop hshort hk)
          (fun _ => 0) fun _ => trivial).returns id
        rw [hparse] at hoptions
        cases hoptions
        rw [← uniform_wire, ← init_keeps_iff]
        intro qsort
        rw [← inNumberOrder_iff]
        obtain ⟨_, _, _, _, hnone, hsome⟩ := hagree qsort fun _ => 0
        rw [mcOptionsListFromBuffer_array, run_map_value, hr] at hnone hsome
        obtain ⟨list, os, hlist, hos, _, horder, _⟩ := hsome fun hzero => by
          exact absurd (hnone hzero) (by simp)
        rw [hparse] at hos
        cases hos
        have hinit : some (mcOptionsListInit qsort options) = some list :=
          congrArg Prod.fst (Option.some.inj hlist)
        rw [← Option.some.inj hinit] at horder
        exact horder
    · rw [parseOptions_fallsOff hreach hfall hshort] at hparse
      cases hparse
    · obtain ⟨hlt, hmark, h14, _⟩ := hlong
      exact absurd h14 (hshort k q' hreach hlt hmark).2
  · intro hsame qsort
    apply passes_agree h4 hsmall hp hshort
    intro options q hparse
    rw [inNumberOrder_iff]
    exact (init_keeps_iff options).mpr ((uniform_wire options).mpr (hsame _ q hparse)) qsort

end agreement

/-- Two options with the number 11. -/
def twoSegments : Mem := ofList [0xb1, 0x61, 0x01, 0x62]

theorem twoSegments_short : ShortForms twoSegments 4 0 := by
  have hend1 : optionEnd twoSegments 0 = 2 := by decide
  have hend2 : optionEnd twoSegments 2 = 4 := by decide
  intro k q hreach hlt hmark
  cases hreach with
  | here => decide
  | option _ _ _ _ hrest =>
    rw [hend1] at hrest
    cases hrest with
    | here => decide
    | option _ _ _ _ hrest =>
      rw [hend2] at hrest
      have hle := hrest.le
      omega

theorem twoSegments_parsed :
    parseOptions twoSegments 4 0 0 = some ([⟨11, [0x61]⟩, ⟨11, [0x62]⟩], 4) := by
  have hend1 : optionEnd twoSegments 0 = 2 := by decide
  have hend2 : optionEnd twoSegments 2 = 4 := by decide
  have hstop : ∀ prev, parseOptions twoSegments 4 prev 4 = some ([], 4) :=
    parseOptions_stop (show AtStop twoSegments 4 4 from Or.inl rfl)
  rw [parseOptions_option 0 (by decide) (by decide) (by decide) (by decide), hend1,
    parseOptions_option _ (by decide) (by decide) (by decide) (by decide), hend2,
    hstop]
  decide

/-- A `qsort` that meets the standard and turns the two round. -/
theorem segments_turned :
    ShortForms twoSegments 4 0 ∧
      ¬ PassesAgree InNumberOrder (rotated McOption 1) 4 0 twoSegments := by
  refine ⟨twoSegments_short, fun hagree => ?_⟩
  obtain ⟨k, q, _, _, hnone, hsome⟩ := hagree fun _ => 0
  have hturned : (run (mcOptionsListFromBuffer (rotated McOption 1) 4 0) twoSegments
      fun _ => 0).value.map (fun r => r.1.map fun list => wireOptions list.options) =
        some (some [⟨11, [0x62]⟩, ⟨11, [0x61]⟩]) := by decide
  have hk : k ≠ 0 := by
    intro hzero
    rw [hnone hzero] at hturned
    exact absurd hturned (by decide)
  obtain ⟨list, os, hlist, hparse, _, horder, _⟩ := hsome hk
  have hos : os = [⟨11, [0x61]⟩, ⟨11, [0x62]⟩] :=
    congrArg Prod.fst (Option.some.inj (hparse.symm.trans twoSegments_parsed))
  rw [hlist] at hturned
  have hwire : wireOptions list.options = [⟨11, [0x62]⟩, ⟨11, [0x61]⟩] :=
    Option.some.inj (Option.some.inj hturned)
  rw [hwire, hos] at horder
  exact absurd (horder.kept 11) (by decide)

/-- The witness: the same bytes and a stable `qsort`. -/
theorem passes_agree_iff_segments :
    PassesAgree InNumberOrder (insertion McOption) 4 0 twoSegments :=
  (passes_agree_iff 4 0 twoSegments (by decide) (by decide) (by decide) twoSegments_short).2.1 _
    (insertion_stable McOption)

end Mcoap

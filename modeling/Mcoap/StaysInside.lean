import Mathlib.Data.Nat.ModEq
import Mathlib.Tactic.Ring
import Mcoap.Reencoding

/-! # Staying inside the datagram

    When the result of `mc_message_from_buffer` depends on the datagram only.

    The decoder leaves the datagram as `Mcoap.Datagram` says.  And it can be
    inside and still give what is not in the datagram: a number in the 16-bit
    form comes out as the value of an uninitialised local.

    * `StaysInside`: two decodings of the same `n` bytes agree, whatever is
      behind them and in the locals;
    * `Settled`: one result for every junk; `mcMessageFromBuffer_settled`;
    * `Sums`: what the numbers of the options can add up to;
      `exists_sums`, `sums_differ`;
    * `datagram_inside`: the exact condition. -/

namespace Mcoap

open ByteMem ByteProg StableSort

/-! ## Section 1: The condition -/

/-- On a datagram of `n` bytes in the buffer `m`: the decoder reads below `n`
    only, and a buffer with the same `n` bytes gives the same result,
    whatever the uninitialised locals hold in the two runs. -/
def StaysInside (qsort : Qsort McOption) (n : UInt32) (m : Mem) : Prop :=
  ∀ s, (∀ i, Access.rd i ∈ (run (mcMessageFromBuffer qsort n 0) m s).trace → i < n.toNat) ∧
    ∀ m' s', (∀ i, i < n.toNat → m' i = m i) →
      (run (mcMessageFromBuffer qsort n 0) m' s').value =
        (run (mcMessageFromBuffer qsort n 0) m s).value

/-- An option that is met from `p` on runs over the end. -/
def RunsOver (m : Mem) (n p : Nat) : Prop := ∃ k q, Reaches m n k p q ∧ FallsOff m n q

/-- No header that is met from `p` on has a number nibble 14. -/
def NumbersGiven (m : Mem) (n p : Nat) : Prop :=
  ∀ k q, Reaches m n k p q → q < n → m q ≠ 0xff → m q >>> 4 ≠ 14

/-- The condition on a datagram of `n` bytes: what is read lies inside it,
    and the numbers are in it, or no option is taken at all. -/
def DatagramInside (m : Mem) (n : Nat) : Prop :=
  BytesInside m n ∧
    (n < 4 ∨ RunsOver m n (4 + tokenLengthAt m) ∨ NumbersGiven m n (4 + tokenLengthAt m))

section

variable {m m' : Mem} {n k x y p q : Nat}

theorem HeadersInside.reaches (h : HeadersInside m n p) (hreach : Reaches m n k p q) :
    HeadersInside m n q := by
  induction hreach with
  | here p => exact h
  | option hp hmark hlen _ _ ih =>
    apply ih
    rw [HeadersInside, if_pos ⟨hp, hmark⟩] at h
    split at h
    · exact h.2
    · exact h

/-- A walk that stays inside does not end at a long length. -/
theorem HeadersInside.ends {nbytes : UInt32} (h : HeadersInside m nbytes.toNat p)
    (hp : p ≤ nbytes.toNat) : ∃ k q, Reaches m nbytes.toNat k p q ∧
      (AtStop m nbytes q ∨ FallsOff m nbytes.toNat q) := by
  obtain ⟨k, q, hreach, hstop | hfall | ⟨hlt, hmark, h14, hext⟩⟩ := walk_ends hp
  · exact ⟨k, q, hreach, Or.inl hstop⟩
  · exact ⟨k, q, hreach, Or.inr hfall⟩
  · have hlast := h.reaches hreach
    have hne : m q &&& 0x0f ≠ 13 := by
      rw [h14]
      decide
    rw [HeadersInside, if_pos ⟨hlt, hmark⟩, if_neg hne, if_pos h14] at hlast
    omega

/-- Where a header is met there is one at the start. -/
theorem Reaches.first_header (h : Reaches m n k p q) (hmark : m q ≠ 0xff) : m p ≠ 0xff := by
  cases h with
  | here => exact hmark
  | option _ hmark' _ _ _ => exact hmark'

/-- A number that is not in the third form is read in one way only. -/
theorem NumberAt.unique {nib : UInt8} {v w : UInt16} {m1 m2 : Mem} (hne : nib ≠ 14)
    (hv : NumberAt m q nib v m1) (hw : NumberAt m q nib w m2) : v = w ∧ m1 = m2 := by
  refine ⟨?_, (hv.unchanged hne).trans (hw.unchanged hne).symm⟩
  apply UInt16.toNat_inj.mp
  unfold NumberAt at hv hw
  by_cases h13 : nib = 13
  · rw [if_pos h13] at hv hw
    exact hv.1.trans hw.1.symm
  · rw [if_neg h13, if_neg hne] at hv hw
    exact hv.1.trans hw.1.symm

end

/-! ## Section 2: Results that are settled -/

section

variable {qsort : Qsort McOption} {md : Mode UInt16} {nbytes p : UInt32} {m : Mem} {ab : Prop}
  {k x y : Nat}

/-- One call of the parsing pass on a complete option. -/
theorem optionFromBuffer_given (hwrap : NoWrap nbytes) (hp : p.toNat < nbytes.toNat)
    (hdelta : m p.toNat >>> 4 ≠ 14) (hlen : m p.toNat &&& 0x0f ≠ 14)
    (hend : optionEnd m p.toNat ≤ nbytes.toNat) (prevnum : UInt16) :
    ∃ option p', p'.toNat = optionEnd m p.toNat ∧
      ∀ Q : Option McOption × UInt32 → Mem → Prop, Q (some option, p') m →
        wp (datagramMode nbytes ab) (optionFromBuffer nbytes prevnum p) Q m := by
  have hopt : optionEnd m p.toNat = lengthAt m p.toNat
    + Wire.extensionSize (m p.toNat &&& 0x0f).toNat + announcedLength m p.toNat := rfl
  have hn := nbytes.toNat_lt
  obtain ⟨delta, m1, hd⟩ := numberAt_exists m (p.toNat + 1) (m p.toNat >>> 4)
  obtain rfl := hd.unchanged hdelta
  obtain ⟨optlen, m2, hl⟩ := numberAt_exists m1 (lengthAt m1 p.toNat) (m1 p.toNat &&& 0x0f)
  obtain ⟨rfl, hvalue⟩ := numberAt_length hlen rfl hl
  refine ⟨mcOptionInit (delta + prevnum) optlen.toUInt32 (slice m2 (lengthAt m2 p.toNat
    + Wire.extensionSize (m2 p.toNat &&& 0x0f).toNat) optlen.toNat),
    UInt32.ofNat (optionEnd m2 p.toNat), ofNat32_toNat (by omega), fun Q hQ => ?_⟩
  rw [optionFromBuffer_iff hwrap hp]
  -- both extensions lie in front of the option's end
  refine ⟨fun h13 => ?_, fun delta' m3 hd' => ?_⟩
  · have hat : lengthAt m2 p.toNat = p.toNat + 1 + 1 := by rw [lengthAt, h13]; rfl
    omega
  · obtain ⟨rfl, rfl⟩ := hd.unique hdelta hd'
    refine ⟨fun h13 => ?_, fun optlen' m4 hl' p1 p2 hp1 hp2 => ?_⟩
    · have hsize : Wire.extensionSize (m2 p.toNat &&& 0x0f).toNat = 1 := by
        rw [h13]
        rfl
      omega
    · obtain ⟨rfl, rfl⟩ := hl.unique hlen hl'
      have hp2' : p2 = UInt32.ofNat (optionEnd m2 p.toNat) := by
        apply UInt32.toNat_inj.mp
        rw [hp2, ofNat32_toNat (by omega)]
        omega
      rw [hp1, hp2']
      refine ⟨fun i _ hi => ?_, hQ⟩
      rw [ofNat32_toNat (by omega)] at hi
      omega

/-- All the calls. -/
theorem optionsFromBuffer_given (hwrap : NoWrap nbytes) (hreach : Reaches m nbytes.toNat k x y)
    (hgiven : NumbersGiven m nbytes.toNat x) (prevnum : UInt16) (hp : p.toNat = x) :
    ∃ options p', p'.toNat = y ∧
      ∀ Q : Option (List McOption) × UInt32 → Mem → Prop, Q (some options, p') m →
        wp (datagramMode nbytes ab) (optionsFromBuffer nbytes k prevnum p) Q m := by
  induction hreach generalizing p prevnum with
  | here x => exact ⟨[], p, hp, fun Q hQ => hQ⟩
  | option hlt hmark hlen hend hrest ih =>
    subst hp
    obtain ⟨option, p1, hp1, hone⟩ := @optionFromBuffer_given nbytes p m ab hwrap hlt
      (hgiven 0 p.toNat (Reaches.here _) hlt hmark) hlen hend prevnum
    obtain ⟨options, p', hp', hall⟩ := ih (fun j q hj => hgiven (j + 1) q
      (Reaches.option hlt hmark hlen hend hj)) option.optionNum hp1
    refine ⟨option :: options, p', hp', fun Q hQ => ?_⟩
    rw [optionsFromBuffer, wp_bind]
    apply hone
    simp only [wp_bind]
    exact hall _ hQ

/-- The end of a message, where the memory is as it was, or does not start
    with a marker. -/
theorem payloadFromBuffer_settled (hr : ReadsBelow md nbytes) (hp : p.toNat ≤ nbytes.toNat) :
    ∃ v, ∀ m', m' p.toNat = m p.toNat → (m p.toNat ≠ 0xff ∨ m' = m) →
      wp md (payloadFromBuffer nbytes p) (fun r _ => r = v) m' := by
  have hrem := position_room hp
  unfold payloadFromBuffer
  by_cases hgt : nbytes - p > 1
  · have hgt' : 1 < (nbytes - p).toNat := UInt32.lt_iff_toNat_lt.mp hgt
    have hmarker : p.toNat < nbytes.toNat := by omega
    simp only [if_pos hgt, wp_bind, wp_readByte]
    by_cases hmark : m p.toNat = 0xff
    · obtain ⟨hp1, hpl, hfits⟩ := payload_room hmarker
      refine ⟨(some (some ⟨nbytes - p - 1, blit (ofList []) 0
        (slice m (p + 1).toNat (nbytes - p - 1).toNat)⟩), p + 1 + (nbytes - p - 1)),
        fun m' _ hsame => ⟨hr _ hmarker, ?_⟩⟩
      obtain rfl := hsame.resolve_left (not_not.mpr hmark)
      simp only [hmark, ne_eq, not_true, if_false, mcBufferCopyFrom, hfits, if_true, wp_bind,
        wp_readBytes, wp_pure]
      exact ⟨fun i _ hi => hr i (by omega), rfl⟩
    · refine ⟨(none, p), fun m' hsame _ => ⟨hr _ hmarker, ?_⟩⟩
      simp only [hsame, hmark, ne_eq, not_false_eq_true, if_true, wp_pure]
  · refine ⟨(some none, p), fun m' _ _ => ?_⟩
    simp only [if_neg hgt, wp_pure]

/-- One result of the decoder for every junk. -/
def Settled (qsort : Qsort McOption) (n : UInt32) (m : Mem) : Prop :=
  ∃ v, ∀ s, (run (mcMessageFromBuffer qsort n 0) m s).value = some v

theorem settled_of_wp {v : Option McMessage × UInt32} (hd : ∀ w, md.draws w) (ha : ¬ md.aborts)
    (h : wp md (mcMessageFromBuffer qsort nbytes 0) (fun r _ => r = v) m) :
    Settled qsort nbytes m := by
  refine ⟨v, fun s => ?_⟩
  obtain ⟨r, hr, rfl⟩ := (run_meets h s fun n => hd (s n)).returns ha
  exact hr

/-- A walk that stops, with numbers that are in the datagram. -/
theorem mcOptionsListFromBuffer_given (h4 : 4 ≤ nbytes.toNat) (hwrap : NoWrap nbytes)
    (hp : p.toNat ≤ nbytes.toNat) (hreach : Reaches m nbytes.toNat k p.toNat y)
    (hstop : AtStop m nbytes y) (hgiven : NumbersGiven m nbytes.toNat p.toNat) :
    ∃ list p', p'.toNat ≤ nbytes.toNat ∧
      wp (datagramMode nbytes False) (mcOptionsListFromBuffer qsort nbytes p)
        (fun r m' => r = (list, p') ∧ m' = m) m := by
  obtain ⟨_, _, hk⟩ := walk_fuel hp hreach
  obtain ⟨options, p', hp', hall⟩ :=
    @optionsFromBuffer_given nbytes p m False k p.toNat y hwrap hreach hgiven 0 rfl
  have hcount := @countOptions_stop nbytes p m k y (fun r m' => r = UInt32.ofNat k ∧ m' = m)
    (datagramMode nbytes False) (fun _ => trivial) (fun _ => trivial) (fun _ hi => hi) h4 hwrap hp
    hreach hstop ⟨rfl, rfl⟩
  unfold mcOptionsListFromBuffer
  by_cases hzero : UInt32.ofNat k = 0
  · refine ⟨none, p, hp, ?_⟩
    rw [wp_bind]
    apply wp_mono ?_ hcount
    rintro _ _ ⟨rfl, rfl⟩
    rw [if_pos hzero]
    exact ⟨rfl, rfl⟩
  · refine ⟨some (mcOptionsListInit qsort options), p', ?_, ?_⟩
    · rw [hp']
      exact hreach.inside hp
    · rw [wp_bind]
      apply wp_mono ?_ hcount
      rintro _ _ ⟨rfl, rfl⟩
      rw [if_neg hzero, hk, wp_bind]
      exact hall _ ⟨rfl, rfl⟩

/-- A datagram that meets the condition has one result. -/
theorem mcMessageFromBuffer_settled (hwrap : NoWrap nbytes)
    (hin : DatagramInside m nbytes.toNat) : Settled qsort nbytes m := by
  obtain ⟨hbytes, hends⟩ := hin
  by_cases h4 : nbytes.toNat < 4
  · have hn4 : nbytes < 4 := UInt32.lt_iff_toNat_lt.mpr h4
    refine ⟨(none, 0), fun s => ?_⟩
    unfold mcMessageFromBuffer
    rw [if_pos hn4]
    rfl
  have h4' : 4 ≤ nbytes.toNat := Nat.le_of_not_lt h4
  obtain ⟨htoken, hheaders⟩ := hbytes.resolve_left h4
  have hstart := optionsAt_toNat m
  rw [← hstart] at htoken hheaders hends
  -- no option is taken
  have hover : RunsOver m nbytes.toNat (optionsAt m).toNat → Settled qsort nbytes m := by
    rintro ⟨k, q, hreach, hfall⟩
    have hfirst : m (optionsAt m).toNat ≠ 0xff := hreach.first_header hfall.2.1
    obtain ⟨v, hv⟩ := @payloadFromBuffer_settled Mode.total nbytes (optionsAt m) m
      (fun _ _ => trivial) htoken
    refine @settled_of_wp qsort Mode.total nbytes m (v.1.map (messageAt m none), v.2)
      (fun _ => trivial) not_false ?_
    rw [mcMessageFromBuffer_reads h4']
    refine ⟨fun _ _ => trivial, ?_⟩
    unfold mcOptionsListFromBuffer
    rw [wp_bind]
    apply countOptions_fallsOff h4' hwrap htoken hreach hfall
    intro m' hsame
    rw [if_pos rfl, wp_pure]
    apply wp_mono ?_ (hv m' (hsame _ (by have := hreach.le; omega)) (Or.inl hfirst))
    rintro r _ rfl
    rfl
  obtain ⟨k, q, hreach, hstop | hfall⟩ := hheaders.ends htoken
  · rcases hends with hlt | hruns | hgiven
    · exact absurd hlt h4
    · exact hover hruns
    · obtain ⟨list, p', hp', hlist⟩ := @mcOptionsListFromBuffer_given qsort nbytes (optionsAt m) m
        k q h4' hwrap htoken hreach hstop hgiven
      obtain ⟨v, hv⟩ := @payloadFromBuffer_settled (datagramMode nbytes False) nbytes p' m
        (fun _ hi => hi) hp'
      refine @settled_of_wp qsort (datagramMode nbytes False) nbytes m
        (v.1.map (messageAt m list), v.2) (fun _ => trivial) not_false ?_
      rw [mcMessageFromBuffer_reads h4']
      refine ⟨fun i hi => ?_, ?_⟩
      · rw [hstart] at htoken
        exact Nat.lt_of_lt_of_le hi htoken
      · apply wp_mono ?_ hlist
        rintro _ _ ⟨rfl, rfl⟩
        apply wp_mono ?_ (hv _ rfl (Or.inr rfl))
        rintro r _ rfl
        rfl
  · exact hover ⟨k, q, hreach, hfall⟩

end

/-! ## Section 3: What the numbers add up to -/

/-- What tells two results apart: a number that is not given changes it. -/
def numberSum (options : List McOption) : Nat :=
  (options.map fun option => option.optionNum.toNat).sum

/-- Over the `k` options from `x` to `y` some run gives numbers that add up to
    `c`, and to `k` times the number before them. -/
def Sums (nbytes : UInt32) (m : Mem) (k x y c : Nat) : Prop :=
  ∀ (m' : Mem) (prevnum : UInt16) (p : UInt32) (Q : Option (List McOption) × UInt32 → Mem → Prop),
    p.toNat = x → (∀ i, x ≤ i → m' i = m i) →
    wp (datagramMode nbytes True) (optionsFromBuffer nbytes k prevnum p) Q m' →
    ∃ options p' m'', Q (some options, p') m'' ∧ p'.toNat = y ∧ (∀ i, y ≤ i → m'' i = m i) ∧
      numberSum options ≡ k * prevnum.toNat + c [MOD 65536]

section

variable {qsort : Qsort McOption} {nbytes p : UInt32} {m : Mem} {k x y c : Nat}

/-- One option in front: its number, and those behind it, are raised by its
    delta. -/
theorem Sums.option (hwrap : NoWrap nbytes) (hlt : x < nbytes.toNat) (hmark : m x ≠ 0xff)
    (hlen : m x &&& 0x0f ≠ 14) (hend : optionEnd m x ≤ nbytes.toNat) {delta : UInt16}
    (hdelta : ∀ m' : Mem, (∀ i, x ≤ i → m' i = m i) →
      ∃ m1, NumberAt m' (x + 1) (m x >>> 4) delta m1)
    (h : Sums nbytes m k (optionEnd m x) y c) :
    Sums nbytes m (k + 1) x y ((k + 1) * delta.toNat + c) := by
  intro m' prevnum p Q hp hsame hwp
  subst hp
  have hopt : optionEnd m p.toNat = lengthAt m p.toNat
    + Wire.extensionSize (m p.toNat &&& 0x0f).toNat + announcedLength m p.toNat := rfl
  have hn := nbytes.toNat_lt
  have hhead := hsame p.toNat (Nat.le_refl _)
  have hgt := lengthAt_gt m p.toNat
  obtain ⟨hat, hends⟩ := optionEnd_congr p.toNat fun i hi _ => hsame i hi
  obtain ⟨m1, hd⟩ := hdelta m' hsame
  rw [optionsFromBuffer, wp_bind, optionFromBuffer_iff hwrap hlt, hhead, hat] at hwp
  have hstep := (hwp.2 delta m1 hd).2
  have hsame1 : ∀ i, lengthAt m p.toNat ≤ i → m1 i = m i := fun i hi =>
    (hd.outside (Or.inr hi)).trans (hsame i (by omega))
  obtain ⟨optlen, m2, hl⟩ := numberAt_exists m1 (lengthAt m p.toNat) (m p.toNat &&& 0x0f)
  obtain ⟨rfl, hvalue⟩ := numberAt_length hlen (hsame1 _ (Nat.le_refl _)) hl
  have hp1 : (UInt32.ofNat (lengthAt m p.toNat
      + Wire.extensionSize (m p.toNat &&& 0x0f).toNat)).toNat =
      lengthAt m p.toNat + Wire.extensionSize (m p.toNat &&& 0x0f).toNat :=
    ofNat32_toNat (by omega)
  have hp2 : (UInt32.ofNat (optionEnd m p.toNat)).toNat = optionEnd m p.toNat :=
    ofNat32_toNat (by omega)
  have hnext := (hstep optlen m2 hl _ _ hp1 (by rw [hp2, hp1, hvalue, hopt])).2
  simp only [wp_bind] at hnext
  obtain ⟨options, p', m'', hQ, hp', hm'', hsum⟩ :=
    h m2 (delta + prevnum) _ _ hp2 (fun i hi => hsame1 i (by omega)) hnext
  refine ⟨_, p', m'', hQ, hp', hm'', ?_⟩
  have hnum : (delta + prevnum).toNat ≡ delta.toNat + prevnum.toNat [MOD 65536] := by
    rw [UInt16.toNat_add]
    exact Nat.mod_modEq _ _
  have hrest := hsum.trans ((hnum.mul_left k).add_right c)
  have hall := hnum.add hrest
  have hsplit : delta.toNat + prevnum.toNat + (k * (delta.toNat + prevnum.toNat) + c) =
      (k + 1) * prevnum.toNat + ((k + 1) * delta.toNat + c) := by ring
  rw [hsplit] at hall
  exact hall

/-- A number that is in the datagram is read as what it is. -/
theorem delta_given (hdelta : m x >>> 4 ≠ 14) : ∃ delta : UInt16, ∀ m' : Mem,
    (∀ i, x ≤ i → m' i = m i) → ∃ m1, NumberAt m' (x + 1) (m x >>> 4) delta m1 := by
  obtain ⟨delta, m1, hd⟩ := numberAt_exists m (x + 1) (m x >>> 4)
  refine ⟨delta, fun m' hsame => ⟨m', ?_⟩⟩
  unfold NumberAt at hd ⊢
  by_cases h13 : m x >>> 4 = 13
  · rw [if_pos h13] at hd ⊢
    rw [hsame (x + 1) (by omega)]
    exact ⟨hd.1, rfl⟩
  · rw [if_neg h13, if_neg hdelta] at hd ⊢
    exact ⟨hd.1, rfl⟩

/-- Some sum can always be had. -/
theorem exists_sums (hwrap : NoWrap nbytes) (hreach : Reaches m nbytes.toNat k x y) :
    ∃ c, Sums nbytes m k x y c := by
  induction hreach with
  | here x =>
    refine ⟨0, fun m' prevnum p Q hp hsame hwp => ⟨[], p, m', hwp, hp, hsame, ?_⟩⟩
    rw [Nat.zero_mul]
    rfl
  | @option k x y hlt hmark hlen hend _ ih =>
    obtain ⟨c, hc⟩ := ih
    by_cases h14 : m x >>> 4 = 14
    · refine ⟨_, @Sums.option nbytes m k x y c hwrap hlt hmark hlen hend 0 (fun m' _ => ?_) hc⟩
      rw [h14]
      exact numberAt_any m' (x + 1) 0
    · obtain ⟨delta, hdelta⟩ := delta_given h14
      exact ⟨_, hc.option hwrap hlt hmark hlen hend hdelta⟩

/-- With a number from an uninitialised local two different ones can. -/
theorem sums_differ (hwrap : NoWrap nbytes) (hreach : Reaches m nbytes.toNat k x y)
    (hstop : AtStop m nbytes y) (hk : k < 65536) (hjunk : ¬ NumbersGiven m nbytes.toNat x) :
    0 < k ∧ ∃ c c', ¬ c ≡ c' [MOD 65536] ∧ Sums nbytes m k x y c ∧ Sums nbytes m k x y c' := by
  induction hreach with
  | here x =>
    exfalso
    apply hjunk
    intro j q hj hlt hmark
    cases hj with
    | here => exact absurd (hstop.not_header hlt) hmark
    | option hp hmark' _ _ _ => exact absurd (hstop.not_header hp) hmark'
  | @option k x y hlt hmark hlen hend hrest ih =>
    by_cases h14 : m x >>> 4 = 14
    · -- the first number: read as 0, and as 1
      obtain ⟨c, hc⟩ := exists_sums hwrap hrest
      have hany : ∀ delta : UInt16, Sums nbytes m (k + 1) x y ((k + 1) * delta.toNat + c) :=
        fun delta => hc.option hwrap hlt hmark hlen hend fun m' _ => by
          rw [h14]
          exact numberAt_any m' (x + 1) delta
      refine ⟨Nat.succ_pos k, _, _, ?_, hany 0, hany 1⟩
      intro heq
      have hzero := Nat.ModEq.add_right_cancel' c heq
      have h0 : (0 : UInt16).toNat = 0 := rfl
      have h1 : (1 : UInt16).toNat = 1 := rfl
      rw [h0, h1, Nat.mul_zero, Nat.mul_one] at hzero
      have hmod := Nat.ModEq.symm hzero
      rw [Nat.ModEq, Nat.mod_eq_of_lt hk] at hmod
      simp at hmod
    · obtain ⟨delta, hdelta⟩ := delta_given h14
      obtain ⟨-, c, c', hne, hc, hc'⟩ := ih hstop (by omega) fun hgiven => hjunk fun j q hj hq hm => by
        cases hj with
        | here => exact h14
        | option _ _ _ _ hj => exact hgiven _ q hj hq hm
      refine ⟨Nat.succ_pos k, _, _, ?_, hc.option hwrap hlt hmark hlen hend hdelta,
        hc'.option hwrap hlt hmark hlen hend hdelta⟩
      intro heq
      exact hne (Nat.ModEq.add_left_cancel' _ heq)

/-- Sorting the list does not change the sum. -/
theorem numberSum_mcOptionsListInit (options : List McOption) :
    numberSum (mcOptionsListInit qsort options).options = numberSum options :=
  ((qsort.perm _ _).map _).sum_nat

/-- So two different lists can come out. -/
theorem mcOptionsListFromBuffer_differ {Q : Option McOptionsList × UInt32 → Mem → Prop}
    (h4 : 4 ≤ nbytes.toNat) (hwrap : NoWrap nbytes) (hsmall : nbytes.toNat ≤ 65535)
    (hp : p.toNat ≤ nbytes.toNat) (hreach : Reaches m nbytes.toNat k p.toNat y)
    (hstop : AtStop m nbytes y) (hjunk : ¬ NumbersGiven m nbytes.toNat p.toNat)
    (h : wp (datagramMode nbytes True) (mcOptionsListFromBuffer qsort nbytes p) Q m) :
    ∃ c c', ¬ c ≡ c' [MOD 65536] ∧ ∀ d, d = c ∨ d = c' → ∃ list p' m',
      Q (some list, p') m' ∧ p'.toNat = y ∧ m' y = m y ∧ numberSum list.options ≡ d [MOD 65536] := by
  obtain ⟨_, _, hk⟩ := walk_fuel hp hreach
  obtain ⟨hpos, c, c', hne, hc, hc'⟩ := sums_differ hwrap hreach hstop (by omega) hjunk
  -- the options are counted, and there is one
  unfold mcOptionsListFromBuffer at h
  rw [wp_bind] at h
  obtain ⟨_, m1, ⟨rfl, hm1⟩, hcounted⟩ := can_wp (fun _ => trivial)
    (@countOptions_can_stop nbytes p m k y (fun r m' => r = UInt32.ofNat k ∧ m' = m) h4 hwrap hp
      hreach hstop ⟨rfl, rfl⟩) h
  have hzero : UInt32.ofNat k ≠ 0 := by
    intro hzero
    rw [hzero] at hk
    exact absurd hk (Nat.ne_of_lt hpos)
  rw [if_neg hzero, hk, wp_bind, hm1] at hcounted
  have hone : ∀ d, Sums nbytes m k p.toNat y d → ∃ list p' m', Q (some list, p') m' ∧
      p'.toNat = y ∧ m' y = m y ∧ numberSum list.options ≡ d [MOD 65536] := by
    intro d hd
    obtain ⟨options, p', m', hQ, hp', hm', hsum⟩ := hd m 0 p _ rfl (fun _ _ => rfl) hcounted
    refine ⟨mcOptionsListInit qsort options, p', m', hQ, hp', hm' y (Nat.le_refl y), ?_⟩
    rw [numberSum_mcOptionsListInit]
    have h0 : (0 : UInt16).toNat = 0 := rfl
    rw [h0, Nat.mul_zero, Nat.zero_add] at hsum
    exact hsum
  refine ⟨c, c', hne, ?_⟩
  rintro d (rfl | rfl)
  · exact hone _ hc
  · exact hone _ hc'

/-- One result for every junk: then the numbers are in the datagram, or no
    option is taken. -/
theorem numbers_of_settled (hsmall : nbytes.toNat ≤ 65535) (hbytes : BytesInside m nbytes.toNat)
    (hsettled : ∀ s s', (run (mcMessageFromBuffer qsort nbytes 0) m s').value =
      (run (mcMessageFromBuffer qsort nbytes 0) m s).value) :
    nbytes.toNat < 4 ∨ RunsOver m nbytes.toNat (4 + tokenLengthAt m) ∨
      NumbersGiven m nbytes.toNat (4 + tokenLengthAt m) := by
  have hwrap := noWrap_of_small hsmall
  by_cases h4 : nbytes.toNat < 4
  · exact Or.inl h4
  refine Or.inr ?_
  have h4' : 4 ≤ nbytes.toNat := Nat.le_of_not_lt h4
  obtain ⟨htoken, hheaders⟩ := hbytes.resolve_left h4
  have hstart := optionsAt_toNat m
  rw [← hstart] at htoken hheaders ⊢
  obtain ⟨k, q, hreach, hstop | hfall⟩ := hheaders.ends htoken
  · refine Or.inr ?_
    by_contra hjunk
    -- every run has the result of one of them
    have hwp : wp (datagramMode nbytes True) (mcMessageFromBuffer qsort nbytes 0)
        (fun r _ => (run (mcMessageFromBuffer qsort nbytes 0) m fun _ => 0).value = some r) m := by
      rw [wp_iff_run ⟨0, trivial⟩]
      intro s _
      refine ⟨reads_inside_of_bytesInside qsort hwrap hbytes s, fun _ _ => trivial, ?_⟩
      rw [hsettled s fun _ => 0]
      cases (run (mcMessageFromBuffer qsort nbytes 0) m s).value with
      | some r => rfl
      | none => trivial
    rw [mcMessageFromBuffer_reads h4'] at hwp
    obtain ⟨c, c', hne, hlists⟩ :=
      mcOptionsListFromBuffer_differ h4' hwrap hsmall htoken hreach hstop hjunk hwp.2
    have hresult : ∀ d, d = c ∨ d = c' → ∃ msg p' list,
        (run (mcMessageFromBuffer qsort nbytes 0) m fun _ => 0).value = some (some msg, p') ∧
          msg.options = some list ∧ numberSum list.options ≡ d [MOD 65536] := by
      intro d hd
      obtain ⟨list, p', m', hpayload, hp', hm', hsum⟩ := hlists d hd
      have haccept : nbytes.toNat ≤ p'.toNat + 1 ∨ m' p'.toNat = 0xff := by
        rw [hp', hm']
        rcases hstop with hend | ⟨_, hmark⟩
        · exact Or.inl (by omega)
        · exact Or.inr hmark
      have hin := hreach.inside htoken
      obtain ⟨r, _, ⟨payload, hsome, _⟩, hvalue⟩ := can_wp (fun _ => trivial)
        (payloadFromBuffer_can (by rw [hp']; exact hin) haccept) hpayload
      rw [hsome] at hvalue
      exact ⟨_, _, list, hvalue, rfl, hsum⟩
    obtain ⟨msg, p', list, hvalue, hlist, hsum⟩ := hresult c (Or.inl rfl)
    obtain ⟨msg', p'', list', hvalue', hlist', hsum'⟩ := hresult c' (Or.inr rfl)
    cases hvalue.symm.trans hvalue'
    cases hlist.symm.trans hlist'
    exact hne (hsum.symm.trans hsum')
  · exact Or.inl ⟨k, q, hreach, hfall⟩

end

/-! ## Section 4: The exact condition -/

theorem staysInside_of_datagramInside (qsort : Qsort McOption) {n : UInt32} {m : Mem}
    (hwrap : NoWrap n) (hin : DatagramInside m n.toNat) : StaysInside qsort n m := by
  have hreads := reads_inside_of_bytesInside qsort hwrap hin.1
  obtain ⟨v, hv⟩ := @mcMessageFromBuffer_settled qsort n m hwrap hin
  intro s
  refine ⟨hreads s, fun m' s' hm' => ?_⟩
  have hsame := run_congr (S := fun i => i < n.toNat) (mcMessageFromBuffer qsort n 0) s'
    (fun i hi => (hm' i hi).symm) (hreads s')
  rw [hsame.1, hv s', hv s]

/-- For a datagram that UDP can carry the condition is exact; for a longer
    one it is enough as long as no position wraps around. -/
theorem datagram_inside (qsort : Qsort McOption) (n : UInt32) (m : Mem) :
    (n.toNat ≤ 65535 → (StaysInside qsort n m ↔ DatagramInside m n.toNat)) ∧
      (NoWrap n → DatagramInside m n.toNat → StaysInside qsort n m) := by
  refine ⟨fun hsmall => ⟨fun hstays => ?_, fun hin => ?_⟩,
    fun hwrap hin => staysInside_of_datagramInside qsort hwrap hin⟩
  · have hbytes := (reads_inside_iff qsort hsmall).mp fun s => (hstays s).1
    exact ⟨hbytes, numbers_of_settled hsmall hbytes fun s s' => (hstays s).2 m s' fun _ _ => rfl⟩
  · exact staysInside_of_datagramInside qsort (noWrap_of_small hsmall) hin

/-- Four bytes that announce a one-byte token: the token is read at index 4. -/
theorem datagram_outside_token :
    ¬ StaysInside (insertion McOption) 4 (ofList [0x41, 1, 0, 7]) := by
  intro h
  have hread := (h fun _ => 0).1 4 (by decide)
  exact absurd hread (by decide)

/-- The witness datagram: a get with one option, in a buffer that holds the
    rest of a longer one. -/
theorem datagram_inside_get :
    StaysInside (insertion McOption) 6 (ofList [0x40, 1, 0, 7, 0xb1, 0x61, 0x1d]) := by
  have h6 : HeadersInside (ofList [0x40, 1, 0, 7, 0xb1, 0x61, 0x1d]) 6 6 := by
    rw [HeadersInside, if_neg (by omega)]
    trivial
  have h4 : HeadersInside (ofList [0x40, 1, 0, 7, 0xb1, 0x61, 0x1d]) 6 4 := by
    rw [HeadersInside, if_pos (by decide), if_neg (by decide), if_neg (by decide)]
    exact h6
  have hgiven : NumbersGiven (ofList [0x40, 1, 0, 7, 0xb1, 0x61, 0x1d]) 6 4 := by
    intro k q hreach hq hmark
    cases hreach with
    | here => decide
    | option _ _ _ _ hrest =>
      have hle := hrest.le
      have hend : optionEnd (ofList [0x40, 1, 0, 7, 0xb1, 0x61, 0x1d]) 4 = 6 := by decide
      omega
  exact ((datagram_inside (insertion McOption) 6
    (ofList [0x40, 1, 0, 7, 0xb1, 0x61, 0x1d])).1 (by decide)).mpr
      ⟨Or.inr ⟨by decide, h4⟩, Or.inr (Or.inr hgiven)⟩

end Mcoap

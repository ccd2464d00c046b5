import Mcoap.Decoder

/-! # Reads outside the datagram

    Which datagrams make `mc_message_from_buffer` read past their end.

    The decoder works in a read buffer that is larger than the datagram;
    what lies past the datagram is left over from earlier ones.  The bounds
    test of `mc_buffer_next_ptr` never fails, and an extended length is
    read without a test, so the decoder leaves the datagram

    * in the token, when the datagram is shorter than its token length says;
    * at a length nibble 13 whose extension byte is missing;
    * after a length nibble 14: its value is an uninitialised local, and the
      parsing pass takes as many bytes as that value says.

    `HeadersInside` walks the option headers as the counting pass does and
    says that none of these is met; `reads_inside_iff` says that it is
    exactly the condition. -/

namespace Mcoap

open ByteMem ByteProg StableSort

/-! ## Section 1: An option header in a buffer -/

/-- Where the extended part of the length lies, of an option that starts at `p`. -/
def lengthAt (m : Mem) (p : Nat) : Nat := p + 1 + Wire.extensionSize (m p >>> 4).toNat

/-- The length such an option announces; 15 stands for itself. -/
def announcedLength (m : Mem) (p : Nat) : Nat :=
  if m p &&& 0x0f = 13 then (m (lengthAt m p)).toNat + 13 else (m p &&& 0x0f).toNat

/-- Where such an option ends. -/
def optionEnd (m : Mem) (p : Nat) : Nat :=
  lengthAt m p + Wire.extensionSize (m p &&& 0x0f).toNat + announcedLength m p

theorem lengthAt_gt (m : Mem) (p : Nat) : p < lengthAt m p := by
  unfold lengthAt
  omega

theorem lengthAt_le_optionEnd (m : Mem) (p : Nat) : lengthAt m p ≤ optionEnd m p := by
  unfold optionEnd
  omega

theorem lengthAt_le (m : Mem) (p : Nat) : lengthAt m p ≤ p + 3 := by
  have h := Wire.extensionSize_le (m p >>> 4).toNat
  unfold lengthAt
  omega

/-- From `p` on, up to the first marker or the end, no option header of the
    `n` bytes has a length nibble 13 with its extension byte outside, or a
    length nibble 14 with its extension bytes inside. -/
def HeadersInside (m : Mem) (n p : Nat) : Prop :=
  if p < n ∧ m p ≠ 0xff then
    if m p &&& 0x0f = 13 then lengthAt m p < n ∧ HeadersInside m n (optionEnd m p)
    else if m p &&& 0x0f = 14 then n < lengthAt m p + 2
    else HeadersInside m n (optionEnd m p)
  else True
termination_by n - p
decreasing_by
  all_goals
    have h1 := lengthAt_gt m p
    have h2 := lengthAt_le_optionEnd m p
    omega

/-- The condition on a datagram of `n` bytes: it is too short for a header,
    or its token is inside and so are its option headers. -/
def BytesInside (m : Mem) (n : Nat) : Prop :=
  n < 4 ∨ (4 + tokenLengthAt m ≤ n ∧ HeadersInside m n (4 + tokenLengthAt m))

/-- `k` complete options lead from one position to another. -/
inductive Reaches (m : Mem) (n : Nat) : Nat → Nat → Nat → Prop where
  | here (p : Nat) : Reaches m n 0 p p
  | option {k p p' : Nat} (hp : p < n) (hmark : m p ≠ 0xff) (hlen : m p &&& 0x0f ≠ 14)
      (hend : optionEnd m p ≤ n) (hrest : Reaches m n k (optionEnd m p) p') :
      Reaches m n (k + 1) p p'

theorem Reaches.le {m : Mem} {n k p p' : Nat} (h : Reaches m n k p p') : p + k ≤ p' := by
  induction h with
  | here p => exact Nat.le_refl _
  | @option k p p' _ _ _ _ _ ih =>
    have h1 := lengthAt_gt m p
    have h2 := lengthAt_le_optionEnd m p
    omega

theorem Reaches.inside {m : Mem} {n k p p' : Nat} (h : Reaches m n k p p') (hp : p ≤ n) :
    p' ≤ n := by
  induction h with
  | here p => exact hp
  | option _ _ _ hend _ ih => exact ih hend

/-- A complete option is described by the bytes it covers. -/
theorem optionEnd_congr {m m' : Mem} (p : Nat)
    (hm : ∀ i, p ≤ i → i < optionEnd m p → m' i = m i) :
    lengthAt m' p = lengthAt m p ∧ optionEnd m' p = optionEnd m p := by
  have h1 := lengthAt_gt m p
  have h2 := lengthAt_le_optionEnd m p
  -- the head byte says where the length's extension lies, and whether there is one
  have hhead : m' p = m p := hm p (Nat.le_refl p) (by omega)
  have hat : lengthAt m' p = lengthAt m p := by rw [lengthAt, lengthAt, hhead]
  refine ⟨hat, ?_⟩
  rw [optionEnd, optionEnd, announcedLength, announcedLength, hat, hhead]
  by_cases h13 : m p &&& 0x0f = 13
  · have hext : m' (lengthAt m p) = m (lengthAt m p) := by
      apply hm _ (by omega)
      have hsize : Wire.extensionSize (m p &&& 0x0f).toNat = 1 := by
        rw [h13]
        rfl
      unfold optionEnd
      omega
    rw [hext]
  · rw [if_neg h13, if_neg h13]

theorem Reaches.congr {m m' : Mem} {n k p p' : Nat} (h : Reaches m n k p p')
    (hm : ∀ i, p ≤ i → i < p' → m' i = m i) : Reaches m' n k p p' := by
  induction h with
  | here p => exact Reaches.here p
  | @option k p p' hp hmark hlen hend hrest ih =>
    have hle := hrest.le
    have hgt := lengthAt_gt m p
    have hgt' := lengthAt_le_optionEnd m p
    have hhead : m' p = m p := hm p (Nat.le_refl p) (by omega)
    have hsame := (optionEnd_congr p fun i h1 h2 => hm i h1 (by omega)).2
    have htail := ih fun i h1 h2 => hm i (by omega) h2
    apply Reaches.option hp
    · rw [hhead]
      exact hmark
    · rw [hhead]
      exact hlen
    · rw [hsame]
      exact hend
    · rw [hsame]
      exact htail

/-- A header that leads the decoder out of the datagram. -/
def BadHeader (m : Mem) (n p : Nat) : Prop :=
  p < n ∧ m p ≠ 0xff ∧
    ((m p &&& 0x0f = 13 ∧ n ≤ lengthAt m p) ∨ (m p &&& 0x0f = 14 ∧ lengthAt m p + 2 ≤ n))

/-- Outside `HeadersInside`, complete options lead to a bad header. -/
theorem exists_bad_header {m : Mem} {n p : Nat} (h : ¬ HeadersInside m n p) :
    ∃ k p', Reaches m n k p p' ∧ BadHeader m n p' := by
  -- by induction on what is left of the datagram
  induction hk : n - p using Nat.strongRecOn generalizing p with
  | _ d ih =>
    have hgt := lengthAt_gt m p
    have hgt' := lengthAt_le_optionEnd m p
    -- a good option is passed over; past the end there is nothing left to go wrong
    have hnext : ¬ HeadersInside m n (optionEnd m p) → p < n → m p ≠ 0xff →
        m p &&& 0x0f ≠ 14 → ∃ k p', Reaches m n k p p' ∧ BadHeader m n p' :=
      fun hbad hp hmark hlen => by
        have hend : optionEnd m p ≤ n := by
          by_contra hc
          apply hbad
          rw [HeadersInside, if_neg (by omega)]
          trivial
        obtain ⟨k, p', hreach, hrest⟩ := ih (n - optionEnd m p) (by omega) hbad rfl
        exact ⟨k + 1, p', Reaches.option hp hmark hlen hend hreach, hrest⟩
    rw [HeadersInside] at h
    by_cases hp : p < n ∧ m p ≠ 0xff
    · rw [if_pos hp] at h
      by_cases h13 : m p &&& 0x0f = 13
      · have hne : m p &&& 0x0f ≠ 14 := by
          rw [h13]
          decide
        rw [if_pos h13] at h
        by_cases hext : lengthAt m p < n
        · exact hnext (fun hc => h ⟨hext, hc⟩) hp.1 hp.2 hne
        -- the extension byte is outside
        · exact ⟨0, p, Reaches.here p, hp.1, hp.2, Or.inl ⟨h13, Nat.le_of_not_lt hext⟩⟩
      · rw [if_neg h13] at h
        by_cases h14 : m p &&& 0x0f = 14
        -- both extension bytes are inside, and the junk takes over
        · rw [if_pos h14] at h
          exact ⟨0, p, Reaches.here p, hp.1, hp.2, Or.inr ⟨h14, Nat.le_of_not_lt h⟩⟩
        · rw [if_neg h14] at h
          exact hnext h hp.1 hp.2 h14
    · rw [if_neg hp] at h
      exact absurd trivial h

/-! ## Section 2: The decoder's steps -/

/-- Any junk, reads only below `nbytes`, writes anywhere. -/
def datagramMode (nbytes : UInt32) (aborts : Prop) : Mode UInt16 :=
  ⟨fun _ => True, fun i => i < nbytes.toNat, fun _ => True, aborts⟩

/-- What reading a number at `q` can give, and what it leaves in the buffer. -/
def NumberAt (m : Mem) (q : Nat) (nib : UInt8) (value : UInt16) (m' : Mem) : Prop :=
  if nib = 13 then value.toNat = (m q).toNat + 13 ∧ m' = m
  else if nib = 14 then ∃ w, value = msSwapU16 w + 269 ∧ m' = blit m q (image16 w)
  else value.toNat = nib.toNat ∧ m' = m

/-- Only a number with the nibble 14 changes the buffer, at its two bytes. -/
theorem NumberAt.unchanged {m m' : Mem} {q : Nat} {nib : UInt8} {value : UInt16} (hne : nib ≠ 14)
    (h : NumberAt m q nib value m') : m' = m := by
  unfold NumberAt at h
  by_cases h13 : nib = 13
  · rw [if_pos h13] at h
    exact h.2
  · rw [if_neg h13, if_neg hne] at h
    exact h.2

theorem NumberAt.outside {m m' : Mem} {q : Nat} {nib : UInt8} {value : UInt16}
    (h : NumberAt m q nib value m') {i : Nat} (hi : i < q ∨ q + Wire.extensionSize nib.toNat ≤ i) :
    m' i = m i := by
  by_cases h14 : nib = 14
  · subst h14
    obtain ⟨w, _, rfl⟩ := h
    exact blit_outside _ _ _ _ hi
  · rw [h.unchanged h14]

/-- Every 16-bit value can come out of a number with the nibble 14. -/
theorem numberAt_any (m : Mem) (q : Nat) (value : UInt16) :
    ∃ m', NumberAt m q 14 value m' := by
  have hsum : msSwapU16 (msSwapU16 (value - 269)) + 269 = value := by
    rw [msSwapU16_swap]
    exact UInt16.sub_add_cancel value 269
  exact ⟨_, msSwapU16 (value - 269), hsum.symm, rfl⟩

theorem numberAt_exists (m : Mem) (q : Nat) (nib : UInt8) : ∃ value m', NumberAt m q nib value m' := by
  by_cases h13 : nib = 13
  · have hbyte := (m q).toNat_lt
    refine ⟨UInt16.ofNat ((m q).toNat + 13), m, ?_⟩
    rw [NumberAt, if_pos h13]
    refine ⟨?_, rfl⟩
    exact ofNat16_toNat (by omega)
  · by_cases h14 : nib = 14
    · obtain ⟨m', h⟩ := numberAt_any m q 0
      exact ⟨0, m', h14 ▸ h⟩
    · refine ⟨nib.toUInt16, m, ?_⟩
      rw [NumberAt, if_neg h13, if_neg h14]
      exact ⟨UInt8.toNat_toUInt16 nib, rfl⟩

/-- Reading a number: exactly what it needs, and what it can give. -/
theorem optionNumFromBuffer_reads {md : Mode UInt16} {p : UInt32} {nib : UInt8} {m : Mem}
    {Q : UInt16 × UInt32 → Mem → Prop} (hd : ∀ w, md.draws w) (hw : ∀ i, md.writes i)
    (hp : p.toNat + 2 < 2 ^ 32) :
    wp md (optionNumFromBuffer nib p) Q m ↔
      (nib = 13 → md.reads p.toNat) ∧
      ∀ value m' p', NumberAt m p.toNat nib value m' →
        p'.toNat = p.toNat + Wire.extensionSize nib.toNat → Q (value, p') m' := by
  have hpos := skip_toNat (d := nib) (p := p) (by
    have := Wire.extensionSize_le nib.toNat
    omega)
  unfold optionNumFromBuffer NumberAt
  by_cases h13 : nib = 13
  -- one byte of the buffer
  · have hlt : ¬ nib < 13 := by
      rw [h13]
      decide
    have hval : ∀ b : UInt8, (encodedIntToValue nib b.toUInt16).toNat = b.toNat + 13 := fun b => by
      have hb := b.toNat_lt
      have h13' : (13 : UInt16).toNat = 13 := rfl
      rw [encodedIntToValue, if_neg hlt, if_pos h13, UInt16.toNat_add, UInt8.toNat_toUInt16]
      omega
    rw [if_pos h13] at hpos
    simp only [if_pos h13, mcBufferNextUint8, wp_bind, wp_readByte, wp_pure]
    constructor
    · rintro ⟨hr, hQ⟩
      refine ⟨fun _ => hr, fun value m' p' hv hp' => ?_⟩
      obtain ⟨hv, rfl⟩ := hv
      have hveq : value = encodedIntToValue nib (m' p.toNat).toUInt16 :=
        UInt16.toNat_inj.mp (by rw [hval]; exact hv)
      have hpeq : p' = p + 1 := UInt32.toNat_inj.mp (by rw [hpos]; exact hp')
      rw [hveq, hpeq]
      exact hQ
    · rintro ⟨hr, hQ⟩
      exact ⟨hr h13, hQ _ _ _ ⟨hval _, rfl⟩ hpos⟩
  · rw [if_neg h13] at hpos
    by_cases h14 : nib = 14
    -- a junk word, which is written to the buffer
    · have hlt : ¬ nib < 13 := by
        rw [h14]
        decide
      have hval : ∀ v, encodedIntToValue nib v = v + 269 := fun v => by
        rw [encodedIntToValue, if_neg hlt, if_neg h13, if_pos h14]
      rw [if_pos h14] at hpos
      simp only [if_neg h13, if_pos h14, mcBufferNextUint16, wp_bind, wp_drawn, wp_writeBytes,
        wp_pure, hval]
      constructor
      · intro hQ
        refine ⟨fun h => absurd h h13, fun value m' p' hv hp' => ?_⟩
        obtain ⟨w, rfl, rfl⟩ := hv
        have hpeq : p' = p + 2 := UInt32.toNat_inj.mp (by rw [hpos]; exact hp')
        rw [hpeq]
        exact (hQ w (hd w)).2
      · rintro ⟨_, hQ⟩ w _
        exact ⟨fun _ _ _ => hw _, hQ _ _ _ ⟨w, rfl, rfl⟩ hpos⟩
    · rw [if_neg h14] at hpos
      simp only [if_neg h13, if_neg h14, wp_pure]
      constructor
      · intro hQ
        refine ⟨fun h => absurd h h13, fun value m' p' hv hp' => ?_⟩
        obtain ⟨hv, rfl⟩ := hv
        have hveq : value = nib.toUInt16 :=
          UInt16.toNat_inj.mp (by rw [UInt8.toNat_toUInt16]; exact hv)
        have hpeq : p' = p := UInt32.toNat_inj.mp (by rw [hpos]; exact hp')
        rw [hveq, hpeq]
        exact hQ
      · rintro ⟨_, hQ⟩
        exact hQ _ _ _ ⟨UInt8.toNat_toUInt16 nib, rfl⟩ hpos

theorem optionNumFromBuffer_iff {nbytes p : UInt32} {ab : Prop} {nib : UInt8} {m : Mem}
    {Q : UInt16 × UInt32 → Mem → Prop} (hp : p.toNat + 2 < 2 ^ 32) :
    wp (datagramMode nbytes ab) (optionNumFromBuffer nib p) Q m ↔
      (nib = 13 → p.toNat < nbytes.toNat) ∧
      ∀ value m' p', NumberAt m p.toNat nib value m' →
        p'.toNat = p.toNat + Wire.extensionSize nib.toNat → Q (value, p') m' :=
  optionNumFromBuffer_reads (fun _ => trivial) (fun _ => trivial) hp

/-- A buffer whose positions do not wrap around while an option is read. -/
def NoWrap (nbytes : UInt32) : Prop := nbytes.toNat + 65540 ≤ 2 ^ 32

theorem noWrap_of_small {nbytes : UInt32} (h : nbytes.toNat ≤ 65535) : NoWrap nbytes := by
  unfold NoWrap
  omega

/-- The loop of `count_options` with the position of the header it ends at. -/
def countOptionsLoopAt (nbytes : UInt32) : Nat → UInt32 → UInt32 → Code (UInt32 × UInt32)
  | 0, _, _ => Prog.abort
  | fuel + 1, bpos, total => do
    if bpos < nbytes then
      let byte ← Prog.readByte bpos.toNat
      if byte = 0xff then
        return (total, bpos)
      else
        let delta := byte >>> 4
        let len := byte &&& 0x0f
        let next := bpos + 1
        let next := if delta = 13 then next + 1 else if delta = 14 then next + 2 else next
        let (extended, next) ← optionNumFromBuffer len next
        let next := next + extended.toUInt32
        if next > nbytes then return (0, bpos) else countOptionsLoopAt nbytes fuel next (total + 1)
    else
      return (total, bpos)

/-- It is the loop of the source, which keeps the position to itself. -/
theorem countOptionsLoop_at (nbytes : UInt32) (fuel : Nat) (bpos total : UInt32) :
    countOptionsLoop nbytes fuel bpos total =
      countOptionsLoopAt nbytes fuel bpos total >>= fun r => pure r.1 := by
  induction fuel generalizing bpos total with
  | zero => rfl
  | succ fuel ih =>
    unfold countOptionsLoop countOptionsLoopAt
    split
    · rw [bind_assoc]
      congr 1
      funext byte
      split
      · rfl
      · rw [bind_assoc]
        dsimp only
        congr 1
        funext r
        split
        · rfl
        · exact ih _ _
    · rfl

/-- One iteration of the counting pass at a header. -/
theorem countOptionsLoopAt_reads {md : Mode UInt16} {nbytes p total : UInt32} {fuel : Nat}
    {m : Mem} {Q : UInt32 × UInt32 → Mem → Prop} (hd : ∀ w, md.draws w) (hw : ∀ i, md.writes i)
    (hwrap : NoWrap nbytes) (hp : p.toNat < nbytes.toNat) (hmark : m p.toNat ≠ 0xff)
    (hr : md.reads p.toNat) :
    wp md (countOptionsLoopAt nbytes (fuel + 1) p total) Q m ↔
      (m p.toNat &&& 0x0f = 13 → md.reads (lengthAt m p.toNat)) ∧
      ∀ value m' p', NumberAt m (lengthAt m p.toNat) (m p.toNat &&& 0x0f) value m' →
        p'.toNat = lengthAt m p.toNat + Wire.extensionSize (m p.toNat &&& 0x0f).toNat
          + value.toNat →
        if p' > nbytes then Q (0, p) m'
        else wp md (countOptionsLoopAt nbytes fuel p' (total + 1)) Q m' := by
  unfold NoWrap at hwrap
  have hplt : p < nbytes := UInt32.lt_iff_toNat_lt.mpr hp
  have h1 := position_succ (show p.toNat < nbytes.toNat by omega)
  have hext := Wire.extensionSize_le (m p.toNat >>> 4).toNat
  have hext' := Wire.extensionSize_le (m p.toNat &&& 0x0f).toNat
  -- the counting pass skips the delta's extension without reading it
  have hskip : (if m p.toNat >>> 4 = 13 then p + 1 + 1
      else if m p.toNat >>> 4 = 14 then p + 1 + 2 else p + 1).toNat = lengthAt m p.toNat := by
    rw [skip_toNat (by omega), h1, lengthAt]
  have hat := lengthAt_le m p.toNat
  simp only [countOptionsLoopAt, if_pos hplt, wp_bind, wp_readByte, if_neg hmark]
  rw [optionNumFromBuffer_reads hd hw (by rw [hskip]; omega), hskip]
  constructor
  · rintro ⟨_, hread, hQ⟩
    refine ⟨hread, fun value m' p' hv hp' => ?_⟩
    have hvlt := value.toNat_lt
    have hmid : (UInt32.ofNat (lengthAt m p.toNat
        + Wire.extensionSize (m p.toNat &&& 0x0f).toNat)).toNat =
        lengthAt m p.toNat + Wire.extensionSize (m p.toNat &&& 0x0f).toNat :=
      ofNat32_toNat (by omega)
    have hstep := hQ value m' _ hv hmid
    have hpeq : UInt32.ofNat (lengthAt m p.toNat
        + Wire.extensionSize (m p.toNat &&& 0x0f).toNat) + value.toUInt32 = p' := by
      apply UInt32.toNat_inj.mp
      rw [position_no_wrap (by rw [hmid, UInt16.toNat_toUInt32]; omega), hmid,
        UInt16.toNat_toUInt32, hp']
    rw [wp_ite, hpeq] at hstep
    exact hstep
  · rintro ⟨hread, hQ⟩
    refine ⟨hr, hread, fun value m' p' hv hp' => ?_⟩
    have hvlt := value.toNat_lt
    rw [wp_ite]
    apply hQ value m' _ hv
    dsimp only
    rw [position_no_wrap (by rw [hp', UInt16.toNat_toUInt32]; omega), hp', UInt16.toNat_toUInt32]

theorem countOptionsLoop_reads {md : Mode UInt16} {nbytes p total : UInt32} {fuel : Nat} {m : Mem}
    {Q : UInt32 → Mem → Prop} (hd : ∀ w, md.draws w) (hw : ∀ i, md.writes i)
    (hwrap : NoWrap nbytes) (hp : p.toNat < nbytes.toNat) (hmark : m p.toNat ≠ 0xff)
    (hr : md.reads p.toNat) :
    wp md (countOptionsLoop nbytes (fuel + 1) p total) Q m ↔
      (m p.toNat &&& 0x0f = 13 → md.reads (lengthAt m p.toNat)) ∧
      ∀ value m' p', NumberAt m (lengthAt m p.toNat) (m p.toNat &&& 0x0f) value m' →
        p'.toNat = lengthAt m p.toNat + Wire.extensionSize (m p.toNat &&& 0x0f).toNat
          + value.toNat →
        if p' > nbytes then Q 0 m'
        else wp md (countOptionsLoop nbytes fuel p' (total + 1)) Q m' := by
  simp only [countOptionsLoop_at, wp_bind, wp_pure]
  exact countOptionsLoopAt_reads hd hw hwrap hp hmark hr

theorem countOptionsLoop_iff {nbytes p total : UInt32} {ab : Prop} {fuel : Nat} {m : Mem}
    {Q : UInt32 → Mem → Prop} (hwrap : NoWrap nbytes) (hp : p.toNat < nbytes.toNat)
    (hmark : m p.toNat ≠ 0xff) :
    wp (datagramMode nbytes ab) (countOptionsLoop nbytes (fuel + 1) p total) Q m ↔
      (m p.toNat &&& 0x0f = 13 → lengthAt m p.toNat < nbytes.toNat) ∧
      ∀ value m' p', NumberAt m (lengthAt m p.toNat) (m p.toNat &&& 0x0f) value m' →
        p'.toNat = lengthAt m p.toNat + Wire.extensionSize (m p.toNat &&& 0x0f).toNat
          + value.toNat →
        if p' > nbytes then Q 0 m'
        else wp (datagramMode nbytes ab) (countOptionsLoop nbytes fuel p' (total + 1)) Q m' :=
  countOptionsLoop_reads (fun _ => trivial) (fun _ => trivial) hwrap hp hmark hp

/-- One call of the parsing pass. -/
theorem optionFromBuffer_iff {nbytes p : UInt32} {ab : Prop} {prevnum : UInt16} {m : Mem}
    {Q : Option McOption × UInt32 → Mem → Prop} (hwrap : NoWrap nbytes)
    (hp : p.toNat < nbytes.toNat) :
    wp (datagramMode nbytes ab) (optionFromBuffer nbytes prevnum p) Q m ↔
      (m p.toNat >>> 4 = 13 → p.toNat + 1 < nbytes.toNat) ∧
      ∀ delta m1, NumberAt m (p.toNat + 1) (m p.toNat >>> 4) delta m1 →
        (m p.toNat &&& 0x0f = 13 → lengthAt m p.toNat < nbytes.toNat) ∧
        ∀ optlen m2, NumberAt m1 (lengthAt m p.toNat) (m p.toNat &&& 0x0f) optlen m2 →
          ∀ p1 p2 : UInt32,
            p1.toNat = lengthAt m p.toNat + Wire.extensionSize (m p.toNat &&& 0x0f).toNat →
            p2.toNat = p1.toNat + optlen.toNat →
            (∀ i, p1.toNat ≤ i → i < p2.toNat → i < nbytes.toNat) ∧
            Q (some (mcOptionInit (delta + prevnum) optlen.toUInt32
              (slice m2 p1.toNat optlen.toNat)), p2) m2 := by
  unfold NoWrap at hwrap
  have hn1 : ¬ nbytes < 1 := not_lt_one (by omega)
  have h1 := position_succ (show p.toNat < nbytes.toNat by omega)
  have hext := Wire.extensionSize_le (m p.toNat >>> 4).toNat
  have hext' := Wire.extensionSize_le (m p.toNat &&& 0x0f).toNat
  have hatdef : p.toNat + 1 + Wire.extensionSize (m p.toNat >>> 4).toNat = lengthAt m p.toNat := rfl
  have hmid : (UInt32.ofNat (lengthAt m p.toNat)).toNat = lengthAt m p.toNat :=
    ofNat32_toNat (by omega)
  unfold optionFromBuffer
  simp only [if_neg hn1, mcBufferNextUint8, mcBufferNextPtr_eq, msCopyUint8, wp_bind, wp_readByte,
    wp_pure, wp_readBytes]
  rw [optionNumFromBuffer_iff (by omega), h1, hatdef]
  constructor
  · rintro ⟨_, hread, hQ⟩
    refine ⟨hread, fun delta m1 hd => ?_⟩
    have hstep := hQ delta m1 _ hd hmid
    rw [optionNumFromBuffer_iff (by rw [hmid]; omega), hmid] at hstep
    refine ⟨hstep.1, fun optlen m2 hl p1 p2 hp1 hp2 => ?_⟩
    have hllt := optlen.toNat_lt
    have hpeq : p1 + optlen.toUInt32 = p2 := by
      apply UInt32.toNat_inj.mp
      rw [position_no_wrap (by rw [hp1, UInt16.toNat_toUInt32]; omega), UInt16.toNat_toUInt32, hp2]
    have hlast := hstep.2 optlen m2 p1 hl hp1
    rw [UInt16.toNat_toUInt32, hpeq, ← hp2] at hlast
    exact hlast
  · rintro ⟨hread, hQ⟩
    refine ⟨hp, hread, fun delta m1 p1 hd hp1 => ?_⟩
    obtain ⟨hread', hQ⟩ := hQ delta m1 hd
    rw [optionNumFromBuffer_iff (by rw [hp1]; omega), hp1]
    refine ⟨hread', fun optlen m2 p2 hl hp2 => ?_⟩
    dsimp only
    have hllt := optlen.toNat_lt
    have hend : (p2 + optlen.toUInt32).toNat = p2.toNat + optlen.toNat := by
      rw [position_no_wrap (by rw [hp2, UInt16.toNat_toUInt32]; omega), UInt16.toNat_toUInt32]
    have hlast := hQ optlen m2 hl p2 _ hp2 hend
    rw [hend] at hlast
    rw [UInt16.toNat_toUInt32]
    exact hlast

/-! ## Section 3: Datagrams the decoder stays inside of -/

/-- A length that is not in the third form is read in one way only, also
    when the bytes of the delta have changed. -/
theorem numberAt_length {m m1 m2 : Mem} {p : Nat} {optlen : UInt16} (hne : m p &&& 0x0f ≠ 14)
    (hsame : m1 (lengthAt m p) = m (lengthAt m p))
    (h : NumberAt m1 (lengthAt m p) (m p &&& 0x0f) optlen m2) :
    m2 = m1 ∧ optlen.toNat = announcedLength m p := by
  unfold NumberAt at h
  rw [announcedLength]
  by_cases h13 : m p &&& 0x0f = 13
  · rw [if_pos h13] at h ⊢
    rw [hsame] at h
    exact ⟨h.2, h.1⟩
  · rw [if_neg h13, if_neg hne] at h
    rw [if_neg h13]
    exact ⟨h.2, h.1⟩

theorem numberAt_small {m m' : Mem} {p : Nat} {value : UInt16}
    (hne : m p &&& 0x0f ≠ 14)
    (h : NumberAt m (lengthAt m p) (m p &&& 0x0f) value m') :
    m' = m ∧ lengthAt m p + Wire.extensionSize (m p &&& 0x0f).toNat + value.toNat =
      optionEnd m p := by
  obtain ⟨hmem, hvalue⟩ := numberAt_length hne rfl h
  rw [optionEnd, hvalue]
  exact ⟨hmem, rfl⟩

/-- An option that is complete does not end behind the buffer. -/
theorem optionEnd_inside {nbytes : UInt32} {m : Mem} {p : Nat}
    (hend : optionEnd m p ≤ nbytes.toNat) :
    (UInt32.ofNat (optionEnd m p)).toNat = optionEnd m p ∧
      ¬ UInt32.ofNat (optionEnd m p) > nbytes := by
  have hn := nbytes.toNat_lt
  have hpos : (UInt32.ofNat (optionEnd m p)).toNat = optionEnd m p := ofNat32_toNat (by omega)
  refine ⟨hpos, ?_⟩
  show ¬ nbytes < UInt32.ofNat (optionEnd m p)
  rw [UInt32.lt_iff_toNat_lt, hpos]
  omega

/-- The counting pass stays inside; when it counts anything it has met
    complete options only and has changed nothing. -/
theorem countOptionsLoop_inside {nbytes : UInt32} {m : Mem} {Q : UInt32 → Mem → Prop}
    (hwrap : NoWrap nbytes) (fuel : Nat) {p total : UInt32} (hp : p.toNat ≤ nbytes.toNat)
    (hfuel : nbytes.toNat < fuel + p.toNat) (hin : HeadersInside m nbytes.toNat p.toNat)
    (hreject : ∀ m', Q 0 m')
    (hcount : ∀ k p', Reaches m nbytes.toNat k p.toNat p' → Q (total + UInt32.ofNat k) m) :
    wp (datagramMode nbytes False) (countOptionsLoop nbytes fuel p total) Q m := by
  induction fuel generalizing p total with
  -- the fuel is more than the bytes that are left, and each option takes one
  | zero => omega
  | succ fuel ih =>
    have hdone : Q total m := by
      have h := hcount 0 p.toNat (Reaches.here _)
      simpa using h
    rw [HeadersInside] at hin
    by_cases hlt : p.toNat < nbytes.toNat
    · by_cases hmark : m p.toNat = 0xff
      · exact countOptionsLoop_stop (fun _ hi => hi) (Or.inr ⟨hlt, hmark⟩) hdone
      · rw [if_pos ⟨hlt, hmark⟩] at hin
        rw [countOptionsLoop_iff hwrap hlt hmark]
        -- an option that fits is counted, one that does not rejects the list
        have hnext : ∀ p' : UInt32, p'.toNat = optionEnd m p.toNat →
            m p.toNat &&& 0x0f ≠ 14 → HeadersInside m nbytes.toNat (optionEnd m p.toNat) →
            if p' > nbytes then Q 0 m
            else wp (datagramMode nbytes False)
              (countOptionsLoop nbytes fuel p' (total + 1)) Q m := fun p' hp' hne hrest => by
          have hgt := lengthAt_gt m p.toNat
          have hgt' := lengthAt_le_optionEnd m p.toNat
          by_cases hover : p' > nbytes
          · rw [if_pos hover]
            exact hreject m
          · have hle : p'.toNat ≤ nbytes.toNat :=
              Nat.le_of_not_lt (mt UInt32.lt_iff_toNat_lt.mpr hover)
            rw [if_neg hover]
            apply ih hle (by omega) (hp' ▸ hrest)
            intro k p'' hreach
            rw [hp'] at hreach hle
            rw [← count_succ]
            exact hcount (k + 1) p'' (Reaches.option hlt hmark hne hle hreach)
        by_cases h13 : m p.toNat &&& 0x0f = 13
        · have hne : m p.toNat &&& 0x0f ≠ 14 := by
            rw [h13]
            decide
          rw [if_pos h13] at hin
          refine ⟨fun _ => hin.1, fun value m' p' hv hp' => ?_⟩
          obtain ⟨rfl, hend⟩ := numberAt_small hne hv
          exact hnext p' (hp'.trans hend) hne hin.2
        · rw [if_neg h13] at hin
          refine ⟨fun h => absurd h h13, fun value m' p' hv hp' => ?_⟩
          by_cases h14 : m p.toNat &&& 0x0f = 14
          · -- the extension is cut off, and with it the option: nothing is counted
            rw [if_pos h14] at hin
            have hsize : Wire.extensionSize (m p.toNat &&& 0x0f).toNat = 2 := by
              rw [h14]
              rfl
            have hover : p' > nbytes := by
              show nbytes < p'
              rw [UInt32.lt_iff_toNat_lt]
              omega
            rw [if_pos hover]
            exact hreject m'
          · rw [if_neg h14] at hin
            obtain ⟨rfl, hend⟩ := numberAt_small h14 hv
            exact hnext p' (hp'.trans hend) h14 hin
    · have hend : p.toNat = nbytes.toNat := by omega
      exact countOptionsLoop_stop (fun _ hi => hi) (Or.inl hend) hdone

/-- The parsing pass stays inside complete options. -/
theorem optionsFromBuffer_inside {nbytes : UInt32} {k x y : Nat} (hwrap : NoWrap nbytes)
    {m : Mem} (hreach : Reaches m nbytes.toNat k x y) {p : UInt32} {prevnum : UInt16}
    {Q : Option (List McOption) × UInt32 → Mem → Prop} (hp : p.toNat = x)
    (hQ : ∀ r m', r.2.toNat = y → Q r m') :
    wp (datagramMode nbytes False) (optionsFromBuffer nbytes k prevnum p) Q m := by
  induction k generalizing x m p prevnum Q with
  | zero =>
    cases hreach
    exact hQ _ _ hp
  | succ k ih =>
    cases hreach with
    | option hlt hmark hne hend hrest =>
      subst hp
      have hopt : optionEnd m p.toNat = lengthAt m p.toNat
        + Wire.extensionSize (m p.toNat &&& 0x0f).toNat + announcedLength m p.toNat := rfl
      simp only [optionsFromBuffer, wp_bind]
      rw [optionFromBuffer_iff hwrap hlt]
      -- the two extension bytes lie in front of the option's end
      refine ⟨fun h13 => ?_, fun delta m1 hd => ⟨fun h13 => ?_, ?_⟩⟩
      · have hdef : lengthAt m p.toNat = p.toNat + 1 + 1 := by rw [lengthAt, h13]; rfl
        omega
      · have hsize : Wire.extensionSize (m p.toNat &&& 0x0f).toNat = 1 := by
          rw [h13]
          rfl
        omega
      · -- reading the delta changes no byte from the length's extension on
        have hsame : ∀ i, lengthAt m p.toNat ≤ i → m1 i = m i := fun i hi =>
          hd.outside (Or.inr hi)
        intro optlen m2 hl p1 p2 hp1 hp2
        obtain ⟨rfl, hlen⟩ := numberAt_length hne (hsame _ (Nat.le_refl _)) hl
        have hp2' : p2.toNat = optionEnd m p.toNat := by omega
        refine ⟨fun i _ hi => by omega, ?_⟩
        simp only [wp_bind, wp_pure]
        apply ih (hrest.congr fun i hi _ => hsame i (by omega)) hp2'
        intro r m' hr
        exact hQ _ _ hr

theorem mcOptionsListFromBuffer_inside {qsort : Qsort McOption} {nbytes p : UInt32} {m : Mem}
    (hwrap : NoWrap nbytes) (hp : p.toNat ≤ nbytes.toNat)
    (hin : HeadersInside m nbytes.toNat p.toNat) :
    wp (datagramMode nbytes False) (mcOptionsListFromBuffer qsort nbytes p)
      (fun r _ => r.2.toNat ≤ nbytes.toNat) m := by
  unfold mcOptionsListFromBuffer countOptions
  rw [wp_bind]
  by_cases h4 : nbytes < 4
  · simp only [if_pos h4, wp_pure, if_true]
    exact hp
  · rw [if_neg h4]
    apply countOptionsLoop_inside hwrap (nbytes.toNat + 1) hp (by omega) hin
    · intro m'
      rw [if_pos rfl, wp_pure]
      exact hp
    · intro k p' hreach
      rw [UInt32.zero_add]
      -- there are no more options than bytes, so the count does not wrap
      have hk : (UInt32.ofNat k).toNat = k := by
        have hn := nbytes.toNat_lt
        have hle := hreach.le
        have hle' := hreach.inside hp
        exact ofNat32_toNat (by omega)
      by_cases hk0 : UInt32.ofNat k = 0
      · rw [if_pos hk0, wp_pure]
        exact hp
      · rw [if_neg hk0, hk, wp_bind]
        apply optionsFromBuffer_inside hwrap hreach rfl
        intro r m' hr
        rw [wp_pure]
        dsimp only
        rw [hr]
        exact hreach.inside hp

theorem payloadFromBuffer_inside {nbytes p : UInt32} {m : Mem} (hp : p.toNat ≤ nbytes.toNat) :
    wp (datagramMode nbytes False) (payloadFromBuffer nbytes p) (fun _ _ => True) m := by
  have hrem := position_room hp
  unfold payloadFromBuffer
  by_cases hgt : nbytes - p > 1
  -- more than the marker is left
  · have hgt' : 1 < (nbytes - p).toNat := UInt32.lt_iff_toNat_lt.mp hgt
    have hmarker : p.toNat < nbytes.toNat := by omega
    simp only [if_pos hgt, wp_bind, wp_readByte]
    refine ⟨hmarker, ?_⟩
    by_cases hmark : m p.toNat = 0xff
    · obtain ⟨hp1, hpl, hfits⟩ := payload_room hmarker
      simp only [hmark, ne_eq, not_true, if_false, mcBufferCopyFrom, hfits, if_true, wp_bind,
        wp_readBytes, wp_pure]
      exact ⟨fun i _ hi => show i < nbytes.toNat by omega, trivial⟩
    · simp only [ne_eq, hmark, not_false_eq_true, if_true, wp_pure]
  · simp only [if_neg hgt, wp_pure]

/-! ## Section 4: Datagrams that lead the decoder out -/

/-- The counting pass goes through complete options. -/
theorem countOptionsLoopAt_reaches {md : Mode UInt16} {nbytes : UInt32} {m : Mem}
    {Q : UInt32 × UInt32 → Mem → Prop} (hd : ∀ w, md.draws w) (hw : ∀ i, md.writes i)
    (hr : ReadsBelow md nbytes) (hwrap : NoWrap nbytes) {k x y fuel : Nat}
    (hreach : Reaches m nbytes.toNat k x y) {p p' total : UInt32} (hp : p.toNat = x)
    (hp' : p'.toNat = y) :
    wp md (countOptionsLoopAt nbytes (k + fuel) p total) Q m ↔
      wp md (countOptionsLoopAt nbytes fuel p' (total + UInt32.ofNat k)) Q m := by
  induction hreach generalizing p total with
  | here q =>
    have heq : p' = p := UInt32.toNat_inj.mp (by rw [hp', hp])
    simp [heq]
  | @option k q y hlt hmark hne hend hrest ih =>
    subst hp
    obtain ⟨hpos, hover⟩ := optionEnd_inside hend
    have hfuel : k + 1 + fuel = k + fuel + 1 := by omega
    rw [hfuel, count_succ, ← ih hpos hp', countOptionsLoopAt_reads hd hw hwrap hlt hmark (hr _ hlt)]
    -- such a length is read in one way only
    constructor
    · intro ⟨_, hQ⟩
      obtain ⟨value, m', hv⟩ := numberAt_exists m (lengthAt m p.toNat) (m p.toNat &&& 0x0f)
      obtain ⟨rfl, hoption⟩ := numberAt_small hne hv
      have hstep := hQ value m' _ hv (hpos.trans hoption.symm)
      rw [if_neg hover] at hstep
      exact hstep
    · intro hQ
      have hopt : optionEnd m p.toNat = lengthAt m p.toNat
        + Wire.extensionSize (m p.toNat &&& 0x0f).toNat + announcedLength m p.toNat := rfl
      refine ⟨fun h13 => hr _ ?_, fun value m' p'' hv hp'' => ?_⟩
      · have hsize : Wire.extensionSize (m p.toNat &&& 0x0f).toNat = 1 := by
          rw [h13]
          rfl
        omega
      · obtain ⟨rfl, hoption⟩ := numberAt_small hne hv
        have hsame : p'' = UInt32.ofNat (optionEnd m' p.toNat) :=
          UInt32.toNat_inj.mp (by rw [hp'', hoption, hpos])
        rw [hsame, if_neg hover]
        exact hQ

theorem countOptionsLoop_reaches {md : Mode UInt16} {nbytes : UInt32} {m : Mem}
    {Q : UInt32 → Mem → Prop} (hd : ∀ w, md.draws w) (hw : ∀ i, md.writes i)
    (hr : ReadsBelow md nbytes) (hwrap : NoWrap nbytes) {k x y fuel : Nat}
    (hreach : Reaches m nbytes.toNat k x y) {p p' total : UInt32} (hp : p.toNat = x)
    (hp' : p'.toNat = y) :
    wp md (countOptionsLoop nbytes (k + fuel) p total) Q m ↔
      wp md (countOptionsLoop nbytes fuel p' (total + UInt32.ofNat k)) Q m := by
  simp only [countOptionsLoop_at, wp_bind, wp_pure]
  exact countOptionsLoopAt_reaches hd hw hr hwrap hreach hp hp'

/-- The parsing pass goes through complete options; the bytes past them are
    as they were. -/
theorem optionsFromBuffer_reaches {nbytes : UInt32} {ab : Prop} (hwrap : NoWrap nbytes)
    {k j x y : Nat} {m : Mem} (hreach : Reaches m nbytes.toNat k x y) {p : UInt32}
    {prevnum : UInt16} {Q : Option (List McOption) × UInt32 → Mem → Prop} (hp : p.toNat = x)
    (h : wp (datagramMode nbytes ab) (optionsFromBuffer nbytes (k + j) prevnum p) Q m) :
    ∃ p' prevnum' Q' m', p'.toNat = y ∧ (∀ i, y ≤ i → m' i = m i) ∧
      wp (datagramMode nbytes ab) (optionsFromBuffer nbytes j prevnum' p') Q' m' := by
  induction k generalizing x m p prevnum Q with
  | zero =>
    cases hreach
    rw [Nat.zero_add] at h
    exact ⟨p, prevnum, Q, m, hp, fun _ _ => rfl, h⟩
  | succ k ih =>
    cases hreach with
    | option hlt hmark hne hend hrest =>
      subst hp
      have hn := nbytes.toNat_lt
      have hle := hrest.le
      have hopt : optionEnd m p.toNat = lengthAt m p.toNat
        + Wire.extensionSize (m p.toNat &&& 0x0f).toNat + announcedLength m p.toNat := rfl
      have hfuel : k + 1 + j = k + j + 1 := by omega
      rw [hfuel] at h
      simp only [optionsFromBuffer, wp_bind] at h
      rw [optionFromBuffer_iff hwrap hlt] at h
      obtain ⟨delta, m1, hd⟩ := numberAt_exists m (p.toNat + 1) (m p.toNat >>> 4)
      have hsame : ∀ i, lengthAt m p.toNat ≤ i → m1 i = m i := fun i hi =>
        hd.outside (Or.inr hi)
      have hstep := (h.2 delta m1 hd).2
      obtain ⟨optlen, m2, hl⟩ :=
        numberAt_exists m1 (lengthAt m p.toNat) (m p.toNat &&& 0x0f)
      obtain ⟨rfl, hvalue⟩ := numberAt_length hne (hsame _ (Nat.le_refl _)) hl
      have hp1 : (UInt32.ofNat (lengthAt m p.toNat
          + Wire.extensionSize (m p.toNat &&& 0x0f).toNat)).toNat =
          lengthAt m p.toNat + Wire.extensionSize (m p.toNat &&& 0x0f).toNat :=
        ofNat32_toNat (by omega)
      have hp2 : (UInt32.ofNat (optionEnd m p.toNat)).toNat = optionEnd m p.toNat :=
        ofNat32_toNat (by omega)
      have hnext := (hstep optlen m2 hl _ _ hp1 (by rw [hp2, hp1, hvalue, hopt])).2
      simp only [wp_bind] at hnext
      obtain ⟨p', prevnum', Q', m', hp', hm', hwp⟩ :=
        ih (hrest.congr fun i hi _ => hsame i (by omega)) hp2 hnext
      exact ⟨p', prevnum', Q', m', hp', fun i hi => by rw [hm' i hi, hsame i (by omega)], hwp⟩

/-- A length nibble 14 with its extension bytes inside: for some junk, the
    parsing pass reads past the end. -/
theorem optionFromBuffer_escapes {nbytes p : UInt32} {ab : Prop} {prevnum : UInt16} {m : Mem}
    {Q : Option McOption × UInt32 → Mem → Prop} (hwrap : NoWrap nbytes)
    (hsmall : nbytes.toNat ≤ 65535) (hp : p.toNat < nbytes.toNat)
    (h14 : m p.toNat &&& 0x0f = 14) (hext : lengthAt m p.toNat + 2 ≤ nbytes.toNat) :
    ¬ wp (datagramMode nbytes ab) (optionFromBuffer nbytes prevnum p) Q m := by
  intro h
  rw [optionFromBuffer_iff hwrap hp] at h
  -- some junk makes the length 65535, more than the datagram has
  obtain ⟨delta, m1, hd⟩ := numberAt_exists m (p.toNat + 1) (m p.toNat >>> 4)
  obtain ⟨m2, hl⟩ := numberAt_any m1 (lengthAt m p.toNat) 65535
  have hsize : Wire.extensionSize (m p.toNat &&& 0x0f).toNat = 2 := by
    rw [h14]
    rfl
  have hp1 : (UInt32.ofNat (lengthAt m p.toNat + 2)).toNat = lengthAt m p.toNat + 2 :=
    ofNat32_toNat (by omega)
  have hp2 : (UInt32.ofNat (lengthAt m p.toNat + 2 + 65535)).toNat =
      lengthAt m p.toNat + 2 + 65535 := ofNat32_toNat (by omega)
  have h65535 : (65535 : UInt16).toNat = 65535 := by decide
  have hreads := ((h.2 delta m1 hd).2 65535 m2 (h14 ▸ hl) _ _ (by rw [hp1, hsize])
    (by rw [hp2, hp1, h65535])).1
  have hbad := hreads nbytes.toNat (by omega) (by omega)
  omega

/-- The list decoder leaves the buffer at a bad header. -/
theorem mcOptionsListFromBuffer_escapes {qsort : Qsort McOption} {nbytes p : UInt32} {ab : Prop}
    {m : Mem} {Q : Option McOptionsList × UInt32 → Mem → Prop} (hwrap : NoWrap nbytes)
    (hsmall : nbytes.toNat ≤ 65535) (h4 : 4 ≤ nbytes.toNat)
    (hbad : ¬ HeadersInside m nbytes.toNat p.toNat) :
    ¬ wp (datagramMode nbytes ab) (mcOptionsListFromBuffer qsort nbytes p) Q m := by
  intro h
  -- `k` options are counted before the bad header is met
  obtain ⟨k, y, hreach, hy, hmark, hkind⟩ := exists_bad_header hbad
  have hle := hreach.le
  have hn4 : ¬ nbytes < 4 := UInt32.not_lt.mpr (UInt32.le_iff_toNat_le.mpr h4)
  have hpos : (UInt32.ofNat y).toNat = y := ofNat32_toNat (by omega)
  have hfuel : nbytes.toNat + 1 = k + (nbytes.toNat - k - 1 + 1 + 1) := by omega
  unfold mcOptionsListFromBuffer countOptions at h
  rw [if_neg hn4, wp_bind, hfuel] at h
  have hcount := (countOptionsLoop_reaches (fun _ => trivial) (fun _ => trivial) (fun _ hi => hi)
    hwrap hreach rfl hpos).mp h
  rw [UInt32.zero_add] at hcount
  rw [← hpos] at hy hmark hkind
  rw [countOptionsLoop_iff hwrap hy hmark] at hcount
  rcases hkind with ⟨h13, hext⟩ | ⟨h14, hext⟩
  · have hread := hcount.1 h13
    omega
  · -- a length that ends exactly at the end: the counting pass stops there and counts it
    rw [h14] at hcount
    have hsize : Wire.extensionSize (14 : UInt8).toNat = 2 := rfl
    have hv : (UInt16.ofNat (nbytes.toNat - (lengthAt m (UInt32.ofNat y).toNat + 2))).toNat =
        nbytes.toNat - (lengthAt m (UInt32.ofNat y).toNat + 2) := ofNat16_toNat (by omega)
    obtain ⟨m1, hl⟩ := numberAt_any m (lengthAt m (UInt32.ofNat y).toNat)
      (UInt16.ofNat (nbytes.toNat - (lengthAt m (UInt32.ofNat y).toNat + 2)))
    have hstep := hcount.2 _ m1 nbytes hl (by rw [hsize, hv]; omega)
    have hself : ¬ nbytes > nbytes := UInt32.lt_irrefl nbytes
    rw [if_neg hself] at hstep
    have hlt : ¬ nbytes < nbytes := UInt32.lt_irrefl nbytes
    simp only [countOptionsLoop, if_neg hlt, wp_pure] at hstep
    have htotal : UInt32.ofNat k + 1 = UInt32.ofNat (k + 1) := by
      rw [UInt32.ofNat_add]
      rfl
    have hk : (UInt32.ofNat (k + 1)).toNat = k + 1 := ofNat32_toNat (by omega)
    have hne : UInt32.ofNat (k + 1) ≠ 0 := fun h0 => by
      rw [h0] at hk
      simp at hk
    rw [htotal, if_neg hne, hk, wp_bind] at hstep
    -- the parsing pass then meets the same header, with the counted bytes as they were
    have hlengthAt := lengthAt_gt m (UInt32.ofNat y).toNat
    have hsame : ∀ i, i < lengthAt m (UInt32.ofNat y).toNat → m1 i = m i := fun i hi =>
      hl.outside (Or.inl hi)
    obtain ⟨p', prevnum', Q', m', hp', hm', hwp⟩ :=
      optionsFromBuffer_reaches hwrap (hreach.congr fun i _ hi => hsame i (by omega)) rfl hstep
    have hp'y : p' = UInt32.ofNat y := UInt32.toNat_inj.mp (by rw [hp', hpos])
    subst hp'y
    have hhead : m' (UInt32.ofNat y).toNat = m (UInt32.ofNat y).toNat := by
      rw [hm' _ (by omega), hsame _ hlengthAt]
    have hat : lengthAt m' (UInt32.ofNat y).toNat = lengthAt m (UInt32.ofNat y).toNat := by
      rw [lengthAt, lengthAt, hhead]
    simp only [optionsFromBuffer, wp_bind] at hwp
    exact optionFromBuffer_escapes hwrap hsmall hy (by rw [hhead]; exact h14)
      (by rw [hat]; exact hext) hwp

/-! ## Section 5: Reading inside -/

/-- The decoder reads inside a datagram that meets the condition. -/
theorem reads_inside_of_bytesInside (qsort : Qsort McOption) {n : UInt32} {m : Mem}
    (hwrap : NoWrap n) (hin : BytesInside m n.toNat) (s : Supply UInt16) (i : Nat)
    (hi : Access.rd i ∈ (run (mcMessageFromBuffer qsort n 0) m s).trace) : i < n.toNat := by
  have hp := optionsAt_toNat m
  have hwp : wp (datagramMode n False) (mcMessageFromBuffer qsort n 0) (fun _ _ => True) m := by
    by_cases h4 : n.toNat < 4
    · have hn4 : n < 4 := UInt32.lt_iff_toNat_lt.mpr h4
      unfold mcMessageFromBuffer
      rw [if_pos hn4]
      trivial
    · rcases hin with hlt | ⟨htoken, hheaders⟩
      · exact absurd hlt h4
      · rw [mcMessageFromBuffer_reads (by omega)]
        refine ⟨fun i hi => Nat.lt_of_lt_of_le hi htoken, ?_⟩
        apply wp_mono ?_ (mcOptionsListFromBuffer_inside hwrap (by rw [hp]; exact htoken)
          (by rw [hp]; exact hheaders))
        intro r m' hr
        exact payloadFromBuffer_inside hr
  exact (run_meets hwp s fun _ => trivial).1 i hi

/-- For a datagram that UDP can carry the condition is exact. -/
theorem reads_inside_iff (qsort : Qsort McOption) {n : UInt32} {m : Mem}
    (hsmall : n.toNat ≤ 65535) :
    (∀ s i, Access.rd i ∈ (run (mcMessageFromBuffer qsort n 0) m s).trace → i < n.toNat) ↔
      BytesInside m n.toNat := by
  have hwrap := noWrap_of_small hsmall
  have hp := optionsAt_toNat m
  refine ⟨fun hreads => ?_, fun hin => reads_inside_of_bytesInside qsort hwrap hin⟩
  by_contra hout
  have h4 : 4 ≤ n.toNat := by
    by_contra hlt
    exact hout (Or.inl (by omega))
  -- what no run reads, the program cannot be made to read
  have hwp : wp (datagramMode n True) (mcMessageFromBuffer qsort n 0) (fun _ _ => True) m := by
    rw [wp_iff_run ⟨0, trivial⟩]
    intro s _
    refine ⟨hreads s, fun _ _ => trivial, ?_⟩
    split
    · trivial
    · trivial
  rw [mcMessageFromBuffer_reads h4] at hwp
  obtain ⟨htoken, hrest⟩ := hwp
  have hfits : 4 + tokenLengthAt m ≤ n.toNat := by
    by_contra hc
    exact absurd (htoken n.toNat (Nat.lt_of_not_le hc)) (Nat.lt_irrefl _)
  exact mcOptionsListFromBuffer_escapes hwrap hsmall h4
    (by rw [hp]; exact fun hin => hout (Or.inr ⟨hfits, hin⟩)) hrest

end Mcoap

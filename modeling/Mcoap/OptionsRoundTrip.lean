import Mcoap.RoundTrip

/-! # Options round trip

    Over the whole range of numbers and lengths, decoding an encoded list
    gives it back exactly when no delta and no length needs the third form.

    A number in the third form is read with `mc_buffer_next_uint16`, which
    stores the value of an uninitialised local over its two bytes.  To see
    the damage, let every such local hold the same byte `b` twice:

    * `Keeps b`: a byte that is `b` stays `b`, since nothing else is ever
      written;
    * the first number in the third form has its first extension byte
      overwritten with `b`, in the counting pass if it is a length and in
      the parsing pass if it is a delta;
    * with a `b` that was not there before, the buffer has changed. -/

namespace Mcoap

open ByteMem ByteProg StableSort

/-! ## Section 1: Runs with one junk byte -/

/-- Every uninitialised local holds the byte `b` twice. -/
def junkMode (b : UInt8) : Mode UInt16 :=
  ⟨fun w => w = msWord16 b b, fun _ => True, fun _ => True, True⟩

theorem junkMode_reads (b : UInt8) (nbytes : UInt32) : ReadsBelow (junkMode b) nbytes :=
  fun _ _ => trivial

/-- Bytes that are `b` stay `b`. -/
def Keeps {α : Type} (b : UInt8) (x : Code α) : Prop :=
  ∀ m, wp (junkMode b) x (fun _ m' => ∀ i, m i = b → m' i = b) m

section keeps
variable {α β : Type} {b : UInt8}

theorem Keeps.pure (a : α) : Keeps b (pure a : Code α) := fun _ _ h => h

theorem Keeps.abort : Keeps b (Prog.abort : Code α) := fun _ => trivial

theorem Keeps.readByte (i : Nat) : Keeps b (Prog.readByte i) := fun _ => ⟨trivial, fun _ h => h⟩

theorem Keeps.readBytes (p n : Nat) : Keeps b (Prog.readBytes p n) := by
  intro m
  rw [wp_readBytes]
  exact ⟨fun _ _ _ => trivial, fun _ h => h⟩

theorem Keeps.bind {x : Code α} {f : α → Code β} (hx : Keeps b x) (hf : ∀ a, Keeps b (f a)) :
    Keeps b (x >>= f) := by
  intro m
  rw [wp_bind]
  apply wp_mono ?_ (hx m)
  intro a m' hm'
  apply wp_mono ?_ (hf a m')
  intro _ m'' hm'' i hi
  exact hm'' i (hm' i hi)

theorem Keeps.ite {c : Prop} [Decidable c] {x y : Code α} (hx : Keeps b x) (hy : Keeps b y) :
    Keeps b (if c then x else y) := by
  split
  · exact hx
  · exact hy

/-- What follows a program that left `b` somewhere leaves it there. -/
theorem Keeps.after {x : Code α} {f : α → Code β} {q : Nat} {m : Mem}
    (hx : wp (junkMode b) x (fun _ m' => m' q = b) m) (hf : ∀ a, Keeps b (f a)) :
    wp (junkMode b) (x >>= f) (fun _ m' => m' q = b) m := by
  rw [wp_bind]
  apply wp_mono ?_ hx
  intro a m' hq
  apply wp_mono ?_ (hf a m')
  intro _ m'' hm''
  exact hm'' q hq

end keeps

/-- The two bytes stored are both the junk byte. -/
theorem mcBufferNextUint16_junk (b : UInt8) (p : UInt32) (m : Mem) :
    wp (junkMode b) (mcBufferNextUint16 p)
      (fun _ m' => m' p.toNat = b ∧ ∀ i, m i = b → m' i = b) m := by
  simp only [mcBufferNextUint16, wp_bind, wp_drawn, wp_writeBytes, wp_pure]
  intro w hw
  subst hw
  refine ⟨fun _ _ _ => trivial, ?_⟩
  simp only [msWord16_bytes, blit]
  -- elsewhere the buffer is as it was, and where it changes it is `b`
  refine ⟨by simp, fun i hi => ?_⟩
  by_cases h1 : i = p.toNat + 1
  · simp [h1]
  · by_cases h0 : i = p.toNat
    · simp [h0]
    · rw [put_ne _ _ _ _ h1, put_ne _ _ _ _ h0]
      exact hi

theorem mcBufferNextUint16_keeps (b : UInt8) (p : UInt32) : Keeps b (mcBufferNextUint16 p) :=
  fun m => wp_mono (fun _ _ h => h.2) (mcBufferNextUint16_junk b p m)

theorem optionNumFromBuffer_keeps (b nib : UInt8) (p : UInt32) :
    Keeps b (optionNumFromBuffer nib p) := by
  unfold optionNumFromBuffer mcBufferNextUint8
  refine Keeps.ite ?_ (Keeps.ite ?_ (Keeps.pure _))
  · exact Keeps.bind (Keeps.bind (Keeps.readByte _) fun _ => Keeps.pure _) fun _ => Keeps.pure _
  · exact Keeps.bind (mcBufferNextUint16_keeps b p) fun _ => Keeps.pure _

theorem countOptionsLoop_keeps (b : UInt8) (nbytes : UInt32) (fuel : Nat) (p total : UInt32) :
    Keeps b (countOptionsLoop nbytes fuel p total) := by
  induction fuel generalizing p total with
  | zero => exact Keeps.abort
  | succ fuel ih =>
    unfold countOptionsLoop
    refine Keeps.ite (Keeps.bind (Keeps.readByte _) fun byte => ?_) (Keeps.pure _)
    refine Keeps.ite (Keeps.pure _) (Keeps.bind (optionNumFromBuffer_keeps b _ _) fun r => ?_)
    exact Keeps.ite (Keeps.pure _) (ih _ _)

theorem optionFromBuffer_keeps (b : UInt8) (nbytes : UInt32) (prevnum : UInt16) (p : UInt32) :
    Keeps b (optionFromBuffer nbytes prevnum p) := by
  unfold optionFromBuffer mcBufferNextUint8
  refine Keeps.ite (Keeps.pure _) (Keeps.bind (Keeps.bind (Keeps.readByte _)
    fun _ => Keeps.pure _) fun r => ?_)
  refine Keeps.bind (optionNumFromBuffer_keeps b _ _) fun r => ?_
  refine Keeps.bind (optionNumFromBuffer_keeps b _ _) fun r => ?_
  simp only [mcBufferNextPtr_eq, msCopyUint8]
  exact Keeps.bind (Keeps.readBytes _ _) fun _ => Keeps.pure _

theorem optionsFromBuffer_keeps (b : UInt8) (nbytes : UInt32) (n : Nat) (prevnum : UInt16)
    (p : UInt32) : Keeps b (optionsFromBuffer nbytes n prevnum p) := by
  induction n generalizing prevnum p with
  | zero => exact Keeps.pure _
  | succ n ih =>
    unfold optionsFromBuffer
    refine Keeps.bind (optionFromBuffer_keeps b _ _ _) fun r => ?_
    obtain ⟨current, p'⟩ := r
    cases current with
    | none => exact Keeps.pure _
    | some current => exact Keeps.bind (ih _ _) fun _ => Keeps.pure _

/-! ## Section 2: The first number in the third form -/

theorem optionNumFromBuffer_large {b nib : UInt8} {n : Nat} (p : UInt32) (m : Mem)
    (hnib : nib.toNat = Wire.nibble n) (hn : 269 ≤ n) :
    wp (junkMode b) (optionNumFromBuffer nib p) (fun _ m' => m' p.toNat = b) m := by
  rw [Wire.nibble_large hn] at hnib
  have heq : nib = 14 := nibble_eq_iff.mpr hnib
  have hne : ¬ nib = 13 := by
    rw [heq]
    decide
  unfold optionNumFromBuffer
  rw [if_neg hne, if_pos heq, wp_bind]
  exact wp_mono (fun _ _ h => h.1) (mcBufferNextUint16_junk b p m)

/-- The counting pass meets a length in the third form. -/
theorem countOptionsLoop_large {b : UInt8} {nbytes p total : UInt32} {fuel prev : Nat} {m : Mem}
    {o : Wire.Opt} (hlen : 269 ≤ o.value.length)
    (hheld : Holds m p.toNat (Wire.encodeOption prev o))
    (hin : p.toNat + (Wire.encodeOption prev o).length ≤ nbytes.toNat) :
    wp (junkMode b) (countOptionsLoop nbytes (fuel + 1) p total)
      (fun _ m' => m' (p.toNat + 1 + (Wire.extension (o.num - prev)).length) = b) m := by
  obtain ⟨hbyte, _, _, _⟩ := holds_encodeOption hheld
  rw [Wire.encodeOption_length] at hin
  have hplt : p < nbytes := UInt32.lt_iff_toNat_lt.mpr (by omega)
  have hlow := Wire.headByte_low (o.num - prev) o.value.length
  have hskip := skipDelta_toNat hin
  unfold countOptionsLoop
  rw [if_pos hplt, wp_bind]
  simp only [wp_readByte, hbyte]
  refine ⟨trivial, ?_⟩
  rw [if_neg (Wire.headByte_ne_marker _ _), ← hskip]
  exact Keeps.after (optionNumFromBuffer_large _ m hlow hlen) fun r =>
    Keeps.ite (Keeps.pure _) (countOptionsLoop_keeps b _ _ _ _)

/-- A list with such a length has a byte that the counting pass overwrites. -/
theorem countOptionsLoop_damage (nbytes : UInt32) {m : Mem} (os : List Wire.Opt)
    {p : UInt32} (total : UInt32) (fuel : Nat) {prev : Nat} (hlarge : ∃ o ∈ os, 269 ≤ o.value.length)
    (hheld : Holds m p.toNat (Wire.encodeOptions prev os))
    (hin : p.toNat + (Wire.encodeOptions prev os).length ≤ nbytes.toNat) :
    ∃ q, q < nbytes.toNat ∧ ∀ b,
      wp (junkMode b) (countOptionsLoop nbytes (os.length + fuel) p total)
        (fun _ m' => m' q = b) m := by
  induction os generalizing p total prev with
  | nil =>
    obtain ⟨o, ho, _⟩ := hlarge
    exact absurd ho List.not_mem_nil
  | cons o os ih =>
    rw [Wire.encodeOptions, holds_append] at hheld
    rw [Wire.encodeOptions, List.length_append] at hin
    have hfuel : (o :: os).length + fuel = os.length + fuel + 1 := by
      rw [List.length_cons]
      omega
    rw [hfuel]
    by_cases hlen : o.value.length < 269
    · have hrest : ∃ o' ∈ os, 269 ≤ o'.value.length := by
        obtain ⟨o', ho', hl⟩ := hlarge
        rcases List.mem_cons.mp ho' with rfl | ho'
        · omega
        · exact ⟨o', ho', hl⟩
      -- the position after the head, and what lies there
      have hp' : (p + UInt32.ofNat (Wire.encodeOption prev o).length).toNat =
          p.toNat + (Wire.encodeOption prev o).length :=
        position_add_ofNat nbytes (by omega)
      obtain ⟨q, hq, hdamage⟩ := ih (p := p + UInt32.ofNat (Wire.encodeOption prev o).length)
        (total + 1) hrest (by rw [hp']; exact hheld.2) (by omega)
      refine ⟨q, hq, fun b => ?_⟩
      apply countOptionsLoop_step (junkMode_reads b nbytes) hlen hheld.1 (by omega)
      intro p'' hp''
      have heq : p'' = p + UInt32.ofNat (Wire.encodeOption prev o).length :=
        UInt32.toNat_inj.mp (by omega)
      rw [heq]
      exact hdamage b
    -- this is the option with the long value
    · have hq := Wire.encodeOption_length prev o
      exact ⟨_, by omega, fun b => countOptionsLoop_large (by omega) hheld.1 (by omega)⟩

/-- The parsing pass meets a delta in the third form. -/
theorem optionFromBuffer_large {b : UInt8} {nbytes p : UInt32} {prevnum : UInt16} {m : Mem}
    {o : Wire.Opt} (hdelta : 269 ≤ o.num - prevnum.toNat)
    (hheld : Holds m p.toNat (Wire.encodeOption prevnum.toNat o))
    (hin : p.toNat + (Wire.encodeOption prevnum.toNat o).length ≤ nbytes.toNat) :
    wp (junkMode b) (optionFromBuffer nbytes prevnum p)
      (fun _ m' => m' (p.toNat + 1) = b) m := by
  obtain ⟨hbyte, _, _, _⟩ := holds_encodeOption hheld
  rw [Wire.encodeOption_length] at hin
  have hn1 : ¬ nbytes < 1 := not_lt_one (by omega)
  have h1 := position_succ (show p.toNat < nbytes.toNat by omega)
  have hhigh := Wire.headByte_high (o.num - prevnum.toNat) o.value.length
  unfold optionFromBuffer mcBufferNextUint8
  rw [if_neg hn1, wp_bind, wp_bind]
  simp only [wp_readByte, wp_pure, hbyte]
  refine ⟨trivial, ?_⟩
  rw [← h1]
  refine Keeps.after (optionNumFromBuffer_large _ m hhigh hdelta) fun r => ?_
  refine Keeps.bind (optionNumFromBuffer_keeps b _ _) fun r => ?_
  simp only [mcBufferNextPtr_eq, msCopyUint8]
  exact Keeps.bind (Keeps.readBytes _ _) fun _ => Keeps.pure _

/-- A list with such a delta has a byte that the parsing pass overwrites. -/
theorem optionsFromBuffer_damage (nbytes : UInt32) {m : Mem} (os : List Wire.Opt) {p : UInt32}
    (prevnum : UInt16) (hasc : Wire.Ascending prevnum.toNat os) (hnum : ∀ o ∈ os, o.num ≤ 65535)
    (hlen : ∀ o ∈ os, o.value.length < 269) (hlarge : ¬ Wire.Small prevnum.toNat os)
    (hheld : Holds m p.toNat (Wire.encodeOptions prevnum.toNat os))
    (hin : p.toNat + (Wire.encodeOptions prevnum.toNat os).length ≤ nbytes.toNat) :
    ∃ q, q < nbytes.toNat ∧ ∀ b,
      wp (junkMode b) (optionsFromBuffer nbytes os.length prevnum p) (fun _ m' => m' q = b) m := by
  induction os generalizing p prevnum with
  | nil => exact absurd trivial hlarge
  | cons o os ih =>
    obtain ⟨hprev, hasc⟩ := hasc
    have hlen0 := hlen o List.mem_cons_self
    have hnum0 := hnum o List.mem_cons_self
    rw [Wire.encodeOptions, holds_append] at hheld
    rw [Wire.encodeOptions, List.length_append] at hin
    simp only [List.length_cons, optionsFromBuffer]
    by_cases hdelta : o.num - prevnum.toNat < 269
    -- the large delta is further on
    · have hrest : ¬ Wire.Small o.num os := fun h => hlarge ⟨⟨hdelta, hlen0⟩, h⟩
      have hp' : (p + UInt32.ofNat (Wire.encodeOption prevnum.toNat o).length).toNat =
          p.toNat + (Wire.encodeOption prevnum.toNat o).length :=
        position_add_ofNat nbytes (by omega)
      have ho : (UInt16.ofNat o.num).toNat = o.num := ofNat16_toNat (by omega)
      obtain ⟨q, hq, hdamage⟩ := ih
        (p := p + UInt32.ofNat (Wire.encodeOption prevnum.toNat o).length)
        (UInt16.ofNat o.num) (by rw [ho]; exact hasc)
        (fun o' ho' => hnum o' (List.mem_cons_of_mem _ ho'))
        (fun o' ho' => hlen o' (List.mem_cons_of_mem _ ho')) (by rw [ho]; exact hrest)
        (by rw [ho, hp']; exact hheld.2) (by rw [ho]; omega)
      refine ⟨q, hq, fun b => ?_⟩
      rw [wp_bind]
      apply optionFromBuffer_step (junkMode_reads b nbytes) hprev hnum0 hdelta hlen0 hheld.1
        (by omega)
      intro current p'' hcurrent hp''
      have hcnum : current.optionNum = UInt16.ofNat o.num := by
        apply UInt16.toNat_inj.mp
        rw [ho, ← hcurrent]
        rfl
      have heq : p'' = p + UInt32.ofNat (Wire.encodeOption prevnum.toNat o).length :=
        UInt32.toNat_inj.mp (by omega)
      dsimp only
      rw [hcnum, heq]
      exact Keeps.after (hdamage b) fun _ => Keeps.pure _
    -- this is the option with the large delta
    · have hq := Wire.encodeOption_length prevnum.toNat o
      refine ⟨p.toNat + 1, ?_, fun b => ?_⟩
      · have hext : (Wire.extension (o.num - prevnum.toNat)).length = 2 := by
          rw [Wire.extension_large (by omega)]
          rfl
        omega
      · refine Keeps.after (optionFromBuffer_large (by omega) hheld.1 (by omega)) fun r => ?_
        obtain ⟨current, p'⟩ := r
        cases current with
        | none => exact Keeps.pure _
        | some current =>
          exact Keeps.bind (optionsFromBuffer_keeps b _ _ _ _) fun _ => Keeps.pure _

/-! ## Section 3: Lists -/

/-- Outside the first two forms, some byte of the buffer is overwritten. -/
theorem mcOptionsListFromBuffer_damage (qsort : Qsort McOption) {nbytes : UInt32} {m : Mem}
    {os : List Wire.Opt} (h4 : 4 ≤ nbytes.toNat) (hasc : Wire.Ascending 0 os)
    (hnum : ∀ o ∈ os, o.num ≤ 65535) (hlarge : ¬ Wire.Small 0 os)
    (hheld : Holds m 0 (Wire.encodeOptions 0 os))
    (hend : (Wire.encodeOptions 0 os).length = nbytes.toNat) :
    ∃ q, q < nbytes.toNat ∧ ∀ b,
      wp (junkMode b) (mcOptionsListFromBuffer qsort nbytes 0) (fun _ m' => m' q = b) m := by
  have hcount := Wire.length_le_encodeOptions 0 os
  have hn := nbytes.toNat_lt
  -- whatever was counted, the parsing pass keeps the junk bytes that are there
  have hparse : ∀ (b : UInt8) (noptions : UInt32),
      Keeps b (if noptions = 0 then (pure (none, 0) : Code (Option McOptionsList × UInt32)) else
        optionsFromBuffer nbytes noptions.toNat 0 0 >>= fun r =>
          pure (r.1.map (mcOptionsListInit qsort), r.2)) := fun b noptions =>
    Keeps.ite (Keeps.pure _) (Keeps.bind (optionsFromBuffer_keeps b _ _ _ _) fun _ => Keeps.pure _)
  by_cases hlen : ∀ o ∈ os, o.value.length < 269
  · -- every length is short: the counting pass changes nothing, the parsing pass does
    obtain ⟨q, hq, hdamage⟩ := optionsFromBuffer_damage nbytes os (p := 0) 0
      hasc hnum hlen hlarge hheld (by simpa using Nat.le_of_eq hend)
    refine ⟨q, hq, fun b => ?_⟩
    unfold mcOptionsListFromBuffer
    rw [wp_bind]
    have hz : (0 : UInt32).toNat = 0 := rfl
    apply countOptions_encoded (p := 0) 0 (junkMode_reads b nbytes) h4 hlen hheld
      (by omega)
    · exact Or.inl (by omega)
    · have hlength : (UInt32.ofNat os.length).toNat = os.length := ofNat32_toNat (by omega)
      have hpos : UInt32.ofNat os.length ≠ 0 := fun h => by
        rw [h] at hlength
        have hnil : os = [] := List.eq_nil_of_length_eq_zero hlength.symm
        rw [hnil] at hlarge
        exact hlarge trivial
      rw [if_neg hpos, hlength]
      exact Keeps.after (hdamage b) fun _ => Keeps.pure _
  · -- the first long length is met by the counting pass
    have hlong : ∃ o ∈ os, 269 ≤ o.value.length := by
      push Not at hlen
      exact hlen
    have hfuel : nbytes.toNat + 1 = os.length + (nbytes.toNat + 1 - os.length) := by omega
    obtain ⟨q, hq, hdamage⟩ := countOptionsLoop_damage nbytes os (p := 0) 0
      (nbytes.toNat + 1 - os.length) hlong hheld
      (by simpa using Nat.le_of_eq hend)
    refine ⟨q, hq, fun b => ?_⟩
    have hn4 : ¬ nbytes < 4 := UInt32.not_lt.mpr (UInt32.le_iff_toNat_le.mpr h4)
    unfold mcOptionsListFromBuffer countOptions
    rw [if_neg hn4, hfuel]
    exact Keeps.after (hdamage b) (hparse b)

/-- Decoding the `n` bytes of `mem` returns a list with these options,
    moves the position to the end and leaves the bytes as they were. -/
def OptionsReadBack (qsort : Qsort McOption) (options : List McOption) (n : UInt32) (mem : Mem)
    (s : Supply UInt16) : Prop :=
  ∃ list', (run (mcOptionsListFromBuffer qsort n 0) mem s).value = some (some list', n) ∧
    wireOptions list'.options = wireOptions options ∧
    ∀ i, i < n.toNat → (run (mcOptionsListFromBuffer qsort n 0) mem s).mem i = mem i

/-- An encoded list is read back, whatever the uninitialised locals hold,
    if and only if every delta and every length is in the first two forms. -/
theorem options_roundtrip_iff {qsort : Qsort McOption} (hq : qsort.Stable)
    (options : List McOption) (hne : options ≠ []) (hfit : ValuesFit options)
    (h4 : 4 ≤ (listBytes (some (mcOptionsListInit qsort options))).length) (nbytes : UInt32)
    (hroom : (listBytes (some (mcOptionsListInit qsort options))).length ≤ nbytes.toNat)
    (m : Mem) (s : Supply UInt16) :
    ∃ n, (run (mcOptionsListToBuffer (some (mcOptionsListInit qsort options)) nbytes 0) m s).value =
        some (true, n) ∧
      ((∀ s', OptionsReadBack qsort (mcOptionsListInit qsort options).options n
          (run (mcOptionsListToBuffer (some (mcOptionsListInit qsort options)) nbytes 0) m s).mem
          s') ↔
        Wire.Small 0 (wireOptions (mcOptionsListInit qsort options).options)) := by
  have hlist := mcOptionsListInit_encodable qsort hfit
  have hneList : (mcOptionsListInit qsort options).options ≠ [] := fun h =>
    hne (List.Perm.eq_nil ((qsort.perm _ _).symm.trans (List.Perm.of_eq h)))
  generalize mcOptionsListInit qsort options = list at *
  have hz : (0 : UInt32).toNat = 0 := rfl
  obtain ⟨⟨ok, n⟩, hn, hok, hlen, hmem⟩ := (run_meets
    ((mcOptionsListToBuffer_encodes nbytes hlist).fits (p := 0) (by omega) m)
    s (fun _ => trivial)).returns id
  dsimp only at hok hlen
  rw [hz, Nat.zero_add] at hlen
  rw [hz] at hmem
  subst hok
  generalize (run (mcOptionsListToBuffer (some list) nbytes 0) m s).mem = mem at *
  have hheld : Holds mem 0 (listBytes (some list)) := by
    rw [hmem]
    exact holds_blit m 0 _
  refine ⟨n, hn, ?_, ?_⟩
  · intro hback
    by_contra hlarge
    obtain ⟨q, hq', hdamage⟩ := mcOptionsListFromBuffer_damage qsort (by omega)
      hlist.sorted wireOptions_num hlarge hheld hlen.symm
    -- a junk byte that does not already lie at the overwritten place
    have hjunk : mem q + 1 ≠ mem q := by
      intro h
      simp at h
    obtain ⟨list', hval, _, hsame⟩ := hback fun _ => msWord16 (mem q + 1) (mem q + 1)
    have hmeets := run_meets (hdamage (mem q + 1))
      (fun _ => msWord16 (mem q + 1) (mem q + 1)) (fun _ => rfl)
    obtain ⟨_, _, hpost⟩ := hmeets
    rw [hval] at hpost
    exact hjunk (hpost.symm.trans (hsame q hq'))
  · intro hsmall s'
    have hwp : wp (readerMode n) (mcOptionsListFromBuffer qsort n 0)
        (fun r m' => m' = mem ∧ r.2 = n ∧ ∃ list', r.1 = some list' ∧
          wireOptions list'.options = wireOptions list.options) mem := by
      apply mcOptionsListFromBuffer_encoded hq (readerMode_reads n) (by omega) hlist.sorted
        wireOptions_num hsmall hsmall.values hheld
      · exact Nat.le_of_eq (by rw [hz, Nat.zero_add]; exact hlen.symm)
      · exact Or.inl (by rw [hz, Nat.zero_add]; exact hlen.symm)
      · intro list' p' hlist' hnone hp'
        rw [hz, Nat.zero_add] at hp'
        have hsome : list' ≠ none := fun h => by
          have hwire := hnone.mp h
          apply hneList
          apply List.eq_nil_of_length_eq_zero
          rw [← wireOptions_length]
          exact congrArg List.length hwire
        obtain ⟨l, rfl⟩ := Option.ne_none_iff_exists'.mp hsome
        exact ⟨rfl, UInt32.toNat_inj.mp (hp'.trans hlen.symm), l, rfl, hlist'⟩
    obtain ⟨⟨r, pos⟩, hr, hmem', hpos, list', hr', hwire⟩ :=
      (run_meets hwp s' (fun _ => trivial)).returns id
    dsimp only at hpos hr'
    subst hpos hr'
    exact ⟨list', hr, hwire, fun i _ => congrFun hmem' i⟩

/-- One option with the number 300 and a one-byte value takes four bytes;
    reading them back changes one of them. -/
theorem options_roundtrip_300 :
    ValuesFit [⟨300, McBuffer.ofList [1]⟩] ∧
    (listBytes (some (mcOptionsListInit (insertion McOption) [⟨300, McBuffer.ofList [1]⟩]))).length
      = 4 ∧
    (run (mcOptionsListToBuffer
      (some (mcOptionsListInit (insertion McOption) [⟨300, McBuffer.ofList [1]⟩])) 4 0)
      (fun _ => 0) (fun _ => 0)).value = some (true, 4) ∧
    ¬ OptionsReadBack (insertion McOption)
      (mcOptionsListInit (insertion McOption) [⟨300, McBuffer.ofList [1]⟩]).options 4
      (run (mcOptionsListToBuffer
        (some (mcOptionsListInit (insertion McOption) [⟨300, McBuffer.ofList [1]⟩])) 4 0)
        (fun _ => 0) (fun _ => 0)).mem (fun _ => 0xffff) := by
  refine ⟨?_, by decide, by decide, ?_⟩
  · intro option ho
    rw [List.mem_singleton.mp ho]
    decide
  · intro ⟨_, _, _, hsame⟩
    exact absurd (hsame 1 (by decide)) (by decide)

/-- The witness list: two options in the first two forms, out of order. -/
theorem options_roundtrip_iff_pair :
    ∃ n, (run (mcOptionsListToBuffer (some (mcOptionsListInit (insertion McOption)
        [⟨60, McBuffer.ofList [7]⟩, ⟨11, McBuffer.ofList [97, 98]⟩])) 16 0)
        (fun _ => 0) (fun _ => 0)).value = some (true, n) ∧
      ((∀ s', OptionsReadBack (insertion McOption) (mcOptionsListInit (insertion McOption)
          [⟨60, McBuffer.ofList [7]⟩, ⟨11, McBuffer.ofList [97, 98]⟩]).options n
          (run (mcOptionsListToBuffer (some (mcOptionsListInit (insertion McOption)
            [⟨60, McBuffer.ofList [7]⟩, ⟨11, McBuffer.ofList [97, 98]⟩])) 16 0)
            (fun _ => 0) (fun _ => 0)).mem s') ↔
        Wire.Small 0 (wireOptions (mcOptionsListInit (insertion McOption)
          [⟨60, McBuffer.ofList [7]⟩, ⟨11, McBuffer.ofList [97, 98]⟩]).options)) :=
  options_roundtrip_iff (insertion_stable McOption)
    [⟨60, McBuffer.ofList [7]⟩, ⟨11, McBuffer.ofList [97, 98]⟩] (by simp)
    (by
      intro option ho
      rcases List.mem_cons.mp ho with rfl | ho
      · decide
      · rw [List.mem_singleton.mp ho]
        decide)
    (by decide) 16 (by decide) (fun _ => 0) (fun _ => 0)

end Mcoap

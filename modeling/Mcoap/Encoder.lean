import Mcoap.Options
import Mcoap.Wire

/-! # What the options encoder writes

    `mc_options_list_to_buffer` appends the RFC 7252 3.1 encoding of the
    list to the buffer, as far as it fits.

    * `Emits`: an encoder that appends given bytes; when they do not fit it
      fails after a prefix of them;
    * `writtenOptions`: the bytes appended for any list, with every length
      cut to 16 bits; for a list with short values they are the encoding;
    * one lemma for each function of the encoder, put together by
      `Emits.andThen`;
    * `mcOptionsListBufferSize_eq`: the size function counts those bytes;
    * `list_written_as_far_as_it_fits`: what a buffer with too little room
      is left with. -/

namespace Mcoap

open ByteMem ByteProg

/-! ## Section 1: Positions -/

theorem position_room {nbytes p : UInt32} (h : p.toNat ≤ nbytes.toNat) :
    (nbytes - p).toNat = nbytes.toNat - p.toNat :=
  UInt32.toNat_sub_of_le nbytes p (UInt32.le_iff_toNat_le.mpr h)

/-- A position that does not wrap around. -/
theorem position_no_wrap {p k : UInt32} (h : p.toNat + k.toNat < 2 ^ 32) :
    (p + k).toNat = p.toNat + k.toNat := by
  rw [UInt32.toNat_add]
  exact Nat.mod_eq_of_lt h

theorem position_add {p k : UInt32} (nbytes : UInt32) (h : p.toNat + k.toNat ≤ nbytes.toNat) :
    (p + k).toNat = p.toNat + k.toNat := by
  have hn := nbytes.toNat_lt
  exact position_no_wrap (by omega)

theorem position_succ {nbytes p : UInt32} (h : p.toNat < nbytes.toNat) :
    (p + 1).toNat = p.toNat + 1 :=
  position_add (k := 1) nbytes h

/-- One more on a counter. -/
theorem count_succ (total : UInt32) (k : Nat) :
    total + UInt32.ofNat (k + 1) = total + 1 + UInt32.ofNat k := by
  rw [UInt32.ofNat_add, UInt32.add_assoc, UInt32.add_comm (UInt32.ofNat k)]
  rfl

theorem not_lt_one {nbytes : UInt32} (h : 0 < nbytes.toNat) : ¬ nbytes < 1 := by
  rw [UInt32.lt_iff_toNat_lt, UInt32.toNat_one]
  omega

theorem position_add_ofNat {p : UInt32} {k : Nat} (nbytes : UInt32) (h : p.toNat + k ≤ nbytes.toNat) :
    (p + UInt32.ofNat k).toNat = p.toNat + k := by
  have hn := nbytes.toNat_lt
  have hk : (UInt32.ofNat k).toNat = k := ofNat32_toNat (by omega)
  rw [position_add nbytes (by omega), hk]

/-! ## Section 2: Appending bytes -/

/-- An encoder reads nothing, writes below `nbytes` and always returns. -/
def encoderMode (nbytes : UInt32) : Mode UInt16 :=
  ⟨fun _ => True, fun _ => False, fun i => i < nbytes.toNat, False⟩

/-- The state after `bs` has been appended at `p`, all of it or, when it
    does not fit, a prefix. -/
def Emitted (nbytes p : UInt32) (bs : List UInt8) (m : Mem) (r : Bool × UInt32) (m' : Mem) :
    Prop :=
  ∃ k, k ≤ bs.length ∧ p.toNat + k ≤ nbytes.toNat ∧ r.2.toNat = p.toNat + k ∧
    m' = blit m p.toNat (bs.take k) ∧
    if r.1 then k = bs.length else nbytes.toNat < p.toNat + bs.length

/-- `x` appends `bs` at the position it is called with. -/
def Emits (nbytes : UInt32) (x : UInt32 → Code (Bool × UInt32)) (bs : List UInt8) : Prop :=
  ∀ (p : UInt32) (m : Mem), p.toNat ≤ nbytes.toNat →
    wp (encoderMode nbytes) (x p) (Emitted nbytes p bs m) m

theorem Emits.done (nbytes : UInt32) : Emits nbytes (fun p => pure (true, p)) [] := by
  intro p m hp
  rw [wp_pure]
  exact ⟨0, by simp, by simpa using hp, rfl, rfl, rfl⟩

/-- An encoder that writes `bs` when its own test says that it fits. -/
theorem Emits.store (nbytes size : UInt32) {bs : List UInt8} (hsize : size.toNat = bs.length) :
    Emits nbytes (fun p => if nbytes - p < size then pure (false, p) else do
      Prog.writeBytes p.toNat bs
      return (true, p + size)) bs := by
  intro p m hp
  have hroom := position_room hp
  beta_reduce
  -- the encoder's own test, as a difference that does not wrap around
  by_cases hfit : nbytes - p < size
  · rw [if_pos hfit, wp_pure]
    rw [UInt32.lt_iff_toNat_lt, hroom, hsize] at hfit
    refine ⟨0, Nat.zero_le _, by simpa using hp, rfl, rfl, ?_⟩
    simp only [Bool.false_eq_true, if_false]
    omega
  · rw [if_neg hfit, wp_bind, wp_writeBytes, wp_pure]
    rw [UInt32.lt_iff_toNat_lt, hroom, hsize] at hfit
    have hend : p.toNat + size.toNat ≤ nbytes.toNat := by omega
    refine ⟨fun i _ hi => show i < nbytes.toNat by omega, bs.length, Nat.le_refl _, by omega,
      ?_, ?_, rfl⟩
    · rw [position_add nbytes hend, hsize]
    · rw [List.take_length]

/-- A failed encoder stops the one that follows. -/
theorem Emits.andThen {nbytes : UInt32} {x y : UInt32 → Code (Bool × UInt32)}
    {as bs : List UInt8} (hx : Emits nbytes x as) (hy : Emits nbytes y bs) :
    Emits nbytes (fun p => do
      let (ok, p) ← x p
      if ok then y p else return (false, p)) (as ++ bs) := by
  intro p m hp
  rw [wp_bind]
  apply wp_mono ?_ (hx p m hp)
  rintro ⟨ok, p'⟩ m' ⟨k, hk, hin, hpos, rfl, hok⟩
  simp only at hpos hok ⊢
  cases ok with
  | false =>
    simp only [Bool.false_eq_true, if_false] at hok ⊢
    rw [wp_pure]
    refine ⟨k, ?_, hin, hpos, ?_, ?_⟩
    · rw [List.length_append]
      omega
    · rw [List.take_append_of_le_length hk]
    · simp only [Bool.false_eq_true, if_false, List.length_append]
      omega
  | true =>
    simp only [if_true] at hok ⊢
    subst hok
    rw [List.take_length]
    apply wp_mono ?_ (hy p' _ (by omega))
    rintro ⟨ok, p''⟩ m'' ⟨l, hl, hin', hpos', rfl, hok'⟩
    simp only at hpos' hok'
    refine ⟨as.length + l, ?_, by omega, by simp only; omega, ?_, ?_⟩
    · rw [List.length_append]
      omega
    · rw [List.take_length_add_append, blit_append, hpos]
    · rw [List.length_append]
      cases ok with
      | true =>
        simp only [if_true] at hok' ⊢
        omega
      | false =>
        simp only [Bool.false_eq_true, if_false] at hok' ⊢
        omega

/-- A byte that is tested for and written in front of another encoder. -/
theorem Emits.cons {nbytes : UInt32} {y : UInt32 → Code (Bool × UInt32)} {bs : List UInt8}
    (b : UInt8) (hy : Emits nbytes y bs) :
    Emits nbytes (fun p => if nbytes - p < 1 then pure (false, p) else do
      Prog.writeByte p.toNat b
      y (p + 1)) (b :: bs) := by
  intro p m hp
  have hseq := (Emits.store nbytes (1 : UInt32) (show (1 : UInt32).toNat = [b].length from rfl)).andThen hy p m hp
  by_cases hfit : nbytes - p < 1
  · simp only [if_pos hfit, wp_bind, wp_pure, Bool.false_eq_true, if_false] at hseq ⊢
    exact hseq
  · simp only [if_neg hfit, wp_bind, wp_pure, Prog.writeBytes, if_true] at hseq ⊢
    exact hseq

/-! ## Section 3: Numbers -/

theorem valueToEncodedInt_small {value : UInt16} (h : value.toNat < 13) :
    valueToEncodedInt value = (1, value.toUInt8, 0) := by
  have h1 : value < 13 := UInt16.lt_iff_toNat_lt.mpr h
  rw [valueToEncodedInt, if_pos h1]

theorem valueToEncodedInt_medium {value : UInt16} (h1 : 13 ≤ value.toNat)
    (h2 : value.toNat < 269) : valueToEncodedInt value = (2, 13, value - 13) := by
  have hn1 : ¬ value < 13 := fun h => by
    have := UInt16.lt_iff_toNat_lt.mp h
    have h13 : (13 : UInt16).toNat = 13 := by decide
    omega
  have h269 : value < 269 := UInt16.lt_iff_toNat_lt.mpr h2
  rw [valueToEncodedInt, if_neg hn1, if_pos h269]

/-- A `uint16_t` is always below 65805: the last branch is not taken. -/
theorem valueToEncodedInt_large {value : UInt16} (h : 269 ≤ value.toNat) :
    valueToEncodedInt value = (3, 14, value - 269) := by
  have hlt := value.toNat_lt
  have hn1 : ¬ value < 13 := fun h' => by
    have := UInt16.lt_iff_toNat_lt.mp h'
    have h13 : (13 : UInt16).toNat = 13 := by decide
    omega
  have hn2 : ¬ value < 269 := fun h' => by
    have := UInt16.lt_iff_toNat_lt.mp h'
    have h269 : (269 : UInt16).toNat = 269 := by decide
    omega
  rw [valueToEncodedInt, if_neg hn1, if_neg hn2, if_pos (by omega)]

/-- The head is the nibble of the number, and there always is one. -/
theorem valueToEncodedInt_head (value : UInt16) :
    (valueToEncodedInt value).1 ≠ 0 ∧
      (valueToEncodedInt value).2.1.toNat = Wire.nibble value.toNat := by
  by_cases h1 : value.toNat < 13
  · rw [valueToEncodedInt_small h1, Wire.nibble_small h1, UInt16.toNat_toUInt8]
    exact ⟨Nat.one_ne_zero, Nat.mod_eq_of_lt (by omega)⟩
  · by_cases h2 : value.toNat < 269
    · rw [valueToEncodedInt_medium (by omega) h2, Wire.nibble_medium (by omega) h2]
      exact ⟨by simp, rfl⟩
    · rw [valueToEncodedInt_large (by omega), Wire.nibble_large (by omega)]
      exact ⟨by simp, rfl⟩

theorem uint8ToBuffer_emits (nbytes : UInt32) (extended : UInt16) :
    Emits nbytes (fun p => uint8ToBuffer nbytes extended p) [extended.toUInt8] :=
  Emits.cons _ (Emits.done nbytes)

theorem uint16ToBuffer_emits (nbytes : UInt32) (extended : UInt16) :
    Emits nbytes (fun p => uint16ToBuffer nbytes extended p)
      [(extended >>> 8).toUInt8, extended.toUInt8] := by
  rw [← image16_swap]
  exact Emits.store _ _ rfl

theorem extendedNumToBuffer_emits (nbytes : UInt32) (value : UInt16) :
    Emits nbytes
      (fun p => extendedNumToBuffer nbytes (valueToEncodedInt value).2.1
        (valueToEncodedInt value).2.2 p)
      (Wire.extension value.toNat) := by
  by_cases h1 : value.toNat < 13
  · have hhead : value.toUInt8.toNat = value.toNat := by
      rw [UInt16.toNat_toUInt8]
      exact Nat.mod_eq_of_lt (by omega)
    -- none of the three heads that announce something after the head
    have hne : ∀ b : UInt8, 13 ≤ b.toNat → value.toUInt8 ≠ b := fun b hb he => by
      rw [← he] at hb
      omega
    rw [valueToEncodedInt_small h1, Wire.extension_small h1]
    simp only [extendedNumToBuffer, if_neg (hne 13 (by decide)), if_neg (hne 14 (by decide)),
      if_neg (hne 15 (by decide))]
    exact Emits.done nbytes
  · by_cases h2 : value.toNat < 269
    -- one byte of extension
    · have hsub : (value - 13).toNat = value.toNat - 13 :=
        UInt16.toNat_sub_of_le value 13 (UInt16.le_iff_toNat_le.mpr (Nat.le_of_not_lt h1))
      have hext : (value - 13).toUInt8 = UInt8.ofNat (value.toNat - 13) := by
        apply UInt8.toNat_inj.mp
        rw [UInt16.toNat_toUInt8, UInt8.toNat_ofNat', hsub]
      rw [valueToEncodedInt_medium (by omega) h2, Wire.extension_medium (by omega) h2, ← hext]
      exact uint8ToBuffer_emits nbytes (value - 13)
    -- two bytes, the high one first
    · have hsub : (value - 269).toNat = value.toNat - 269 :=
        UInt16.toNat_sub_of_le value 269 (UInt16.le_iff_toNat_le.mpr (Nat.le_of_not_lt h2))
      have hhigh : ((value - 269) >>> 8).toUInt8 = UInt8.ofNat ((value.toNat - 269) / 256) := by
        apply UInt8.toNat_inj.mp
        simp [UInt16.toNat_shiftRight, Nat.shiftRight_eq_div_pow, hsub]
      have hlow : (value - 269).toUInt8 = UInt8.ofNat ((value.toNat - 269) % 256) := by
        apply UInt8.toNat_inj.mp
        rw [UInt16.toNat_toUInt8, UInt8.toNat_ofNat', hsub, Nat.mod_mod]
      rw [valueToEncodedInt_large (by omega), Wire.extension_large (by omega), ← hhigh, ← hlow]
      exact uint16ToBuffer_emits nbytes (value - 269)

/-! ## Section 4: Options -/

/-- An option as the wire format sees it. -/
def McOption.wire (option : McOption) : Wire.Opt :=
  ⟨option.optionNum.toNat, option.value.toList⟩

/-- A list of options as the wire format sees it. -/
def wireOptions (options : List McOption) : List Wire.Opt := options.map McOption.wire

theorem wireOptions_length (options : List McOption) :
    (wireOptions options).length = options.length := List.length_map ..

@[simp] theorem McOption.wire_num (option : McOption) :
    option.wire.num = option.optionNum.toNat := rfl

@[simp] theorem McOption.wire_value (option : McOption) :
    option.wire.value = option.value.toList := rfl

/-- Every value fits the `uint16_t` the encoder passes its length in. -/
def ValuesFit (options : List McOption) : Prop :=
  ∀ option ∈ options, option.value.nbytes.toNat ≤ 65535

theorem bytesToBuffer_emits (nbytes : UInt32) (src : McBuffer) :
    Emits nbytes (fun p => bytesToBuffer nbytes src p) src.toList :=
  Emits.store _ _ src.toList_length.symm

/-- The prefix byte: the delta nibble over the length nibble. -/
theorem prefixByte_eq (delta len : UInt16) :
    ((valueToEncodedInt delta).2.1 <<< 4) ||| (valueToEncodedInt len).2.1 =
      Wire.headByte delta.toNat len.toNat := by
  have hd := (valueToEncodedInt_head delta).2
  have hl := (valueToEncodedInt_head len).2
  have hd14 := Wire.nibble_le delta.toNat
  have hl14 := Wire.nibble_le len.toNat
  apply UInt8.toNat_inj.mp
  -- the delta nibble stays in the byte, and the length nibble is below it
  have hshift : (Wire.nibble delta.toNat <<< 4) % 2 ^ 8 = Wire.nibble delta.toNat <<< 4 := by
    rw [Nat.shiftLeft_eq]
    exact Nat.mod_eq_of_lt (by omega)
  rw [Wire.headByte_toNat, UInt8.toNat_or, UInt8.toNat_shiftLeft, hd, hl,
    show (4 : UInt8).toNat % 8 = 4 by decide, hshift,
    ← Nat.shiftLeft_add_eq_or_of_lt (show Wire.nibble len.toNat < 2 ^ 4 by omega), Nat.shiftLeft_eq]

/-- What the encoder appends for an option of any length: the delta and the
    length are the two `uint16_t` it computes. -/
def writtenOption (prevOptionNum : UInt16) (option : McOption) : List UInt8 :=
  let delta := option.optionNum - prevOptionNum
  let len := option.value.nbytes.toUInt16
  Wire.headByte delta.toNat len.toNat ::
    (Wire.extension delta.toNat ++ (Wire.extension len.toNat ++ option.value.toList))

def writtenOptions : UInt16 → List McOption → List UInt8
  | _, [] => []
  | prevOptionNum, option :: rest =>
    writtenOption prevOptionNum option ++ writtenOptions option.optionNum rest

/-- Neither the delta nor the cut of the length to 16 bits loses anything. -/
theorem writtenOption_eq {option : McOption} {prevOptionNum : UInt16}
    (hprev : prevOptionNum.toNat ≤ option.optionNum.toNat)
    (hlen : option.value.nbytes.toNat ≤ 65535) :
    writtenOption prevOptionNum option = Wire.encodeOption prevOptionNum.toNat option.wire := by
  have hdelta : (option.optionNum - prevOptionNum).toNat =
      option.optionNum.toNat - prevOptionNum.toNat :=
    UInt16.toNat_sub_of_le _ _ (UInt16.le_iff_toNat_le.mpr hprev)
  have hlen16 : option.value.nbytes.toUInt16.toNat = option.value.toList.length := by
    rw [McBuffer.toList_length, UInt32.toNat_toUInt16]
    exact Nat.mod_eq_of_lt (by omega)
  rw [Wire.encodeOption, McOption.wire_num, McOption.wire_value, writtenOption, hdelta, hlen16]

theorem writtenOptions_eq {options : List McOption} {prevOptionNum : UInt16}
    (hasc : Wire.Ascending prevOptionNum.toNat (wireOptions options))
    (hfit : ValuesFit options) :
    writtenOptions prevOptionNum options =
      Wire.encodeOptions prevOptionNum.toNat (wireOptions options) := by
  induction options generalizing prevOptionNum with
  | nil => rfl
  | cons option rest ih =>
    obtain ⟨hprev, hrest⟩ := hasc
    have hhead := writtenOption_eq hprev (hfit option List.mem_cons_self)
    have htail := ih hrest (fun o ho => hfit o (List.mem_cons_of_mem _ ho))
    rw [writtenOptions, hhead, htail]
    rfl

theorem optionToBuffer_emits (nbytes : UInt32) (option : McOption) (prevOptionNum : UInt16) :
    Emits nbytes (fun p => optionToBuffer nbytes option prevOptionNum p)
      (writtenOption prevOptionNum option) := by
  rw [writtenOption, ← prefixByte_eq]
  simp only [optionToBuffer, if_neg (valueToEncodedInt_head _).1]
  -- the prefix byte, then the extension of the delta, that of the length, and the value
  exact Emits.cons _ ((extendedNumToBuffer_emits nbytes _).andThen
    ((extendedNumToBuffer_emits nbytes _).andThen (bytesToBuffer_emits nbytes _)))

theorem optionsToBuffer_emits (nbytes : UInt32) (options : List McOption)
    (prevOptionNum : UInt16) :
    Emits nbytes (fun p => optionsToBuffer nbytes options prevOptionNum p)
      (writtenOptions prevOptionNum options) := by
  induction options generalizing prevOptionNum with
  | nil => exact Emits.done nbytes
  | cons option rest ih =>
    have hhead := optionToBuffer_emits nbytes option prevOptionNum
    exact hhead.andThen (ih option.optionNum)

/-! ## Section 5: Lists -/

/-- The options of a list pointer; a null list has none. -/
def listOptions (list : Option McOptionsList) : List McOption :=
  (list.map McOptionsList.options).getD []

@[simp] theorem listOptions_none : listOptions none = [] := rfl

@[simp] theorem listOptions_some (list : McOptionsList) :
    listOptions (some list) = list.options := rfl

/-- The bytes a list takes on the wire. -/
def listBytes (list : Option McOptionsList) : List UInt8 :=
  Wire.encodeOptions 0 (wireOptions (listOptions list))

/-- A list the encoder handles: null, or sorted by number, no value longer
    than 65535 bytes. -/
structure ListEncodable (list : Option McOptionsList) : Prop where
  sorted : Wire.Ascending 0 (wireOptions (listOptions list))
  fit    : ValuesFit (listOptions list)

theorem listEncodable_none : ListEncodable none := ⟨trivial, fun _ ho => absurd ho List.not_mem_nil⟩

/-- A list the encoder handles takes the bytes RFC 7252 3.1 gives it. -/
theorem writtenOptions_list {list : Option McOptionsList} (hlist : ListEncodable list) :
    writtenOptions 0 (listOptions list) = listBytes list :=
  writtenOptions_eq hlist.sorted hlist.fit

theorem mcOptionsListToBuffer_emits (nbytes : UInt32) (list : Option McOptionsList) :
    Emits nbytes (fun p => mcOptionsListToBuffer list nbytes p)
      (writtenOptions 0 (listOptions list)) := by
  cases list with
  | none => exact Emits.done nbytes
  | some list => exact optionsToBuffer_emits nbytes list.options 0

theorem mcOptionsListToBuffer_encodes (nbytes : UInt32) {list : Option McOptionsList}
    (hlist : ListEncodable list) :
    Emits nbytes (fun p => mcOptionsListToBuffer list nbytes p) (listBytes list) := by
  rw [← writtenOptions_list hlist]
  exact mcOptionsListToBuffer_emits nbytes list

theorem ascending_of_sorted {options : List McOption} {prev : Nat}
    (hprev : ∀ o ∈ options, prev ≤ o.optionNum.toNat)
    (hs : StableSort.Sorted compareOptions options) :
    Wire.Ascending prev (wireOptions options) := by
  induction options generalizing prev with
  | nil => trivial
  | cons option rest ih =>
    have hle : ∀ o ∈ rest, option.optionNum.toNat ≤ o.optionNum.toNat := fun o ho => by
      have hcmp := List.rel_of_pairwise_cons hs ho
      simp only [compareOptions] at hcmp
      omega
    exact ⟨hprev option List.mem_cons_self, ih hle (List.Pairwise.of_cons hs)⟩

/-- What `mc_options_list_init` sorts, the encoder handles. -/
theorem mcOptionsListInit_encodable (qsort : StableSort.Qsort McOption)
    {options : List McOption} (hfit : ValuesFit options) :
    ListEncodable (some (mcOptionsListInit qsort options)) where
  sorted := ascending_of_sorted (fun _ _ => Nat.zero_le _)
    (qsort.sorted _ options compareOptions_isOrder)
  fit o ho := hfit o ((qsort.perm _ _).mem_iff.mp ho)

/-! ## Section 6: Sizes -/

theorem extendedIntSize_eq {v : UInt32} (h : v.toNat < 65805) :
    extendedIntSize v = UInt32.ofNat (1 + (Wire.extension v.toNat).length) := by
  have hlt : ∀ k : UInt32, v < k ↔ v.toNat < k.toNat := fun _ => UInt32.lt_iff_toNat_lt
  by_cases h1 : v.toNat < 13
  · rw [extendedIntSize, if_pos ((hlt 13).mpr h1), Wire.extension_small h1]
    rfl
  · have hn1 : ¬ v < 13 := fun h' => h1 ((hlt 13).mp h')
    by_cases h2 : v.toNat < 269
    · rw [extendedIntSize, if_neg hn1, if_pos ((hlt 269).mpr h2),
        Wire.extension_medium (by omega) h2]
      rfl
    · have hn2 : ¬ v < 269 := fun h' => h2 ((hlt 269).mp h')
      rw [extendedIntSize, if_neg hn1, if_neg hn2, if_pos ((hlt 65805).mpr h),
        Wire.extension_large (by omega)]
      rfl

theorem mcOptionBufferSize_eq {option : McOption} {prev : UInt16}
    (hprev : prev.toNat ≤ option.optionNum.toNat)
    (hlen : option.value.nbytes.toNat ≤ 65535) :
    mcOptionBufferSize option prev.toUInt32 =
      UInt32.ofNat (Wire.encodeOption prev.toNat option.wire).length := by
  have hnum := option.optionNum.toNat_lt
  have hdelta : (option.optionNum.toUInt32 - prev.toUInt32).toNat =
      option.optionNum.toNat - prev.toNat :=
    UInt32.toNat_sub_of_le _ _ (UInt32.le_iff_toNat_le.mpr (by simpa using hprev))
  have hbytes : option.value.toList.length = option.value.nbytes.toNat := option.value.toList_length
  have hext1 := Wire.extension_length_le (option.optionNum.toNat - prev.toNat)
  have hext2 := Wire.extension_length_le option.value.nbytes.toNat
  rw [mcOptionBufferSize, extendedIntSize_eq (by omega), extendedIntSize_eq (by omega), hdelta,
    Wire.encodeOption_length, McOption.wire_num, McOption.wire_value, hbytes]
  -- the prefix byte is counted twice, once with each number, and taken off once
  apply UInt32.toNat_inj.mp
  rw [UInt32.toNat_sub_of_le]
  · simp only [UInt32.toNat_add, UInt32.toNat_ofNat', UInt32.toNat_one]
    omega
  · rw [UInt32.le_iff_toNat_le]
    simp only [UInt32.toNat_add, UInt32.toNat_ofNat', UInt32.toNat_one]
    omega

/-- The size loop counts the bytes of the encoding, as a `uint32_t`. -/
theorem optionsBufferSize_eq {options : List McOption} (prev : UInt16) (size : UInt32)
    (hasc : Wire.Ascending prev.toNat (wireOptions options)) (hfit : ValuesFit options) :
    optionsBufferSize options prev.toUInt32 size =
      size + UInt32.ofNat (Wire.encodeOptions prev.toNat (wireOptions options)).length := by
  induction options generalizing prev size with
  | nil => simp [optionsBufferSize, wireOptions, Wire.encodeOptions]
  | cons option rest ih =>
    obtain ⟨hprev, hrest⟩ := hasc
    have hhead := mcOptionBufferSize_eq hprev (hfit option List.mem_cons_self)
    have htail := ih option.optionNum (size + mcOptionBufferSize option prev.toUInt32)
      hrest (fun o ho => hfit o (List.mem_cons_of_mem _ ho))
    rw [optionsBufferSize, htail, hhead]
    simp only [wireOptions, List.map_cons, Wire.encodeOptions, List.length_append, UInt32.ofNat_add,
      McOption.wire_num, UInt32.add_assoc]

theorem mcOptionsListBufferSize_eq {list : Option McOptionsList} (hlist : ListEncodable list) :
    mcOptionsListBufferSize list = UInt32.ofNat (listBytes list).length := by
  cases list with
  | none => rfl
  | some list =>
    have h := optionsBufferSize_eq (0 : UInt16) 0 hlist.sorted hlist.fit
    rw [UInt32.zero_add] at h
    exact h

/-! ## Section 7: Limited room -/

/-- The size function tells whether the encoder succeeds.  When it does not,
    the position it reports is where the bytes written so far end. -/
theorem list_written_as_far_as_it_fits (qsort : StableSort.Qsort McOption)
    (options : List McOption) (nbytes p : UInt32) (m : Mem) (s : Supply UInt16)
    (hfit : ValuesFit options)
    (hsize : (listBytes (some (mcOptionsListInit qsort options))).length < 2 ^ 32)
    (hp : p ≤ nbytes) :
    let list := some (mcOptionsListInit qsort options)
    let out := run (mcOptionsListToBuffer list nbytes p) m s
    ∃ ok q, out.value = some (ok, q) ∧
      (ok = true ↔ mcOptionsListBufferSize list ≤ nbytes - p) ∧
      (ok = true → Holds out.mem p.toNat (listBytes list) ∧
        (listBytes list).length = (mcOptionsListBufferSize list).toNat ∧
        q.toNat = p.toNat + (mcOptionsListBufferSize list).toNat) ∧
      (ok = false → p ≤ q ∧ q ≤ nbytes ∧
        slice out.mem p.toNat (q.toNat - p.toNat) <+: listBytes list) ∧
      ∀ i, i < p.toNat ∨ q.toNat ≤ i → out.mem i = m i := by
  intro list out
  have hlist : ListEncodable list := mcOptionsListInit_encodable qsort hfit
  have hlen : (mcOptionsListBufferSize list).toNat = (listBytes list).length := by
    rw [mcOptionsListBufferSize_eq hlist]
    exact ofNat32_toNat hsize
  have hp : p.toNat ≤ nbytes.toNat := UInt32.le_iff_toNat_le.mp hp
  have hroom := position_room hp
  have hmeets := run_meets (mcOptionsListToBuffer_encodes nbytes hlist p m hp) s fun _ => trivial
  obtain ⟨⟨ok, q⟩, hvalue, k, hk, hin, hq, hmem, hok⟩ := hmeets.returns id
  have hmem : out.mem = blit m p.toNat ((listBytes list).take k) := hmem
  simp only at hq hok
  have hheld : Holds out.mem p.toNat ((listBytes list).take k) := by
    rw [hmem]
    exact holds_blit _ _ _
  have htake : ((listBytes list).take k).length = k := by
    rw [List.length_take]
    exact Nat.min_eq_left hk
  refine ⟨ok, q, hvalue, ?_, ?_, ?_, ?_⟩
  · rw [UInt32.le_iff_toNat_le, hroom, hlen]
    cases ok with
    | true =>
      simp only [if_true] at hok
      simp only [true_iff]
      omega
    | false =>
      simp only [Bool.false_eq_true, if_false] at hok
      simp only [Bool.false_eq_true, false_iff]
      omega
  · rintro rfl
    simp only [if_true] at hok
    rw [hok, List.take_length] at hheld
    exact ⟨hheld, hlen.symm, by omega⟩
  · intro _
    have hslice := slice_of_holds hheld
    rw [htake] at hslice
    rw [UInt32.le_iff_toNat_le, UInt32.le_iff_toNat_le, hq, Nat.add_sub_cancel_left, hslice]
    exact ⟨Nat.le_add_right _ _, hin, List.take_prefix _ _⟩
  · intro i hi
    rw [hmem]
    apply blit_outside
    omega

/-- The witness list: its one value has no room after the prefix byte. -/
theorem list_written_as_far_as_it_fits_short :
    ∃ q, (run (mcOptionsListToBuffer (some (mcOptionsListInit (StableSort.insertion McOption)
        [mcOptionInit 11 2 [0x61, 0x62]])) 5 3) (ofList []) fun _ => 0).value = some (false, q) ∧
      q ≤ 5 := by
  have h := list_written_as_far_as_it_fits (StableSort.insertion McOption)
    [mcOptionInit 11 2 [0x61, 0x62]] 5 3 (ofList []) (fun _ => 0)
    (by
      intro option ho
      rw [List.mem_singleton.mp ho]
      decide)
    (by decide) (by decide)
  obtain ⟨ok, q, hvalue, hok, _, hfailed, _⟩ := h
  cases ok with
  | true => exact absurd (hok.mp rfl) (by decide)
  | false => exact ⟨q, hvalue, (hfailed rfl).2.1⟩

end Mcoap

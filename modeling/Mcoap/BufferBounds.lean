import Mcoap.Buffer

/-! # The bounds checks of buffers

    `mc_buffer_copy_to`, `mc_buffer_copy` and `mc_buffer_next_ptr` at any
    positions and counts.

    The guards subtract unsigned numbers.  A position past the end makes the
    difference wrap around, and then there seems to be room for almost any
    count; the guard of `mc_buffer_next_ptr` asks whether an unsigned number
    is negative.

    * `FitsAt`, `WrapsAt`: when there is room, and when there only seems to
      be;
    * `bounds_exact_iff`: where each of the three checks is exact. -/

namespace Mcoap

open ByteMem ByteProg

/-! ## Section 1: The guards -/

/-- From `pos` on there are `n` of the `size` bytes left. -/
def FitsAt (size pos n : UInt32) : Prop := pos.toNat + n.toNat ≤ size.toNat

/-- The position is past the end, but not so far that `n` exceeds the
    difference, which has wrapped around. -/
def WrapsAt (size pos n : UInt32) : Prop :=
  size.toNat < pos.toNat ∧ pos.toNat + n.toNat ≤ size.toNat + 2 ^ 32

theorem FitsAt.not_wrapsAt {size pos n : UInt32} (h : FitsAt size pos n) :
    ¬ WrapsAt size pos n := by
  intro ⟨hpast, _⟩
  unfold FitsAt at h
  omega

/-- What such a guard lets through. -/
theorem guard_passes_iff (size pos n : UInt32) :
    ¬ size - pos < n ↔ FitsAt size pos n ∨ WrapsAt size pos n := by
  have hsize := size.toNat_lt
  have hpos := pos.toNat_lt
  rw [UInt32.not_lt, UInt32.le_iff_toNat_le, UInt32.toNat_sub]
  unfold FitsAt WrapsAt
  by_cases hpast : size.toNat < pos.toNat
  · rw [Nat.mod_eq_of_lt (by omega)]
    omega
  · have hwrap : 2 ^ 32 - pos.toNat + size.toNat = (size.toNat - pos.toNat) + 2 ^ 32 := by omega
    rw [hwrap, Nat.add_mod_right, Nat.mod_eq_of_lt (by omega)]
    omega

theorem copyFits_iff (destNbytes dpos srcNbytes spos n : UInt32) :
    copyFits destNbytes dpos srcNbytes spos n = true ↔
      (FitsAt destNbytes dpos n ∨ WrapsAt destNbytes dpos n) ∧
        (FitsAt srcNbytes spos n ∨ WrapsAt srcNbytes spos n) := by
  rw [← guard_passes_iff, ← guard_passes_iff, copyFits]
  by_cases hdest : destNbytes - dpos < n
  · simp [hdest]
  · by_cases hsrc : srcNbytes - spos < n
    · simp [hdest, hsrc]
    · simp [hdest, hsrc]

/-- Copying into or out of the buffer the program works in is copying
    between two buffers. -/
theorem mcBufferCopyTo_between {md : Mode UInt16} (hw : ∀ i, md.writes i) (dest src : McBuffer)
    (dpos spos n : UInt32) :
    wp md (mcBufferCopyTo dest.nbytes dpos src spos n)
      (fun ok m => mcBufferCopyBetween (some dest) dpos (some src) spos n =
        (ok, some ⟨dest.nbytes, m⟩)) dest.bytes := by
  rw [mcBufferCopyTo, mcBufferCopyBetween]
  by_cases hfits : copyFits dest.nbytes dpos src.nbytes spos n = true
  · simp only [if_pos hfits, wp_bind, wp_writeBytes, wp_pure]
    exact ⟨fun i _ _ => hw i, rfl⟩
  · simp only [if_neg hfits, wp_pure]

theorem mcBufferCopyFrom_between {md : Mode UInt16} (hr : ∀ i, md.reads i) (dest src : McBuffer)
    (dpos spos n : UInt32) :
    wp md (mcBufferCopyFrom dest dpos src.nbytes spos n)
      (fun copied m => m = src.bytes ∧ mcBufferCopyBetween (some dest) dpos (some src) spos n =
        (copied.isSome, some (copied.getD dest))) src.bytes := by
  rw [mcBufferCopyFrom, mcBufferCopyBetween]
  by_cases hfits : copyFits dest.nbytes dpos src.nbytes spos n = true
  · simp only [if_pos hfits, wp_bind, wp_readBytes, wp_pure]
    exact ⟨fun i _ _ => hr i, trivial, rfl⟩
  · simp only [if_neg hfits, wp_pure]
    exact ⟨trivial, rfl⟩

/-! ## Section 2: Where the checks are exact -/

/-- Copies if and only if both ranges lie inside; otherwise returns 0, and
    dest is as it was. -/
def CopyToExact (dest : McBuffer) (dpos : UInt32) (src : McBuffer) (spos n : UInt32) : Prop :=
  (FitsAt dest.nbytes dpos n ∧ FitsAt src.nbytes spos n →
    mcBufferCopyBetween (some dest) dpos (some src) spos n =
      (true, some (copyTo dest dpos src spos n))) ∧
  (¬ (FitsAt dest.nbytes dpos n ∧ FitsAt src.nbytes spos n) →
    mcBufferCopyBetween (some dest) dpos (some src) spos n = (false, some dest))

/-- Returns a copy if and only if the range lies inside. -/
def CopyExact (src : McBuffer) (spos n : UInt32) : Prop :=
  (FitsAt src.nbytes spos n → ∃ copy, mcBufferCopy (some src) spos n = some copy ∧
    copy.toList = slice src.bytes spos.toNat n.toNat) ∧
  (¬ FitsAt src.nbytes spos n → mcBufferCopy (some src) spos n = none)

/-- Returns a pointer and advances if and only if the range lies inside;
    otherwise returns 0, and the position is as it was. -/
def NextPtrExact (nbytes len bpos : UInt32) : Prop :=
  (FitsAt nbytes bpos len → ∃ bpos' : UInt32, mcBufferNextPtr nbytes len bpos = (some bpos, bpos') ∧
    bpos'.toNat = bpos.toNat + len.toNat) ∧
  (¬ FitsAt nbytes bpos len → mcBufferNextPtr nbytes len bpos = (none, bpos))

theorem copyToExact_iff (dest : McBuffer) (dpos : UInt32) (src : McBuffer) (spos n : UInt32) :
    CopyToExact dest dpos src spos n ↔
      ((WrapsAt dest.nbytes dpos n → ¬ FitsAt src.nbytes spos n ∧ ¬ WrapsAt src.nbytes spos n) ∧
        (WrapsAt src.nbytes spos n → ¬ FitsAt dest.nbytes dpos n ∧ ¬ WrapsAt dest.nbytes dpos n)) := by
  have hiff := copyFits_iff dest.nbytes dpos src.nbytes spos n
  unfold CopyToExact mcBufferCopyBetween
  by_cases hfits : copyFits dest.nbytes dpos src.nbytes spos n = true
  · have hpasses := hiff.mp hfits
    simp only [if_pos hfits]
    constructor
    · rintro ⟨_, hrefuses⟩
      -- it copies, so both ranges have to lie inside
      have hinside : FitsAt dest.nbytes dpos n ∧ FitsAt src.nbytes spos n := by
        by_contra hout
        exact absurd (congrArg Prod.fst (hrefuses hout)) Bool.true_eq_false.mp
      exact ⟨fun hwraps => absurd hwraps hinside.1.not_wrapsAt,
        fun hwraps => absurd hwraps hinside.2.not_wrapsAt⟩
    · rintro ⟨hdest, hsrc⟩
      refine ⟨fun _ => trivial, fun hout => ?_⟩
      rcases hpasses with ⟨hd | hd, hs | hs⟩
      · exact absurd ⟨hd, hs⟩ hout
      · exact absurd hd (hsrc hs).1
      · exact absurd hs (hdest hd).1
      · exact absurd hs (hdest hd).2
  · have hrefuses := mt hiff.mpr hfits
    simp only [if_neg hfits]
    constructor
    · intro _
      constructor
      · exact fun hwraps => not_or.mp fun hs => hrefuses ⟨Or.inr hwraps, hs⟩
      · exact fun hwraps => not_or.mp fun hd => hrefuses ⟨hd, Or.inr hwraps⟩
    · intro _
      exact ⟨fun hinside => absurd ⟨Or.inl hinside.1, Or.inl hinside.2⟩ hrefuses, fun _ => trivial⟩

theorem copyExact_iff (src : McBuffer) (spos n : UInt32) :
    CopyExact src spos n ↔ ¬ WrapsAt src.nbytes spos n := by
  have hiff := guard_passes_iff src.nbytes spos n
  unfold CopyExact
  constructor
  · rintro ⟨_, hrefuses⟩ hwraps
    have hnone := hrefuses fun hfits => hfits.not_wrapsAt hwraps
    rw [mcBufferCopy, if_neg (hiff.mpr (Or.inr hwraps))] at hnone
    cases hnone
  · intro hwraps
    constructor
    · intro hfits
      refine ⟨_, by rw [mcBufferCopy, if_neg (hiff.mpr (Or.inl hfits))], ?_⟩
      have hslice := slice_of_holds
        (holds_blit (ofList []) 0 (slice src.bytes spos.toNat n.toNat))
      rw [slice_length] at hslice
      exact hslice
    · intro hout
      have hguard : src.nbytes - spos < n := by
        by_contra hpasses
        rcases hiff.mp hpasses with hfits | hw
        · exact hout hfits
        · exact hwraps hw
      rw [mcBufferCopy, if_pos hguard]

theorem nextPtrExact_iff (nbytes len bpos : UInt32) :
    NextPtrExact nbytes len bpos ↔ FitsAt nbytes bpos len := by
  unfold NextPtrExact
  rw [mcBufferNextPtr_eq]
  constructor
  · rintro ⟨_, hrefuses⟩
    by_contra hout
    cases hrefuses hout
  · intro hfits
    have hn := nbytes.toNat_lt
    have hsum : (bpos + len).toNat = bpos.toNat + len.toNat := by
      unfold FitsAt at hfits
      rw [UInt32.toNat_add, Nat.mod_eq_of_lt (by omega)]
    exact ⟨fun _ => ⟨_, rfl, hsum⟩, fun hout => absurd hfits hout⟩

/-- Each check is exact unless a position is past the end and the wrapped
    difference leaves room for the count; the one of `mc_buffer_next_ptr`
    only where it has nothing to refuse. -/
theorem bounds_exact_iff (dest src : McBuffer) (dpos spos n nbytes len bpos : UInt32) :
    (CopyToExact dest dpos src spos n ↔
      ((WrapsAt dest.nbytes dpos n → ¬ FitsAt src.nbytes spos n ∧ ¬ WrapsAt src.nbytes spos n) ∧
        (WrapsAt src.nbytes spos n →
          ¬ FitsAt dest.nbytes dpos n ∧ ¬ WrapsAt dest.nbytes dpos n))) ∧
    (CopyExact src spos n ↔ ¬ WrapsAt src.nbytes spos n) ∧
    (NextPtrExact nbytes len bpos ↔ FitsAt nbytes bpos len) :=
  ⟨copyToExact_iff dest dpos src spos n, copyExact_iff src spos n, nextPtrExact_iff nbytes len bpos⟩

/-- The token of 8 bytes that a datagram of 4 announces, and copies from
    behind its end. -/
theorem bounds_not_exact :
    ¬ NextPtrExact 4 8 4 ∧
      ¬ CopyToExact (McBuffer.ofList [0, 0, 0, 0]) 0 (McBuffer.ofList [0x48, 1, 0, 0]) 12 4 ∧
      ¬ CopyExact (McBuffer.ofList [0x48, 1, 0, 0]) 12 4 := by
  refine ⟨?_, ?_, ?_⟩
  · rintro ⟨_, hrefuses⟩
    have hnull := hrefuses (by unfold FitsAt; decide)
    exact absurd (congrArg (fun r => r.1) hnull) (by decide)
  · rintro ⟨_, hrefuses⟩
    have hnull := hrefuses (by unfold FitsAt; decide)
    exact absurd (congrArg (fun r => r.1) hnull) (by decide)
  · rintro ⟨_, hrefuses⟩
    have hnull := hrefuses (by unfold FitsAt; decide)
    exact absurd (congrArg Option.isSome hnull) (by decide)

end Mcoap

import Sproutfs.Journal.Proofs.FormatProofs

/-!
# The codec of entries and pads, on any bytes

The decoders with every read checked give what the plain ones do, so no read leaves what the head says,
and what they accept adds up.
-/

namespace Sproutfs.JournalDisk

open Option ByteCodec

variable {sum : Checksum} {b : Bytes} {h : Head}

theorem within_some {limit lo hi : Nat} (h : lo ≤ hi) (hl : hi ≤ limit) (hb : hi ≤ b.length) :
    within b limit lo hi = some (slice b lo (hi - lo)) :=
  if_pos ⟨h, hl, hb⟩

/-! ## What is accepted -/

theorem Head.room_of_wellFormed (hw : h.wellFormed) :
    entryHeadBytes + align8 (h.vm + h.volume) + h.blocks * (8 + blockBytes) + checksumBytes ≤ h.length ∧
      h.length % 8 = 0 ∧ h.length ≤ maxStoredBytes := by
  have ha := align8_mod (h.vm + h.volume)
  cases hk : h.kind with
  | pad =>
    simp only [Head.wellFormed, hk, decide_eq_true_eq] at hw
    obtain ⟨-, hblocks, hvm, hvolume, hmin, hmod, hmax⟩ := hw
    refine ⟨?_, hmod, hmax⟩
    rw [hblocks, hvm, hvolume]
    simpa [align8, minEntryBytes] using hmin
  | blocks =>
    simp only [Head.wellFormed, hk, decide_eq_true_eq] at hw
    obtain ⟨hlen, hmax⟩ := hw
    rw [entryBytes] at hlen
    rw [maxEntryBytes] at hmax
    simp only [entryHeadBytes, checksumBytes, blockBytes] at *
    omega

theorem decodeHead_some (hd : decodeHead b = some h) :
    entryHeadBytes ≤ b.length ∧ h.wellFormed ∧ h.vm ≤ maxNameBytes ∧ h.volume ≤ maxNameBytes := by
  obtain ⟨hgood, hd⟩ := ite_none_left_eq_some.mp hd
  obtain ⟨kind, -, hd⟩ := bind_eq_some_iff.mp hd
  obtain ⟨hw, hd⟩ := ite_none_right_eq_some.mp hd
  cases hd
  have hvm : fromLE (slice b 40 2) < 256 ^ 2 := fromLE_slice_lt ..
  have hvolume : fromLE (slice b 42 2) < 256 ^ 2 := fromLE_slice_lt ..
  exact ⟨Nat.not_lt.mp fun hlt => hgood (.inl hlt), hw, Nat.le_of_lt_succ hvm,
    Nat.le_of_lt_succ hvolume⟩

theorem checkEntry_ok (hc : checkEntry sum b = .ok h) : decodeHead b = some h ∧ b.length = h.length := by
  unfold checkEntry at hc
  split at hc
  · cases hc
  · next g hd =>
    split at hc
    · cases hc
    · next hgood =>
      split at hc <;> cases hc
      exact ⟨hd, by_contra fun hne => hgood (.inl hne)⟩

theorem length_decodeBlocks (b : Bytes) (off n : Nat) : (decodeBlocks b off n).length = n := by
  induction n generalizing off with
  | zero => rfl
  | succ n ih => rw [decodeBlocks, List.length_cons, ih]

theorem decodeEntry_ok {e : Entry} (hd : decodeEntry sum b = .ok (h, e)) :
    checkEntry sum b = .ok h ∧ e.check ∧ (h.kind = .blocks → e.vm.length = h.vm ∧
      e.volume.length = h.volume ∧ e.blocks.length = h.blocks ∧
      e.data.length = h.blocks * blockBytes ∧ e.size = b.length) := by
  unfold decodeEntry at hd
  split at hd
  · cases hd
  next g hc =>
  obtain ⟨hhead, hlen⟩ := checkEntry_ok hc
  obtain ⟨-, hw, hvm, hvolume⟩ := decodeHead_some hhead
  have hroom := (Head.room_of_wellFormed hw).1
  have ha := align8_ge (g.vm + g.volume)
  split at hd
  · next hk =>
    cases hd
    exact ⟨hc, by decide, fun hno => absurd (hk.symm.trans hno) (by decide)⟩
  · next hk =>
    cases hd
    simp only [Head.wellFormed, hk, decide_eq_true_eq] at hw
    have hvmLen : (entryVM b h).length = h.vm := by
      rw [entryVM, length_slice]
      omega
    have hvolumeLen : (slice b (entryHeadBytes + h.vm) h.volume).length = h.volume := by
      rw [length_slice]
      omega
    have hdataLen : (slice b (entryHeadBytes + align8 (h.vm + h.volume) + 8 * h.blocks)
        (h.blocks * blockBytes)).length = h.blocks * blockBytes := by
      rw [length_slice]
      rw [Nat.mul_add, Nat.mul_comm h.blocks 8] at hroom
      omega
    have hblocksLen := length_decodeBlocks b (entryHeadBytes + align8 (h.vm + h.volume)) h.blocks
    refine ⟨hc, Entry.check_iff.mpr ?_, fun _ => ⟨hvmLen, hvolumeLen, hblocksLen, hdataLen, ?_⟩⟩
    · simp only [Entry.size, hvmLen, hvolumeLen, hblocksLen, hdataLen]
      exact ⟨hvm, hvolume, trivial, hw.1 ▸ hw.2⟩
    · simp only [Entry.size, hvmLen, hvolumeLen, hblocksLen]
      rw [hlen, hw.1]

/-! ## The reads -/

theorem decodeHeadWithin_eq (b : Bytes) : decodeHeadWithin b = some (decodeHead b) := by
  unfold decodeHeadWithin
  by_cases hlen : b.length < entryHeadBytes
  · rw [if_pos hlen, decodeHead, if_pos (.inl hlen)]
  · have hread : ∀ lo hi, lo ≤ hi → hi ≤ 48 →
        within b entryHeadBytes lo hi = some (slice b lo (hi - lo)) := by
      intro lo hi hle hhi
      refine within_some hle hhi (Nat.le_trans hhi ?_)
      simpa [entryHeadBytes] using hlen
    rw [if_neg hlen]
    simp only [hread, Nat.reduceLeDiff, Nat.reduceSub, bind_eq_bind, bind_some,
      getD_slice_one, Nat.zero_le]
    unfold decodeHead
    simp only [hlen, false_or]
    split <;> rfl

theorem checkEntryWithin_eq (sum : Checksum) (b : Bytes) :
    checkEntryWithin sum b = some (checkEntry sum b) := by
  unfold checkEntryWithin checkEntry
  rw [decodeHeadWithin_eq, bind_eq_bind, bind_some]
  cases hd : decodeHead b with
  | none => rfl
  | some h =>
    obtain ⟨-, hw, -⟩ := decodeHead_some hd
    have hroom := (Head.room_of_wellFormed hw).1
    have ha := align8_ge (h.vm + h.volume)
    simp only
    by_cases hlen : b.length = h.length
    · have hbody : slice b 0 (h.length - checksumBytes - 0) = b.take (h.length - checksumBytes) := rfl
      have hdigest : slice b (h.length - checksumBytes) (h.length - (h.length - checksumBytes)) =
          b.drop (h.length - checksumBytes) := by
        rw [slice, ← hlen, ← List.length_drop, List.take_length]
      rw [if_neg (not_not.mpr hlen), within_some (by omega) (by omega) (by omega), bind_eq_bind,
        bind_some, within_some (by omega) (by omega) (by omega), bind_some,
        within_some (by omega) (by omega) (by omega), hbody, hdigest, Nat.add_sub_add_left,
        ← Nat.add_assoc]
      simp only [hlen, not_true, false_or, ne_eq, bind_some]
      split
      · rfl
      · split <;> rfl
    · rw [if_pos hlen, if_pos (.inl hlen)]

theorem decodeBlocksWithin_eq {limit off n : Nat} (hl : off + 8 * n ≤ limit)
    (hb : off + 8 * n ≤ b.length) : decodeBlocksWithin b limit off n = some (decodeBlocks b off n) := by
  induction n generalizing off with
  | zero => rfl
  | succ n ih =>
    rw [decodeBlocksWithin, within_some (by omega) (by omega) (by omega), ih (by omega) (by omega),
      Nat.add_sub_cancel_left]
    rfl

theorem decodeEntryWithin_eq (sum : Checksum) (b : Bytes) :
    decodeEntryWithin sum b = some (decodeEntry sum b) := by
  unfold decodeEntryWithin decodeEntry
  rw [checkEntryWithin_eq, bind_eq_bind, bind_some]
  cases hc : checkEntry sum b with
  | error err => rfl
  | ok h =>
    obtain ⟨hhead, hlen⟩ := checkEntry_ok hc
    have hroom := (Head.room_of_wellFormed (decodeHead_some hhead).2.1).1
    have ha := align8_ge (h.vm + h.volume)
    rw [Nat.mul_add, Nat.mul_comm h.blocks 8] at hroom
    simp only
    cases h.kind with
    | pad => rfl
    | blocks =>
      simp only [bind_eq_bind]
      rw [within_some (by omega) (by omega) (by omega), bind_some,
        within_some (by omega) (by omega) (by omega), bind_some,
        decodeBlocksWithin_eq (by omega) (by omega), bind_some,
        within_some (by omega) (by omega) (by omega), bind_some]
      simp only [Nat.add_sub_cancel_left, entryVM]

/-! ## The codec -/

/-- For any digest:

* an entry that `check` accepts is read back as it was appended, at every position and generation, and
  takes the bytes `EntryBytes` says, which are at most the maximum;
* a pad of a length a head of a pad can have takes that many bytes, and its head and the whole of it
  are read back as a pad of that length;
* on any bytes the decoders read none past the head, or past the length the head states;
* a head that is accepted states a length that its names, blocks and data add up to; and
* an entry that is accepted has the lengths its head states, fills its bytes, and passes `check`. -/
theorem entry_codec_exact (sum : Checksum) :
    (∀ (e : Entry) (p g : UInt64), e.check →
      decodeEntry sum (encodeEntry sum e p.toNat g) =
        .ok (e.head p.toNat g, { e with position := p.toNat }) ∧
      (encodeEntry sum e p.toNat g).length =
        entryBytes e.vm.length e.volume.length e.blocks.length ∧
      (encodeEntry sum e p.toNat g).length ≤ maxEntryBytes) ∧
    (∀ (n : Nat) (p g : UInt64), minEntryBytes ≤ n → n % 8 = 0 → n ≤ maxStoredBytes →
      (encodePad sum n p.toNat g).length = n ∧
      decodeHead (encodePad sum n p.toNat g) = some (padHead n p.toNat g) ∧
      decodeEntry sum (encodePad sum n p.toNat g) = .ok (padHead n p.toNat g, {})) ∧
    (∀ b, decodeHeadWithin b = some (decodeHead b) ∧
      checkEntryWithin sum b = some (checkEntry sum b) ∧
      decodeEntryWithin sum b = some (decodeEntry sum b)) ∧
    (∀ b h, decodeHead b = some h →
      (minEntryBytes ≤ h.length ∧ h.length % 8 = 0 ∧ h.length ≤ maxStoredBytes) ∧
      (h.kind = .blocks → h.length = entryBytes h.vm h.volume h.blocks ∧ h.length ≤ maxEntryBytes)) ∧
    (∀ b h, checkEntry sum b = .ok h →
      decodeHead b = some h ∧ b.length = h.length ∧ ∃ e, decodeEntry sum b = .ok (h, e)) ∧
    ∀ b h e, decodeEntry sum b = .ok (h, e) →
      checkEntry sum b = .ok h ∧ e.check ∧ (h.kind = .blocks → e.vm.length = h.vm ∧
        e.volume.length = h.volume ∧ e.blocks.length = h.blocks ∧
        e.data.length = h.blocks * blockBytes ∧ e.size = b.length) := by
  refine ⟨fun e p g hc => ⟨?_, ?_, ?_⟩, fun n p g hmin hmod hmax => ?_,
    fun b => ⟨decodeHeadWithin_eq b, checkEntryWithin_eq sum b, decodeEntryWithin_eq sum b⟩,
    fun b h hd => ?_, fun b h hc => ?_, fun b h e => decodeEntry_ok⟩
  · exact decodeEntry_encodeEntry hc p.toNat_lt g
  · exact length_encodeEntry hc _ g
  · rw [length_encodeEntry hc]
    exact (Entry.check_iff.mp hc).2.2.2
  · have hpad : checkEntry sum (encodePad sum n p.toNat g) = .ok (padHead n p.toNat g) :=
      checkEntry_encodePad hmin hmod hmax p.toNat_lt g
    refine ⟨length_encodePad hmin _ g, (checkEntry_ok hpad).1, ?_⟩
    rw [decodeEntry, hpad]
    rfl
  · obtain ⟨-, hw, -⟩ := decodeHead_some hd
    obtain ⟨hroom, hmod, hmax⟩ := Head.room_of_wellFormed hw
    refine ⟨⟨?_, hmod, hmax⟩, fun hk => ?_⟩
    · unfold minEntryBytes
      omega
    · simpa [Head.wellFormed, hk] using hw
  · obtain ⟨hhead, hlen⟩ := checkEntry_ok hc
    refine ⟨hhead, hlen, ?_⟩
    rw [decodeEntry, hc]
    dsimp only
    split <;> exact ⟨_, rfl⟩

/-- A VM's entry of no blocks and the smallest pad, under a digest that is always zero. -/
theorem entry_codec_exact_sample :
    let sum : Checksum := fun _ => ⟨zeros 16, rfl⟩
    let e : Entry := { vm := [118, 49], volume := [100], epoch := 3 }
    decodeEntry sum (encodeEntry sum e 64 7) = .ok (e.head 64 7, { e with position := 64 }) ∧
      (encodePad sum 64 128 7).length = 64 := by
  intro sum e
  obtain ⟨hentry, hpad, -⟩ := entry_codec_exact sum
  exact ⟨(hentry e 64 7 (by decide)).1, (hpad 64 128 7 (by decide) (by decide) (by decide)).1⟩

end Sproutfs.JournalDisk

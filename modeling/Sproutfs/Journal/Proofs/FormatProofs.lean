import Sproutfs.Journal.Format

/-!
# The format: what is encoded is read back

A slot, a pad and an entry of blocks decode to what they were encoded from.
-/

namespace Sproutfs.JournalDisk

open List ByteCodec

variable {sum : Checksum} {off n p : Nat} {e : Entry}

@[simp] theorem length_bytes16 (b : Bytes16) : b.val.length = 16 := b.2

theorem uint64_ofNat_fromLE (n : UInt64) : UInt64.ofNat (fromLE (le 8 n.toNat)) = n := by
  rw [fromLE_le_of_lt (show n.toNat < 256 ^ 8 from n.toNat_lt), UInt64.ofNat_toNat]

/-! ## Slots -/

theorem length_slotBody (s : Slot) : (slotBody s).length = 88 := by
  simp [slotBody, slotMagic]

theorem length_encodeSlot (s : Slot) : (encodeSlot sum s).length = slotBytes := by
  simp [encodeSlot, length_slotBody, slotBytes, slotLength]

theorem slice_slotBody {s : Slot} {t : Bytes} (h : 32 ≤ off) :
    slice (slotBody s ++ t) off n =
      slice ((le 8 s.generation.toNat ++ (le 8 s.ringStart ++ (le 8 s.ringLength ++
        (le 8 s.tail ++ le 8 s.lease.assigned.toNat)))) ++ (s.lease.member.val ++ t)) (off - 32) n := by
  have hsplit : slotBody s ++ t =
      (slotMagic ++ ([formatVersion, if s.empty then 1 else 0, 0, 0] ++ le 8 s.counter)) ++
      (s.identity.val ++ ((le 8 s.generation.toNat ++ (le 8 s.ringStart ++ (le 8 s.ringLength ++
        (le 8 s.tail ++ le 8 s.lease.assigned.toNat)))) ++ (s.lease.member.val ++ t))) := by
    simp [slotBody]
  have hfirst : (slotMagic ++ ([formatVersion, if s.empty then 1 else 0, 0, 0] ++
      le 8 s.counter)).length = 16 := rfl
  rw [hsplit, slice_append_right (by omega), slice_append_right (by rw [s.identity.2]; omega),
    hfirst, s.identity.2]
  congr 1

theorem bytes16_slotBody_identity (s : Slot) (t : Bytes) :
    bytes16 (slotBody s ++ t) 16 = s.identity := by
  apply Subtype.ext
  have hsplit : slotBody s ++ t ++ zeros (16 + 16) =
      (slotMagic ++ ([formatVersion, if s.empty then 1 else 0, 0, 0] ++ le 8 s.counter)) ++
      (s.identity.val ++ ((le 8 s.generation.toNat ++ (le 8 s.ringStart ++ (le 8 s.ringLength ++
        (le 8 s.tail ++ le 8 s.lease.assigned.toNat)))) ++
        (s.lease.member.val ++ (t ++ zeros (16 + 16))))) := by
    simp [slotBody]
  have hfirst : (slotMagic ++ ([formatVersion, if s.empty then 1 else 0, 0, 0] ++
      le 8 s.counter)).length = 16 := rfl
  change slice (slotBody s ++ t ++ zeros (16 + 16)) 16 16 = s.identity.val
  rw [hsplit, slice_append_right (by omega), hfirst, slice_append_left (by simp),
    slice_all (by simp)]

theorem bytes16_slotBody_member (s : Slot) (t : Bytes) :
    bytes16 (slotBody s ++ t) 72 = s.lease.member := by
  apply Subtype.ext
  change slice (slotBody s ++ t ++ zeros (72 + 16)) 72 16 = s.lease.member.val
  rw [append_assoc, slice_slotBody (by omega)]
  have hmid : (le 8 s.generation.toNat ++ (le 8 s.ringStart ++ (le 8 s.ringLength ++
      (le 8 s.tail ++ le 8 s.lease.assigned.toNat)))).length = 40 := rfl
  rw [slice_append_right (by omega), hmid, slice_append_left (by simp), slice_all (by simp)]

theorem decodeSlot_encodeSlot {s : Slot} (hs : s.Fits) :
    decodeSlot sum (encodeSlot sum s) = .ok s := by
  have hbody : slice (encodeSlot sum s) 0 88 = slotBody s := by
    rw [encodeSlot, slice_append_left (by simp [length_slotBody]), slice_all (by simp [length_slotBody])]
  have hsum : slice (encodeSlot sum s) 88 16 = (sum (slotBody s)).val := by
    rw [encodeSlot, slice_append_right (by simp [length_slotBody]), length_slotBody,
      slice_append_left (by simp), slice_all (by simp)]
  have hflag : (encodeSlot sum s).getD 5 0 = if s.empty then 1 else 0 := rfl
  have hlen : ¬ (encodeSlot sum s).length < slotLength := by
    rw [length_encodeSlot]
    decide
  have hempty : ¬ ((if s.empty then 1 else 0 : UInt8) > 1) ∧
      decide ((if s.empty then 1 else 0 : UInt8) = 1) = s.empty := by
    cases s.empty <;> decide
  unfold decodeSlot
  rw [hbody, hsum, hflag, if_neg, if_neg, if_neg, hempty.2]
  · have hcounter : slice (encodeSlot sum s) 8 8 = le 8 s.counter := rfl
    have hgen : slice (encodeSlot sum s) 32 8 = le 8 s.generation.toNat :=
      slice_slotBody (Nat.le_refl 32)
    have hstart : slice (encodeSlot sum s) 40 8 = le 8 s.ringStart := slice_slotBody (by omega)
    have hlength : slice (encodeSlot sum s) 48 8 = le 8 s.ringLength := slice_slotBody (by omega)
    have htail : slice (encodeSlot sum s) 56 8 = le 8 s.tail := slice_slotBody (by omega)
    have hassigned : slice (encodeSlot sum s) 64 8 = le 8 s.lease.assigned.toNat :=
      slice_slotBody (by omega)
    have hidentity : bytes16 (encodeSlot sum s) 16 = s.identity := bytes16_slotBody_identity s _
    have hmember : bytes16 (encodeSlot sum s) 72 = s.lease.member := bytes16_slotBody_member s _
    rw [hcounter, hgen, hstart, hlength, htail, hassigned, hidentity, hmember,
      uint64_ofNat_fromLE, uint64_ofNat_fromLE, fromLE_le_of_lt (w := 8) hs.counter,
      fromLE_le_of_lt (w := 8) hs.ringStart, fromLE_le_of_lt (w := 8) hs.ringLength,
      fromLE_le_of_lt (w := 8) hs.tail]
  · rintro (h | h)
    · exact hempty.1 h
    · exact h rfl
  · exact fun h => h rfl
  · rintro (h | h | h)
    · exact hlen h
    · exact h rfl
    · exact h rfl

/-! ## Heads -/

structure Head.Fits (h : Head) : Prop where
  position : h.position < 2 ^ 64
  length : h.length < 2 ^ 32
  blocks : h.blocks < 2 ^ 32
  vm : h.vm < 2 ^ 16
  volume : h.volume < 2 ^ 16

theorem length_encodeHead (h : Head) : (encodeHead h).length = entryHeadBytes := rfl

theorem kindOf_byte (k : Kind) : kindOf k.byte = some k := by
  cases k <;> rfl

theorem decodeHead_encodeHead {h : Head} (hf : h.Fits) (hw : h.wellFormed) (t : Bytes) :
    decodeHead (encodeHead h ++ t) = some h := by
  have hlen : ¬ (encodeHead h ++ t).length < entryHeadBytes := by
    rw [length_append, length_encodeHead]
    omega
  have hkind : (encodeHead h ++ t).getD 5 0 = h.kind.byte := rfl
  have hposition : slice (encodeHead h ++ t) 8 8 = le 8 h.position := rfl
  have hgen : slice (encodeHead h ++ t) 16 8 = le 8 h.generation.toNat := rfl
  have hepoch : slice (encodeHead h ++ t) 24 8 = le 8 h.epoch.toNat := rfl
  have hlength : slice (encodeHead h ++ t) 32 4 = le 4 h.length := rfl
  have hblocks : slice (encodeHead h ++ t) 36 4 = le 4 h.blocks := rfl
  have hvm : slice (encodeHead h ++ t) 40 2 = le 2 h.vm := rfl
  have hvolume : slice (encodeHead h ++ t) 42 2 = le 2 h.volume := rfl
  unfold decodeHead
  rw [if_neg, hkind, kindOf_byte, hposition, hgen, hepoch, hlength, hblocks, hvm, hvolume,
    uint64_ofNat_fromLE, uint64_ofNat_fromLE, fromLE_le_of_lt (w := 8) hf.position,
    fromLE_le_of_lt (w := 4) hf.length, fromLE_le_of_lt (w := 4) hf.blocks,
    fromLE_le_of_lt (w := 2) hf.vm, fromLE_le_of_lt (w := 2) hf.volume]
  · exact if_pos hw
  · rintro (h | h | h | h | h)
    · exact hlen h
    all_goals exact h rfl

/-! ## Entries -/

theorem align8_ge (n : Nat) : n ≤ align8 n := by
  unfold align8
  omega

theorem align8_mod (n : Nat) : align8 n % 8 = 0 := by
  unfold align8
  omega

theorem Entry.size_ge (e : Entry) : minEntryBytes ≤ e.size := by
  unfold Entry.size entryBytes minEntryBytes
  omega

theorem Entry.size_mod (e : Entry) : e.size % 8 = 0 := by
  have h := align8_mod (e.vm.length + e.volume.length)
  simp only [Entry.size, entryBytes, entryHeadBytes, checksumBytes, blockBytes]
  omega

theorem Entry.check_iff : e.check ↔
    e.vm.length ≤ maxNameBytes ∧ e.volume.length ≤ maxNameBytes ∧
      e.data.length = e.blocks.length * blockBytes ∧ e.size ≤ maxEntryBytes := by
  simp [Entry.check]

theorem length_flatMap_le8 (l : List UInt64) :
    (l.flatMap fun n => le 8 n.toNat).length = 8 * l.length := by
  induction l with
  | nil => rfl
  | cons n l ih =>
    rw [flatMap_cons, length_append, ih, length_le, length_cons]
    omega

theorem length_sealed (body : Bytes) : (sealed sum body).length = body.length + checksumBytes := by
  simp [sealed, checksumBytes]

theorem Entry.length_payload (h : e.check) : e.payload.length = e.size - minEntryBytes := by
  obtain ⟨-, -, hdata, -⟩ := Entry.check_iff.mp h
  have ha := align8_ge (e.vm.length + e.volume.length)
  simp only [Entry.payload, length_append, length_zeros, length_flatMap_le8, hdata, Entry.size,
    entryBytes, minEntryBytes, entryHeadBytes, checksumBytes, blockBytes]
  omega

theorem length_encodeEntry (h : e.check) (p : Nat) (g : UInt64) :
    (encodeEntry sum e p g).length = e.size := by
  have hs := e.size_ge
  rw [encodeEntry, length_sealed, length_append, length_encodeHead, e.length_payload h]
  unfold minEntryBytes at *
  omega

theorem length_encodePad (h : minEntryBytes ≤ n) (p : Nat) (g : UInt64) :
    (encodePad sum n p g).length = n := by
  rw [encodePad, length_sealed, length_append, length_encodeHead, length_zeros]
  unfold minEntryBytes at *
  omega

/-- Bytes that begin with a well-formed head of their length, end with their digest, and pad the
names with zeros, pass the check. -/
theorem checkEntry_sealed {h : Head} {rest : Bytes} (hf : h.Fits) (hw : h.wellFormed)
    (hlen : h.length = entryHeadBytes + rest.length + checksumBytes)
    (hzero : slice rest (h.vm + h.volume) (align8 (h.vm + h.volume) - (h.vm + h.volume)) =
      zeros (align8 (h.vm + h.volume) - (h.vm + h.volume)))
    (hnames : align8 (h.vm + h.volume) ≤ rest.length) :
    checkEntry sum (sealed sum (encodeHead h ++ rest)) = .ok h := by
  have hbody : (encodeHead h ++ rest).length = h.length - checksumBytes := by
    rw [length_append, length_encodeHead]
    omega
  have hhead : decodeHead (sealed sum (encodeHead h ++ rest)) = some h := by
    rw [sealed, append_assoc]
    exact decodeHead_encodeHead hf hw _
  have ha := align8_ge (h.vm + h.volume)
  unfold checkEntry
  rw [hhead]
  simp only
  rw [if_neg, if_neg]
  · -- The zeros lie in `rest`, before the digest.
    rw [not_not, sealed, slice_append_left (by rw [hbody]; omega),
      slice_append_right (by rw [length_encodeHead]; omega), length_encodeHead]
    rw [show entryHeadBytes + h.vm + h.volume - entryHeadBytes = h.vm + h.volume by omega]
    exact hzero
  · rintro (h1 | h1)
    · rw [length_sealed, length_append, length_encodeHead] at h1
      omega
    · rw [sealed, take_left' hbody, drop_left' hbody] at h1
      exact h1 rfl

theorem Entry.head_fits (hc : e.check) (hp : p < 2 ^ 64) (g : UInt64) : (e.head p g).Fits := by
  obtain ⟨hvm, hvolume, -, hsize⟩ := Entry.check_iff.mp hc
  have hmax : maxEntryBytes < 2 ^ 32 := by decide
  have hname : maxNameBytes < 2 ^ 16 := by decide
  have hblocks : e.blocks.length ≤ e.size := by
    simp only [Entry.size, entryBytes, blockBytes]
    omega
  exact ⟨hp, Nat.lt_of_le_of_lt hsize hmax, by simp only [Entry.head]; omega,
    Nat.lt_of_le_of_lt hvm hname, Nat.lt_of_le_of_lt hvolume hname⟩

theorem Entry.head_wellFormed (hc : e.check) (p : Nat) (g : UInt64) : (e.head p g).wellFormed := by
  obtain ⟨-, -, -, hsize⟩ := Entry.check_iff.mp hc
  simpa [Head.wellFormed, Entry.head, Entry.size] using hsize

theorem checkEntry_encodeEntry (hc : e.check) (hp : p < 2 ^ 64) (g : UInt64) :
    checkEntry sum (encodeEntry sum e p g) = .ok (e.head p g) := by
  have hpay := e.length_payload hc
  have hsize := e.size_ge
  have hz : (zeros (align8 (e.vm.length + e.volume.length) -
      (e.vm.length + e.volume.length))).length =
      align8 (e.vm.length + e.volume.length) - (e.vm.length + e.volume.length) := length_zeros _
  apply checkEntry_sealed (Entry.head_fits hc hp g) (Entry.head_wellFormed hc p g)
  · simp only [Entry.head]
    unfold minEntryBytes at *
    omega
  · simp only [Entry.head]
    rw [Entry.payload, ← append_assoc, slice_append_right (by simp), length_append,
      Nat.sub_self, slice_append_left (by omega), slice_all (by omega)]
  · rw [hpay]
    simp only [Entry.head, Entry.size, entryBytes, minEntryBytes]
    omega

theorem padHead_fits (hn : n ≤ maxStoredBytes) (hp : p < 2 ^ 64) (g : UInt64) : (padHead n p g).Fits :=
  have hmax : maxStoredBytes < 2 ^ 32 := by decide
  ⟨hp, Nat.lt_of_le_of_lt hn hmax, Nat.two_pow_pos 32, Nat.two_pow_pos 16, Nat.two_pow_pos 16⟩

theorem checkEntry_encodePad (hmin : minEntryBytes ≤ n) (hmod : n % 8 = 0) (hmax : n ≤ maxStoredBytes)
    (hp : p < 2 ^ 64) (g : UInt64) : checkEntry sum (encodePad sum n p g) = .ok (padHead n p g) := by
  apply checkEntry_sealed (padHead_fits hmax hp g)
  · simp [Head.wellFormed, padHead, hmin, hmod, hmax]
  · rw [length_zeros]
    simp only [padHead]
    unfold minEntryBytes at *
    omega
  · simp [padHead, align8, slice, zeros]
  · simp [padHead, align8]

theorem decodeBlocks_flatMap (l : List UInt64) (a b : Bytes) (ha : a.length = off) :
    decodeBlocks (a ++ (l.flatMap (fun n => le 8 n.toNat) ++ b)) off l.length = l := by
  induction l generalizing a off with
  | nil => rfl
  | cons n l ih =>
    have hshift : a ++ ((n :: l).flatMap (fun n => le 8 n.toNat) ++ b) =
        (a ++ le 8 n.toNat) ++ (l.flatMap (fun n => le 8 n.toNat) ++ b) := by
      simp
    have hfield : slice (a ++ ((n :: l).flatMap (fun n => le 8 n.toNat) ++ b)) off 8 =
        le 8 n.toNat := by
      rw [hshift, append_assoc, slice_append_right (by omega), ← ha, Nat.sub_self,
        slice_append_left (by simp), slice_all (by simp)]
    rw [length_cons, decodeBlocks, hfield, uint64_ofNat_fromLE, hshift,
      ih (a ++ le 8 n.toNat) (by simp [ha])]

theorem entryVM_encodeEntry (e : Entry) (p : Nat) (g : UInt64) :
    entryVM (encodeEntry sum e p g) (e.head p g) = e.vm := by
  have hh := length_encodeHead (e.head p g)
  have hvm : (e.head p g).vm = e.vm.length := rfl
  rw [entryVM, encodeEntry, sealed, Entry.payload, append_assoc, append_assoc,
    slice_append_right (by omega), hh, Nat.sub_self, hvm, slice_append_left (by omega),
    slice_all (by omega)]

theorem decodeEntry_encodeEntry (hc : e.check) (hp : p < 2 ^ 64) (g : UInt64) :
    decodeEntry sum (encodeEntry sum e p g) = .ok (e.head p g, { e with position := p }) := by
  obtain ⟨-, -, hdata, -⟩ := Entry.check_iff.mp hc
  have ha := align8_ge (e.vm.length + e.volume.length)
  set names := e.vm.length + e.volume.length with hnames
  set digest := (sum (encodeHead (e.head p g) ++ e.payload)).val with hdigest
  have hbytes : encodeEntry sum e p g = encodeHead (e.head p g) ++ (e.vm ++ (e.volume ++
      (zeros (align8 names - names) ++ (e.blocks.flatMap (fun n => le 8 n.toNat) ++
      (e.data ++ digest))))) := by
    rw [encodeEntry, sealed, ← hdigest]
    simp [Entry.payload, ← hnames]
  have hh := length_encodeHead (e.head p g)
  have hz := length_zeros (align8 names - names)
  have hvm : slice (encodeEntry sum e p g) entryHeadBytes e.vm.length = e.vm :=
    entryVM_encodeEntry e p g
  have hvolume : slice (encodeEntry sum e p g) (entryHeadBytes + e.vm.length) e.volume.length =
      e.volume := by
    rw [hbytes, slice_append_right (by omega), hh, Nat.add_sub_cancel_left,
      slice_append_right (by omega), Nat.sub_self, slice_append_left (by omega),
      slice_all (by omega)]
  -- Everything before the block numbers, as one prefix.
  have hstart : (encodeHead (e.head p g) ++ (e.vm ++ (e.volume ++
      zeros (align8 names - names)))).length = entryHeadBytes + align8 names := by
    simp only [length_append, hh, hz]
    omega
  have hregroup : encodeEntry sum e p g = (encodeHead (e.head p g) ++ (e.vm ++ (e.volume ++
      zeros (align8 names - names)))) ++ (e.blocks.flatMap (fun n => le 8 n.toNat) ++
      (e.data ++ digest)) := by
    rw [hbytes]
    simp
  have hblocks : decodeBlocks (encodeEntry sum e p g) (entryHeadBytes + align8 names)
      e.blocks.length = e.blocks := by
    rw [hregroup]
    exact decodeBlocks_flatMap _ _ _ hstart
  have hd : slice (encodeEntry sum e p g) (entryHeadBytes + align8 names + 8 * e.blocks.length)
      (e.blocks.length * blockBytes) = e.data := by
    rw [hregroup, slice_append_right (by omega), hstart, slice_append_right
      (by rw [length_flatMap_le8]; omega), length_flatMap_le8, Nat.add_sub_cancel_left, Nat.sub_self,
      slice_append_left (by omega), slice_all (by omega)]
  unfold decodeEntry
  rw [checkEntry_encodeEntry hc hp g]
  simp only [Entry.head, entryVM]
  rw [hvm, hvolume, ← hnames, hblocks, hd]

end Sproutfs.JournalDisk

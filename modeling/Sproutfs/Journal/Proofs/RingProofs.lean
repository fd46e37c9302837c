import Sproutfs.Journal.Proofs.PlaceProofs

/-!
# Records on the disk: writing them and reading them back

A batch's writes put every record of its image at its place on the ring, and touch no other byte.
Reading back passes every record that is on the disk, and what it accepts after them is a run of
records that were placed once.
-/

namespace Sproutfs.JournalDisk

open List ByteCodec TornDisk Tiling

variable (sum : Checksum) {p o i fuel n a b : Nat} {s : Stored} {l : List Stored} {g : UInt64}
  {image : Bytes}

/-! ## The bytes of a record -/

def Stored.head (s : Stored) : Head :=
  match s.item with
  | .pad n => padHead n s.position s.generation
  | .blocks e => e.head s.position s.generation

theorem Stored.length_bytes (h : s.item.WellFormed) : (s.bytes sum).length = s.size := by
  obtain ⟨position, generation, item⟩ := s
  cases item with
  | pad n => exact length_encodePad h.1 _ _
  | blocks e => exact length_encodeEntry h _ _

@[simp] theorem Stored.head_position (s : Stored) : s.head.position = s.position := by
  obtain ⟨position, generation, item⟩ := s
  cases item <;> rfl

@[simp] theorem Stored.head_generation (s : Stored) : s.head.generation = s.generation := by
  obtain ⟨position, generation, item⟩ := s
  cases item <;> rfl

@[simp] theorem Stored.head_length (s : Stored) : s.head.length = s.size := by
  obtain ⟨position, generation, item⟩ := s
  cases item <;> rfl

theorem Stored.bytes_eq (s : Stored) : ∃ t, s.bytes sum = encodeHead s.head ++ t := by
  obtain ⟨position, generation, item⟩ := s
  cases item with
  | pad n => exact ⟨_, append_assoc ..⟩
  | blocks e => exact ⟨_, append_assoc ..⟩

theorem Stored.head_fits (h : s.item.WellFormed) (hp : s.position < 2 ^ 64) : s.head.Fits := by
  obtain ⟨position, generation, item⟩ := s
  cases item with
  | pad n => exact padHead_fits h.2.2 hp _
  | blocks e => exact Entry.head_fits h hp _

theorem Stored.head_wellFormed (h : s.item.WellFormed) : s.head.wellFormed := by
  obtain ⟨position, generation, item⟩ := s
  cases item with
  | pad n =>
    obtain ⟨hmin, hmod, hmax⟩ := h
    simp [Stored.head, Head.wellFormed, padHead, hmin, hmod, hmax]
  | blocks e => exact Entry.head_wellFormed h _ _

theorem Stored.checkEntry_bytes (h : s.item.WellFormed) (hp : s.position < 2 ^ 64) :
    checkEntry sum (s.bytes sum) = .ok s.head := by
  obtain ⟨position, generation, item⟩ := s
  cases item with
  | pad n => exact checkEntry_encodePad h.1 h.2.1 h.2.2 hp _
  | blocks e => exact checkEntry_encodeEntry h hp _

theorem Stored.decodeHead_slice (h : s.item.WellFormed) (hp : s.position < 2 ^ 64) :
    decodeHead (slice (s.bytes sum) 0 entryHeadBytes) = some s.head := by
  obtain ⟨t, ht⟩ := s.bytes_eq sum
  rw [ht, slice_append_left (by rw [length_encodeHead]; omega),
    slice_all (by rw [length_encodeHead])]
  have := decodeHead_encodeHead (s.head_fits h hp) (s.head_wellFormed h) []
  rwa [append_nil] at this

/-! ## Writing a batch -/

section Write

variable {j : Journal}

/-- Byte `b` of `image`, laid out from `position` on, lies at `o`. -/
def ByteAt (j : Journal) (position : Nat) (image : Bytes) (o : Nat) (b : UInt8) : Prop :=
  ∃ i, ∃ h : i < image.length, o = j.offset (position + i) ∧ b = image[i]

theorem byteAt_append {b : UInt8} {a c : Bytes} :
    ByteAt j p (a ++ c) o b ↔ ByteAt j p a o b ∨ ByteAt j (p + a.length) c o b := by
  constructor
  · rintro ⟨i, hi, rfl, rfl⟩
    rcases Nat.lt_or_ge i a.length with h | h
    · exact .inl ⟨i, h, rfl, getElem_append_left h⟩
    · refine .inr ⟨i - a.length, by rw [length_append] at hi; omega, ?_, ?_⟩
      · rw [show p + a.length + (i - a.length) = p + i by omega]
      · exact getElem_append_right h
  · rintro (⟨i, hi, rfl, rfl⟩ | ⟨i, hi, rfl, rfl⟩)
    · exact ⟨i, by rw [length_append]; omega, rfl, (getElem_append_left hi).symm⟩
    · refine ⟨a.length + i, by rw [length_append]; omega, by rw [Nat.add_assoc], ?_⟩
      rw [getElem_append_right (by omega)]
      congr 1
      omega

theorem offset_add (h : p % j.ringLength + i < j.ringLength) : j.offset (p + i) = j.offset p + i := by
  have hmod := add_mod_of_le (Nat.le_of_lt h)
  rw [if_neg (Nat.ne_of_lt h)] at hmod
  unfold Journal.offset
  omega

theorem mem_writesAt_offset {b : UInt8} (h : p % j.ringLength + image.length ≤ j.ringLength) :
    (o, b) ∈ writesAt (j.offset p) image ↔ ByteAt j p image o b := by
  rw [mem_writesAt]
  constructor
  · rintro ⟨i, hi, rfl, rfl⟩
    exact ⟨i, hi, (offset_add (by omega)).symm, rfl⟩
  · rintro ⟨i, hi, rfl, rfl⟩
    exact ⟨i, hi, offset_add (by omega), rfl⟩

theorem mem_writes_iff (hL : 0 < j.ringLength) {b : UInt8} (hfuel : image.length ≤ fuel) :
    (o, b) ∈ j.writes fuel p image ↔ ByteAt j p image o b := by
  induction fuel generalizing p image with
  | zero =>
    have hnil : image = [] := length_eq_zero_iff.mp (by omega)
    subst hnil
    simp [Journal.writes, ByteAt]
  | succ fuel ih =>
    cases image with
    | nil => simp [Journal.writes, ByteAt]
    | cons c cs =>
      have hmod := Nat.mod_lt p hL
      set n := min (c :: cs).length (j.room p) with hn
      have hroom : j.room p = j.ringLength - p % j.ringLength := rfl
      have hlen : ((c :: cs).take n).length = n := by
        rw [length_take]
        omega
      have hdrop : ((c :: cs).drop n).length ≤ fuel := by
        rw [length_drop]
        omega
      have hsplit : ByteAt j p (c :: cs) o b ↔
          ByteAt j p ((c :: cs).take n) o b ∨ ByteAt j (p + n) ((c :: cs).drop n) o b := by
        have := byteAt_append (j := j) (p := p) (o := o) (b := b) (a := (c :: cs).take n)
          (c := (c :: cs).drop n)
        rwa [take_append_drop, hlen] at this
      have hchunk : p % j.ringLength + ((c :: cs).take n).length ≤ j.ringLength := by
        rw [hlen]
        omega
      rw [hsplit, ← mem_writesAt_offset hchunk, ← ih hdrop, Journal.writes, mem_append]

/-- Every byte of an image shorter than the ring has a place of its own. -/
theorem ByteAt.unique {b c : UInt8} (hlen : image.length ≤ j.ringLength) (hb : ByteAt j p image o b)
    (hc : ByteAt j p image o c) : b = c := by
  obtain ⟨i, hi, rfl, rfl⟩ := hb
  obtain ⟨k, hk, ho, rfl⟩ := hc
  have hmod : (p + i) % j.ringLength = (p + k) % j.ringLength := by
    unfold Journal.offset at ho
    omega
  have heq : i = k := by
    rcases Nat.le_total i k with h | h
    · have := eq_of_mod_eq (by omega) (by omega) hmod
      omega
    · have := eq_of_mod_eq (by omega) (by omega) hmod.symm
      omega
  subst heq
  rfl

def imageBytes (sum : Checksum) (l : List Stored) : Bytes := l.flatMap (·.bytes sum)

theorem length_imageBytes (h : OnRing n g l a b) : a + (imageBytes sum l).length = b := by
  obtain ⟨htiles, heach, -⟩ := h
  induction l generalizing a with
  | nil => exact htiles
  | cons s l ih =>
    have hs := Stored.length_bytes sum (heach s mem_cons_self).wellFormed
    have hrest := ih htiles.2 fun x hx => heach x (mem_cons_of_mem _ hx)
    have hfirst : s.position = a := htiles.1
    have hstop : s.stop = s.position + s.size := rfl
    rw [imageBytes, flatMap_cons, length_append, hs]
    unfold imageBytes at hrest
    omega

theorem byteAt_record (h : OnRing j.ringLength g l a b) (hs : s ∈ l) (hi : i < (s.bytes sum).length) :
    ByteAt j a (imageBytes sum l) (j.offset (s.position + i)) ((s.bytes sum)[i]) := by
  obtain ⟨htiles, heach, -⟩ := h
  induction l generalizing a with
  | nil => cases hs
  | cons t l ih =>
    rw [imageBytes, flatMap_cons, byteAt_append]
    have hfirst : t.position = a := htiles.1
    have hlen := Stored.length_bytes sum (heach t mem_cons_self).wellFormed
    rcases mem_cons.mp hs with rfl | hs
    · exact .inl ⟨i, hi, by rw [hfirst], rfl⟩
    · right
      rw [hlen, ← hfirst]
      exact ih hs htiles.2 fun x hx => heach x (mem_cons_of_mem _ hx)

theorem ByteAt.record (h : OnRing j.ringLength g l a b) {x : UInt8}
    (hx : ByteAt j a (imageBytes sum l) o x) : ∃ s ∈ l, ByteAt j s.position (s.bytes sum) o x := by
  obtain ⟨htiles, heach, -⟩ := h
  induction l generalizing a with
  | nil =>
    obtain ⟨i, hi, -⟩ := hx
    cases hi
  | cons t l ih =>
    rw [imageBytes, flatMap_cons, byteAt_append] at hx
    have hfirst : t.position = a := htiles.1
    have hlen := Stored.length_bytes sum (heach t mem_cons_self).wellFormed
    rcases hx with hx | hx
    · exact ⟨t, mem_cons_self, hfirst ▸ hx⟩
    · rw [hlen, ← hfirst] at hx
      obtain ⟨s, hs, hx⟩ := ih hx htiles.2 fun y hy => heach y (mem_cons_of_mem _ hy)
      exact ⟨s, mem_cons_of_mem _ hs, hx⟩

theorem mem_batchWrites {p : Placement} (hL : 0 < j.ringLength)
    (h : OnRing j.ringLength g p.image p.start p.stop) {w : Write} (hw : w ∈ j.batchWrites sum p) :
    ∃ q, p.start ≤ q ∧ q < p.stop ∧ w.1 = j.offset q := by
  have hlen : p.start + (p.bytes sum).length = p.stop := length_imageBytes sum h
  obtain ⟨i, hi, ho, -⟩ := (mem_writes_iff hL (Nat.le_refl _)).mp hw
  exact ⟨p.start + i, by omega, by omega, ho⟩

/-- A batch shorter than the ring is on the disk, record by record, once it is written. -/
theorem read_batchWrites {p : Placement} (d : Disk) (hL : 0 < j.ringLength)
    (h : OnRing j.ringLength g p.image p.start p.stop) (hlen : p.stop ≤ p.start + j.ringLength)
    (hs : s ∈ p.image) :
    (d.write (j.batchWrites sum p)).read (j.offset s.position) s.size = s.bytes sum := by
  have hring := h.each s hs
  have hsize := Stored.length_bytes sum hring.wellFormed
  have hbytes : p.start + (p.bytes sum).length = p.stop := length_imageBytes sum h
  rw [← hsize, Disk.read_eq_iff]
  intro i hi
  have hfits := hring.fits
  rw [← offset_add (by omega), Disk.view_write]
  have hat : ByteAt j p.start (p.bytes sum) (j.offset (s.position + i)) ((s.bytes sum)[i]) :=
    byteAt_record sum h hs hi
  refine apply_of_unique _ ((mem_writes_iff hL (Nat.le_refl _)).mpr hat) fun c hc => ?_
  exact ByteAt.unique (by omega) ((mem_writes_iff hL (Nat.le_refl _)).mp hc) hat

end Write

/-- Positions after a record, and less than a turn after one at or before it, lie off it. -/
theorem Stored.OnRing.place_disjoint (hs : s.OnRing n) {base q : Nat} (hbase : base ≤ s.position)
    (hstop : s.stop ≤ q) (hq : q < base + n) :
    ringOffset + q % n < s.place n ∨ s.place n + s.size ≤ ringOffset + q % n := by
  by_contra hcon
  have hfits := hs.fits
  have hstop' : s.stop = s.position + s.size := rfl
  unfold Stored.place at hcon
  obtain ⟨i, hi, heq⟩ : ∃ i < s.size, q % n = s.position % n + i :=
    ⟨q % n - s.position % n, by omega, by omega⟩
  have hmod := add_mod_of_le (n := n) (p := s.position) (k := i) (by omega)
  rw [if_neg (by have := Nat.mod_lt q (show 0 < n by omega); omega), ← heq] at hmod
  have := eq_of_mod_eq (by omega) (by omega) hmod
  omega

/-! ## Reading back -/

section Read

variable {sum} {d : Disk} {j : Journal}

theorem entryAt_of_read (hs : s.OnRing j.ringLength) (hg : s.generation = j.generation)
    (hp : s.position < 2 ^ 64) (hread : d.read (j.offset s.position) s.size = s.bytes sum) :
    j.entryAt sum d s.position = some (s.head, s.bytes sum) := by
  have hsize := hs.wellFormed.size_ge
  have hfits := hs.fits
  have hsz : s.size = s.item.size := rfl
  have hhead : d.read (j.offset s.position) entryHeadBytes =
      slice (s.bytes sum) 0 entryHeadBytes := by
    rw [← hread, Disk.slice_read]
    · rfl
    · unfold minEntryBytes at hsize
      omega
  unfold Journal.entryAt Journal.room
  rw [if_neg (by omega), hhead, s.decodeHead_slice sum hs.wellFormed hp, Option.bind_some,
    s.head_position, s.head_generation, s.head_length, if_neg, hread,
    s.checkEntry_bytes sum hs.wellFormed hp]
  rintro (h | h | h)
  · exact h rfl
  · exact h hg
  · omega

/-- What reading back accepts, where it is the bytes of a record, is that record. -/
theorem entryAt_genuine {position : Nat} {h : Head} {b : Bytes} (hs : s.item.WellFormed)
    (hp : s.position < 2 ^ 64) (he : j.entryAt sum d position = some (h, b)) (hb : b = s.bytes sum) :
    s.position = position ∧ h = s.head ∧ s.generation = j.generation ∧
      d.read (j.offset s.position) s.size = s.bytes sum := by
  obtain ⟨-, he⟩ := Option.ite_none_left_eq_some.mp he
  obtain ⟨h', hdecode, he⟩ := Option.bind_eq_some_iff.mp he
  split at he
  · cases he
  · next hcond =>
    split at he
    · cases he
    · rw [Option.some.injEq, Prod.mk.injEq] at he
      obtain ⟨rfl, hread⟩ := he
      -- The head was read from the same bytes as the whole entry.
      have hlen : h'.length = s.size := by
        rw [← Stored.length_bytes sum hs, ← hb, ← hread, Disk.length_read]
      have hsize := hs.size_ge
      have hsz : s.size = s.item.size := rfl
      have hhead : d.read (j.offset position) entryHeadBytes =
          slice (s.bytes sum) 0 entryHeadBytes := by
        rw [← hb, ← hread, Disk.slice_read]
        · rfl
        · unfold minEntryBytes at hsize
          omega
      rw [hhead, s.decodeHead_slice sum hs hp, Option.some.injEq] at hdecode
      subst hdecode
      rw [s.head_position, s.head_generation] at hcond
      have hpos : s.position = position := by
        by_contra hne
        exact hcond (.inl hne)
      have hgen : s.generation = j.generation := by
        by_contra hne
        exact hcond (.inr (.inl hne))
      rw [s.head_length] at hread
      exact ⟨hpos, rfl, hgen, by rw [hpos, hread, hb]⟩

theorem indexEntry_eq (s : Stored) (live : List Indexed) :
    Journal.indexEntry live s.position s.head (s.bytes sum) = live ++ s.index.toList := by
  obtain ⟨position, generation, item⟩ := s
  cases item with
  | pad n => simp [Journal.indexEntry, Stored.head, padHead, Stored.index]
  | blocks e =>
    have hvm := @entryVM_encodeEntry sum e position generation
    simp only [Journal.indexEntry, Stored.head, Stored.bytes, Stored.index, Option.toList_some]
    rw [hvm]
    rfl

theorem filterMap_index_cons (s : Stored) (l : List Stored) :
    (s :: l).filterMap Stored.index = s.index.toList ++ l.filterMap Stored.index := by
  rw [filterMap_cons]
  cases s.index <;> rfl

theorem scan_records {start : Nat} {live : List Indexed} (hl : OnRing j.ringLength j.generation l a b)
    (hb : b ≤ start + j.ringLength) (h64 : b < 2 ^ 64) (hstart : start ≤ a)
    (hread : ∀ s ∈ l, d.read (j.offset s.position) s.size = s.bytes sum) :
    j.scan sum d start (fuel + l.length) a live =
      j.scan sum d start fuel b (live ++ l.filterMap Stored.index) := by
  obtain ⟨htiles, heach, hgen⟩ := hl
  induction l generalizing a live with
  | nil =>
    obtain rfl : a = b := htiles
    simp
  | cons s l ih =>
    have hfirst : s.position = a := htiles.1
    have hs := heach s mem_cons_self
    have hsize := hs.wellFormed.size_ge
    have hsz : s.stop = s.position + s.item.size := rfl
    have hle := Tiles.le Stored.position_le_stop htiles.2
    have hentry := entryAt_of_read hs (hgen s mem_cons_self)
      (by rw [minEntryBytes_eq] at hsize; omega) (hread s mem_cons_self)
    rw [length_cons, ← Nat.add_assoc, Journal.scan,
      if_pos (by rw [minEntryBytes_eq] at hsize; omega), ← hfirst, hentry]
    simp only
    rw [indexEntry_eq, s.head_length, filterMap_index_cons, ← append_assoc]
    exact ih (by omega) (fun x hx => hread x (mem_cons_of_mem _ hx)) htiles.2
      (fun x hx => heach x (mem_cons_of_mem _ hx))
      fun x hx => hgen x (mem_cons_of_mem _ hx)

theorem scan_genuine {images : List Stored} (hgen : GenuineEntries sum d j images)
    (hring : ∀ s ∈ images, s.OnRing j.ringLength ∧ s.position < 2 ^ 64) (start fuel a : Nat)
    (live : List Indexed) :
    ∃ l : List Stored, ∃ b, j.scan sum d start fuel a live =
        (live ++ l.filterMap Stored.index, b) ∧
      OnRing j.ringLength j.generation l a b ∧
      ∀ s ∈ l, s ∈ images ∧ d.read (j.offset s.position) s.size = s.bytes sum := by
  induction fuel generalizing a live with
  | zero => exact ⟨[], a, by simp [Journal.scan], .nil a, by simp⟩
  | succ fuel ih =>
    have hstop : ∃ l : List Stored, ∃ b, (live, a) = (live ++ l.filterMap Stored.index, b) ∧
        OnRing j.ringLength j.generation l a b ∧
        ∀ s ∈ l, s ∈ images ∧ d.read (j.offset s.position) s.size = s.bytes sum :=
      ⟨[], a, by simp, .nil a, by simp⟩
    unfold Journal.scan
    split
    · split
      · exact hstop
      · next h b hentry =>
        obtain ⟨s, hs, hb⟩ := hgen a h b hentry
        obtain ⟨honring, hp⟩ := hring s hs
        obtain ⟨hpos, rfl, hg, hread⟩ := entryAt_genuine honring.wellFormed hp hentry hb
        obtain ⟨l, c, hscan, hl, hmem⟩ := ih (a + s.head.length) (live ++ s.index.toList)
        refine ⟨s :: l, c, ?_, ⟨⟨hpos, ?_⟩, ?_, ?_⟩, ?_⟩
        · rw [filterMap_index_cons, ← append_assoc, ← hscan, ← hpos, hb, indexEntry_eq]
        · have hstop' : s.stop = a + s.head.length := by
            rw [s.head_length, ← hpos]
            rfl
          rw [hstop']
          exact hl.tiles
        · intro x hx
          rcases mem_cons.mp hx with rfl | hx
          · exact honring
          · exact hl.each x hx
        · intro x hx
          rcases mem_cons.mp hx with rfl | hx
          · exact hg
          · exact hl.generation x hx
        · intro x hx
          rcases mem_cons.mp hx with rfl | hx
          · exact ⟨hs, hread⟩
          · exact hmem x hx
    · exact hstop

end Read

end Sproutfs.JournalDisk

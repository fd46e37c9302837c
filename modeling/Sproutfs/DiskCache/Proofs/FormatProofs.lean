import Sproutfs.DiskCache.Format

/-!
# What a cache disk holds is read back

An item, a table, the header and the lease are read back as they were written, and a scan of a region's
bytes, whatever they are, finds items that lie apart, in order, inside the region.
-/

namespace Sproutfs.DiskCache

open List Option ByteCodec

variable {sum : Checksum} {key : Key} {s : Stripe} {b p t : Bytes} {off n regionBytes : Nat}
  {a c file : Bytes}

/-! ## Fields -/

theorem uint64_fromLE (n : UInt64) : UInt64.ofNat (fromLE (le 8 n.toNat)) = n := by
  rw [fromLE_le_of_lt (show n.toNat < 256 ^ 8 from n.toNat_lt), UInt64.ofNat_toNat]

theorem uint16_fromLE (n : UInt16) : UInt16.ofNat (fromLE (le 2 n.toNat)) = n := by
  rw [fromLE_le_of_lt (show n.toNat < 256 ^ 2 from n.toNat_lt), UInt16.ofNat_toNat]

theorem slice_mid (ha : a.length = off) (hb : b.length = n) : slice (a ++ (b ++ c)) off n = b := by
  rw [slice_append_right (Nat.le_of_eq ha), ha, Nat.sub_self, slice_append_left (by omega), slice_all (by omega)]

theorem kindOf_le (key : Key) : (kindOf key).toNat ≤ 1 := by
  unfold kindOf
  split <;> decide

theorem kindOf_eq (key : Key) : decide (kindOf key = 1) = key.segment := by
  unfold kindOf
  cases key.segment <;> rfl

/-! ## Items -/

theorem length_itemHead (key : Key) (s : Stripe) : (itemHead key s).length = 40 := rfl

theorem length_encodeItem (sum : Checksum) (key : Key) (s : Stripe) :
    (encodeItem sum key s).length = itemHeaderBytes key + s.data.length := by
  rw [encodeItem, length_append, length_append, length_itemHead, (sum _).2, itemTail, itemHeaderBytes,
    diskItemFixed, length_append, length_append]
  omega

/-- The header of an item, whatever follows, is read as it was written. -/
theorem itemLength_head (hc : c.length = 4) (hk : key.storable) (hs : s.storable) (t : Bytes) :
    itemLength (itemHead key s ++ c ++ t) = some (itemHeaderBytes key + s.data.length) := by
  obtain ⟨h1, h2⟩ := hk
  obtain ⟨hcode, -, -, hlen⟩ := hs
  have hlength : ¬ (itemHead key s ++ c ++ t).length < diskItemFixed := by
    rw [length_append, length_append, length_itemHead, hc, diskItemFixed]
    omega
  have hvm : slice (itemHead key s ++ c ++ t) 12 2 = le 2 key.vm.length := rfl
  have hvolume : slice (itemHead key s ++ c ++ t) 14 2 = le 2 key.volume.length := rfl
  have hdata : slice (itemHead key s ++ c ++ t) 32 4 = le 4 s.data.length := rfl
  have hcodeAt : codeAt (itemHead key s ++ c ++ t) 6 = s.code := rfl
  rw [itemLength, if_neg, if_neg, hvm, hvolume, hdata, fromLE_le_of_lt (w := 2) (by omega),
    fromLE_le_of_lt (w := 2) (by omega), fromLE_le_of_lt (w := 4) (by rw [maximumDiskItem] at hlen; omega),
    itemHeaderBytes]
  · simp only [Option.some.injEq]
    omega
  · rw [hcodeAt]
    exact not_not.mpr hcode
  · rintro (h | h | h | h | h)
    · exact hlength h
    · exact h rfl
    · exact h rfl
    · exact absurd h (Nat.not_lt.mpr (kindOf_le key))
    · exact h rfl

theorem itemKey_head (hc : c.length = 4) (hk : key.storable) (hs : s.storable) (t : Bytes) :
    itemKey (itemHead key s ++ c ++ (key.vm ++ (key.volume ++ t))) = some key := by
  have hlength := itemLength_head hc hk hs (key.vm ++ (key.volume ++ t))
  have hhead : (itemHead key s ++ c).length = diskItemFixed := by
    rw [length_append, length_itemHead, hc]
    rfl
  have hv1 : slice (itemHead key s ++ c ++ (key.vm ++ (key.volume ++ t))) diskItemFixed key.vm.length = key.vm :=
    slice_mid hhead rfl
  have hv2 : slice (itemHead key s ++ c ++ (key.vm ++ (key.volume ++ t))) (diskItemFixed + key.vm.length)
      key.volume.length = key.volume := by
    rw [← append_assoc (itemHead key s ++ c)]
    exact slice_mid (by rw [length_append, hhead]) rfl
  have hshort : ¬ (itemHead key s ++ c ++ (key.vm ++ (key.volume ++ t))).length <
      diskItemFixed + key.vm.length + key.volume.length := by
    rw [length_append, hhead, length_append, length_append]
    omega
  generalize key.vm ++ (key.volume ++ t) = t at *
  have hvm : fromLE (slice (itemHead key s ++ c ++ t) 12 2) = key.vm.length :=
    fromLE_le_of_lt (w := 2) (by have := hk.1; omega)
  have hvolume : fromLE (slice (itemHead key s ++ c ++ t) 14 2) = key.volume.length :=
    fromLE_le_of_lt (w := 2) (by have := hk.2; omega)
  have hsequence : slice (itemHead key s ++ c ++ t) 16 8 = le 8 key.sequence.toNat := rfl
  have hpage : slice (itemHead key s ++ c ++ t) 24 8 = le 8 key.page.toNat := rfl
  have hspan : slice (itemHead key s ++ c ++ t) 10 2 = le 2 key.span.toNat := rfl
  have hkind : (itemHead key s ++ c ++ t).getD 5 0 = kindOf key := rfl
  rw [itemKey, hlength, if_neg (by simp)]
  simp only [hvm, hvolume, if_neg hshort, hv1, hv2, hsequence, hpage, hspan, hkind, uint64_fromLE, uint16_fromLE,
    kindOf_eq]

theorem parseItem_encodeItem (hk : key.storable) (hs : s.storable) :
    parseItem sum (encodeItem sum key s) = some (key, s) := by
  obtain ⟨-, henv, -, hdata⟩ := id hs
  have hlen := length_encodeItem sum key s
  have hc := (sum (itemHead key s ++ zeros 4 ++ itemTail key s)).2
  rw [encodeItem] at hlen ⊢
  generalize hsum : (sum (itemHead key s ++ zeros 4 ++ itemTail key s)).val = c at *
  have hhead : (itemHead key s ++ c).length = diskItemFixed := by
    rw [length_append, length_itemHead, hc]
    rfl
  have hkey : itemKey (itemHead key s ++ c ++ itemTail key s) = some key := by
    rw [itemTail, append_assoc key.vm]
    exact itemKey_head hc hk hs s.data
  have hrest : (itemHead key s ++ c ++ itemTail key s).drop (itemHeaderBytes key) = s.data := by
    rw [itemTail, ← append_assoc]
    exact drop_left' (by rw [length_append, hhead, length_append, itemHeaderBytes])
  have hdrop : (itemHead key s ++ c ++ itemTail key s).drop diskItemFixed = itemTail key s := drop_left' hhead
  have hstored : slice (itemHead key s ++ c ++ itemTail key s) 40 4 = c := by
    rw [append_assoc]
    exact slice_mid (length_itemHead key s) hc
  have htake : (itemHead key s ++ c ++ itemTail key s).take 40 = itemHead key s := by
    rw [append_assoc]
    exact take_left' (length_itemHead key s)
  have hsize : fromLE (slice (itemHead key s ++ c ++ itemTail key s) 32 4) = s.data.length :=
    fromLE_le_of_lt (w := 4) (by rw [maximumDiskItem] at hdata; omega)
  have henvelope : fromLE (slice (itemHead key s ++ c ++ itemTail key s) 36 4) = s.envelope :=
    fromLE_le_of_lt (w := 4) (by omega)
  have hcode : codeAt (itemHead key s ++ c ++ itemTail key s) 6 = s.code := rfl
  rw [parseItem, hkey]
  simp only [hsize, hlen, htake, hdrop, hsum, hstored, ne_eq, not_true_eq_false, if_false, henvelope, hrest, hcode]

/-! ## The three readers of a header -/

theorem slice_of_start (h : p <+: b) (hn : off + n ≤ p.length) : slice p off n = slice b off n := by
  obtain ⟨t, rfl⟩ := h
  exact (slice_append_left hn).symm

theorem getD_of_start (h : p <+: b) (hn : off < p.length) : p.getD off 0 = b.getD off 0 := by
  obtain ⟨t, rfl⟩ := h
  rw [getD_eq_getElem?_getD, getD_eq_getElem?_getD, getElem?_append_left hn]

theorem itemLength_of_start (h : p <+: b) (hp : diskItemFixed ≤ p.length) : itemLength p = itemLength b := by
  have hle := h.length_le
  rw [diskItemFixed] at hp
  have hp' : ¬ p.length < diskItemFixed := by rw [diskItemFixed]; omega
  have hb' : ¬ b.length < diskItemFixed := by rw [diskItemFixed]; omega
  rw [itemLength, itemLength, codeAt, codeAt]
  simp only [hp', hb', false_or, slice_of_start h (show 0 + 4 ≤ p.length by omega),
    slice_of_start h (show 12 + 2 ≤ p.length by omega), slice_of_start h (show 14 + 2 ≤ p.length by omega),
    slice_of_start h (show 32 + 4 ≤ p.length by omega), getD_of_start h (show 4 < p.length by omega),
    getD_of_start h (show 5 < p.length by omega), getD_of_start h (show 6 < p.length by omega),
    getD_of_start h (show 6 + 1 < p.length by omega), getD_of_start h (show 6 + 2 < p.length by omega),
    getD_of_start h (show 9 < p.length by omega)]

theorem itemLength_some (h : itemLength b = some n) : diskItemFixed ≤ b.length ∧
    n = diskItemFixed + fromLE (slice b 12 2) + fromLE (slice b 14 2) + fromLE (slice b 32 4) := by
  obtain ⟨h1, h⟩ := ite_none_left_eq_some.mp h
  obtain ⟨-, h⟩ := ite_none_left_eq_some.mp h
  cases h
  exact ⟨Nat.le_of_not_lt fun hlt => h1 (.inl hlt), rfl⟩

/-- The length and the key that a header's own readers give, of any part of an item that they accept, are
the item's. -/
theorem readers_agree (h : parseItem sum b = some (key, s)) (hp : p <+: b) :
    (∀ n, itemLength p = some n → n = b.length) ∧ ∀ k, itemKey p = some k → k = key := by
  rw [parseItem] at h
  cases hk : itemKey b with
  | none =>
    rw [hk] at h
    cases h
  | some k =>
    rw [hk] at h
    obtain ⟨hlen, h⟩ := ite_none_left_eq_some.mp h
    obtain ⟨-, h⟩ := ite_none_left_eq_some.mp h
    cases h
    obtain ⟨hsome, hk⟩ := ite_none_left_eq_some.mp hk
    obtain ⟨hlong, hk⟩ := ite_none_left_eq_some.mp hk
    constructor
    · intro n hn
      obtain ⟨hfixed, -⟩ := itemLength_some hn
      rw [itemLength_of_start hp hfixed] at hn
      obtain ⟨-, rfl⟩ := itemLength_some hn
      cases hk
      rw [not_not.mp hlen, itemHeaderBytes, length_slice, length_slice]
      omega
    · intro k hk'
      obtain ⟨hsome', hk'⟩ := ite_none_left_eq_some.mp hk'
      obtain ⟨n, hn⟩ := ne_none_iff_exists'.mp hsome'
      obtain ⟨hfixed, -⟩ := itemLength_some hn
      obtain ⟨hlong', hk'⟩ := ite_none_left_eq_some.mp hk'
      rw [diskItemFixed] at hfixed hlong' hk'
      rw [slice_of_start hp (show 12 + 2 ≤ p.length by omega), slice_of_start hp (show 14 + 2 ≤ p.length by omega)]
        at hlong' hk'
      cases hk
      cases hk'
      rw [slice_of_start hp (by omega), slice_of_start hp (by omega), slice_of_start hp (by omega),
        slice_of_start hp (by omega), slice_of_start hp (by omega), getD_of_start hp (by omega), diskItemFixed]

/-! ## Tables -/

/-- The fixed fields of a table's entry. -/
def entryHead (i : TableItem) : Bytes :=
  [kindOf i.key, i.code.stripe, i.code.k, i.code.m] ++ le 2 i.key.span.toNat ++ le 2 i.key.vm.length ++
    le 2 i.key.volume.length ++ le 8 i.key.sequence.toNat ++ le 8 i.key.page.toNat ++ le 4 i.offset ++ le 4 i.length

theorem length_entryHead (i : TableItem) : (entryHead i).length = diskTableFixed := rfl

theorem encodeTableItem_eq (i : TableItem) : encodeTableItem i = entryHead i ++ (i.key.vm ++ i.key.volume) :=
  append_assoc ..

theorem length_encodeTableItem (i : TableItem) : (encodeTableItem i).length = tableEntryBytes i.key := by
  rw [encodeTableItem_eq, length_append, length_entryHead, length_append, tableEntryBytes]

theorem parseTableItems_encode {items : List TableItem} (h : ∀ i ∈ items, i.storable) :
    parseTableItems items.length (items.flatMap encodeTableItem) = some items := by
  induction items with
  | nil => rfl
  | cons i items ih =>
    obtain ⟨⟨hk, hcode, hoffset, hlen⟩, hrest⟩ := forall_mem_cons.mp h
    have ih := ih hrest
    rw [flatMap_cons, encodeTableItem_eq, append_assoc, append_assoc, length_cons,
      parseTableItems]
    generalize items.flatMap encodeTableItem = t at ih ⊢
    have hv1 : slice (entryHead i ++ (i.key.vm ++ (i.key.volume ++ t))) diskTableFixed i.key.vm.length = i.key.vm :=
      slice_mid (length_entryHead i) rfl
    have hv2 : slice (entryHead i ++ (i.key.vm ++ (i.key.volume ++ t))) (diskTableFixed + i.key.vm.length)
        i.key.volume.length = i.key.volume := by
      rw [← append_assoc]
      exact slice_mid (by rw [length_append, length_entryHead]) rfl
    have hdrop : (entryHead i ++ (i.key.vm ++ (i.key.volume ++ t))).drop
        (diskTableFixed + i.key.vm.length + i.key.volume.length) = t := by
      rw [← append_assoc, ← append_assoc]
      exact drop_left' (by rw [length_append, length_append, length_entryHead])
    have hlength : (entryHead i ++ (i.key.vm ++ (i.key.volume ++ t))).length =
        diskTableFixed + (i.key.vm.length + (i.key.volume.length + t.length)) := by
      rw [length_append, length_entryHead, length_append, length_append]
    generalize i.key.vm ++ (i.key.volume ++ t) = u at *
    have hvm : fromLE (slice (entryHead i ++ u) 6 2) = i.key.vm.length :=
      fromLE_le_of_lt (w := 2) (by have := hk.1; omega)
    have hvolume : fromLE (slice (entryHead i ++ u) 8 2) = i.key.volume.length :=
      fromLE_le_of_lt (w := 2) (by have := hk.2; omega)
    have hoff : fromLE (slice (entryHead i ++ u) 26 4) = i.offset := fromLE_le_of_lt (w := 4) (by omega)
    have hlen' : fromLE (slice (entryHead i ++ u) 30 4) = i.length :=
      fromLE_le_of_lt (w := 4) (by rw [maximumDiskItem] at hlen; omega)
    have hsequence : slice (entryHead i ++ u) 10 8 = le 8 i.key.sequence.toNat := rfl
    have hpage : slice (entryHead i ++ u) 18 8 = le 8 i.key.page.toNat := rfl
    have hspan : slice (entryHead i ++ u) 4 2 = le 2 i.key.span.toNat := rfl
    have hkind : (entryHead i ++ u).getD 0 0 = kindOf i.key := rfl
    have hc : codeAt (entryHead i ++ u) 1 = i.code := rfl
    rw [if_neg (by omega)]
    simp only [hvm, hvolume]
    rw [if_neg (by omega)]
    simp only [hv1, hv2, hdrop, hoff, hlen', hsequence, hpage, hspan, hkind, hc, uint64_fromLE, uint16_fromLE, kindOf_eq]
    rw [if_neg (by rintro (h | h); exacts [absurd h (Nat.not_lt.mpr hlen), h hcode]), ih]
    rfl

/-- The table's fields hold it. -/
structure RegionTable.Storable (t : RegionTable) (regionBytes : Nat) : Prop where
  items : ∀ i ∈ t.items, i.storable
  sequence : t.sequence < 2 ^ 64
  generation : t.generation < 2 ^ 64
  fits : (t.items.flatMap encodeTableItem).length + diskTrailerSize ≤ regionBytes
  region : regionBytes ≤ 2 ^ 32

theorem length_items_le (items : List TableItem) : items.length ≤ (items.flatMap encodeTableItem).length := by
  induction items with
  | nil => exact Nat.le_refl _
  | cons i items ih =>
    rw [flatMap_cons, length_append, length_encodeTableItem, tableEntryBytes, diskTableFixed, length_cons]
    omega

/-- The trailer's first 32 bytes. -/
def trailerHead (t : RegionTable) : Bytes :=
  tableMagic ++ [3, 0, 0, 0] ++ le 8 t.sequence ++ le 8 t.generation ++ le 4 t.items.length ++
    le 4 (t.items.flatMap encodeTableItem).length

theorem tableBody_eq (t : RegionTable) : tableBody t = t.items.flatMap encodeTableItem ++ trailerHead t := by
  simp only [tableBody, trailerHead, append_assoc]

theorem readRegionTable_encode {t : RegionTable} {base : Nat} (h : t.Storable regionBytes)
    (hfile : base + regionBytes ≤ file.length)
    (hend : slice file (base + regionBytes - (encodeTable sum t).length) (encodeTable sum t).length = encodeTable sum t) :
    readRegionTable sum (readFull file) base regionBytes = .ok t := by
  obtain ⟨hitems, hseq, hgen, hfits, hregion⟩ := h
  have hcount := length_items_le t.items
  generalize hsize : (t.items.flatMap encodeTableItem).length = size at *
  have hbody : (tableBody t).length = size + 32 := by
    rw [tableBody_eq, length_append, hsize]
    rfl
  have hlen : (encodeTable sum t).length = size + diskTrailerSize := by
    rw [encodeTable, length_append, length_append, hbody, (sum _).2, length_zeros, diskTrailerSize]
  rw [hlen] at hend
  have htable : encodeTable sum t =
      t.items.flatMap encodeTableItem ++ (trailerHead t ++ ((sum (tableBody t)).val ++ zeros 4)) := by
    rw [encodeTable, tableBody_eq, append_assoc, append_assoc]
  have hread : ∀ off n, off + n ≤ file.length → readFull file off n = some (slice file off n) :=
    fun off n hle => if_pos hle
  -- The trailer is the end of the table's bytes.
  have htrailer : slice file (base + regionBytes - diskTrailerSize) diskTrailerSize =
      trailerHead t ++ ((sum (tableBody t)).val ++ zeros 4) := by
    have hcut : slice file (base + regionBytes - diskTrailerSize) diskTrailerSize =
        (slice file (base + regionBytes - (size + diskTrailerSize)) (size + diskTrailerSize)).drop size := by
      rw [slice, slice, drop_take, drop_drop, Nat.add_sub_cancel_left]
      congr 2
      omega
    rw [hcut, hend, htable, drop_left' hsize]
  have hsizeAt : fromLE (slice (trailerHead t ++ ((sum (tableBody t)).val ++ zeros 4)) 28 4) = size := by
    rw [← hsize]
    exact fromLE_le_of_lt (w := 4) (by rw [hsize]; rw [diskTrailerSize] at hfits; omega)
  rw [readRegionTable, hread _ _ (by omega), htrailer]
  dsimp only
  rw [if_neg (fun h => h rfl), hsizeAt, if_neg (by rintro (h | h); exacts [h rfl, by omega]), hread _ _ (by omega),
    hend]
  dsimp only
  rw [parseTable]
  have htake : (encodeTable sum t).take (size + 32) = tableBody t := by
    rw [encodeTable, append_assoc]
    exact take_left' hbody
  have hstored : slice (encodeTable sum t) (size + 32) 4 = (sum (tableBody t)).val := by
    rw [encodeTable, append_assoc]
    exact slice_mid hbody (sum _).2
  have hentries : (encodeTable sum t).take size = t.items.flatMap encodeTableItem := by
    rw [htable]
    exact take_left' hsize
  have hfield : ∀ off n, slice (encodeTable sum t) (size + off) n =
      slice (trailerHead t ++ ((sum (tableBody t)).val ++ zeros 4)) off n := by
    intro off n
    rw [htable, slice_append_right (by omega), hsize, Nat.add_sub_cancel_left]
  have hcountAt : fromLE (slice (trailerHead t ++ ((sum (tableBody t)).val ++ zeros 4)) 24 4) = t.items.length :=
    fromLE_le_of_lt (w := 4) (by rw [diskTrailerSize] at hfits; omega)
  have hseqAt : fromLE (slice (trailerHead t ++ ((sum (tableBody t)).val ++ zeros 4)) 8 8) = t.sequence :=
    fromLE_le_of_lt (w := 8) hseq
  have hgenAt : fromLE (slice (trailerHead t ++ ((sum (tableBody t)).val ++ zeros 4)) 16 8) = t.generation :=
    fromLE_le_of_lt (w := 8) hgen
  rw [htake, hstored, if_neg (fun h => h rfl), hfield, hfield, hfield, hcountAt, hseqAt, hgenAt, hentries,
    parseTableItems_encode hitems]

/-! ## The header and the lease -/

theorem identityAt_mid (id : Identity) (ha : a.length = off) :
    identityAt (a ++ (id.val ++ c)) off = id := by
  apply Subtype.ext
  change slice (a ++ (id.val ++ c) ++ zeros (off + 16)) off 16 = id.val
  rw [append_assoc, append_assoc]
  exact slice_mid ha id.2

theorem length_headerStart (h : DiskHeader) : (headerStart h).length = 16 := rfl

theorem length_headerFields (h : DiskHeader) : (headerFields h).length = 16 := rfl

theorem length_headerBody (h : DiskHeader) : (headerBody h).length = diskHeaderFixed +
    (h.deployment.store.length + h.deployment.bucket.length + h.deployment.root.length) := by
  rw [headerBody, length_append, length_headerStart, length_append, h.identity.2, length_append,
    length_headerFields, length_append, length_append, diskHeaderFixed]
  omega

theorem slice_headerBody (h : DiskHeader) (t : Bytes) (hlo : 32 ≤ off) (hhi : off + n ≤ 48) :
    slice (headerBody h ++ t) off n = slice (headerFields h) (off - 32) n := by
  rw [headerBody, append_assoc, slice_append_right (by rw [length_headerStart]; omega), append_assoc,
    slice_append_right (by rw [length_headerStart, h.identity.2]; omega), append_assoc, length_headerStart,
    h.identity.2, slice_append_left (by rw [length_headerFields]; omega), Nat.sub_sub]

theorem readDiskHeader_encode {h : DiskHeader} {limit : Nat} (hd : h.deployment.storable)
    (hlimit : diskHeaderBytes h.deployment ≤ limit) (rest : Bytes) :
    readDiskHeader sum (fun off n => .ok (readFull (encodeDiskHeader sum h ++ rest) off n)) limit = .ok h := by
  obtain ⟨h1, h2, h3⟩ := hd
  have hbodyLen := length_headerBody h
  have hsize : (encodeDiskHeader sum h).length = diskHeaderFixed + (h.deployment.store.length +
      h.deployment.bucket.length + h.deployment.root.length) + 4 := by
    rw [encodeDiskHeader, length_append, hbodyLen, (sum _).2]
  rw [diskHeaderBytes, ← hsize] at hlimit
  rw [diskHeaderFixed] at hsize
  -- The first bytes, from which the length of all is read.
  have hstart : slice (encodeDiskHeader sum h ++ rest) 0 diskHeaderFixed <+:
      headerBody h ++ ((sum (headerBody h)).val ++ rest) := by
    rw [encodeDiskHeader, append_assoc]
    exact take_prefix _ _
  have hstartLen : (slice (encodeDiskHeader sum h ++ rest) 0 diskHeaderFixed).length = 48 := by
    rw [length_slice, length_append, diskHeaderFixed]
    omega
  have hfixed : readFull (encodeDiskHeader sum h ++ rest) 0 diskHeaderFixed =
      some (slice (encodeDiskHeader sum h ++ rest) 0 diskHeaderFixed) := by
    rw [readFull, if_pos (by rw [length_append, diskHeaderFixed]; omega)]
  have hfull : readFull (encodeDiskHeader sum h ++ rest) 0 (encodeDiskHeader sum h).length =
      some (encodeDiskHeader sum h) := by
    rw [readFull, if_pos (by rw [length_append]; omega), slice_append_left (by omega), slice_all (Nat.le_refl _)]
  have hstore : fromLE (slice (headerFields h) (40 - 32) 2) = h.deployment.store.length :=
    fromLE_le_of_lt (w := 2) (by omega)
  have hbucket : fromLE (slice (headerFields h) (42 - 32) 2) = h.deployment.bucket.length :=
    fromLE_le_of_lt (w := 2) (by omega)
  have hroot : fromLE (slice (headerFields h) (44 - 32) 2) = h.deployment.root.length :=
    fromLE_le_of_lt (w := 2) (by omega)
  have hcut : (encodeDiskHeader sum h).length - 4 = (headerBody h).length := by
    rw [encodeDiskHeader, length_append, (sum _).2, Nat.add_sub_cancel]
  have htotal : diskHeaderFixed + (h.deployment.store.length + h.deployment.bucket.length +
      h.deployment.root.length) + 4 = (encodeDiskHeader sum h).length := by
    rw [hsize, diskHeaderFixed]
  rw [readDiskHeader, hfixed]
  dsimp only
  rw [slice_of_start hstart (by omega), if_neg (fun h => h rfl), getD_of_start hstart (by omega),
    if_neg (fun h => h rfl), slice_of_start hstart (by omega), slice_of_start hstart (by omega),
    slice_of_start hstart (by omega), slice_headerBody h _ (by omega) (by omega),
    slice_headerBody h _ (by omega) (by omega), slice_headerBody h _ (by omega) (by omega), hstore, hbucket, hroot,
    htotal, if_neg (Nat.not_lt.mpr hlimit), hfull]
  dsimp only
  rw [hcut, encodeDiskHeader, take_left, drop_left, if_neg (fun h => h rfl)]
  have hnames : slice (headerBody h ++ (sum (headerBody h)).val) diskHeaderFixed ((headerBody h).length - diskHeaderFixed) =
      h.deployment.store ++ h.deployment.bucket ++ h.deployment.root := by
    have hsplit : headerBody h = (headerStart h ++ h.identity.val ++ headerFields h) ++
        (h.deployment.store ++ h.deployment.bucket ++ h.deployment.root) := by
      rw [headerBody, append_assoc (headerStart h ++ _), append_assoc (headerStart h)]
    rw [hbodyLen, Nat.add_sub_cancel_left, hsplit, append_assoc]
    refine slice_mid ?_ ?_
    · rw [length_append, length_append, length_headerStart, h.identity.2, length_headerFields, diskHeaderFixed]
    · rw [length_append, length_append]
  have hid : identityAt (headerBody h ++ (sum (headerBody h)).val) 16 = h.identity := by
    rw [headerBody, append_assoc, append_assoc]
    exact identityAt_mid h.identity (length_headerStart h)
  have hregion : slice (headerBody h ++ (sum (headerBody h)).val) 8 8 = le 8 h.regionBytes.toNat := by
    rw [headerBody]
    rfl
  have hgen : slice (headerFields h) (32 - 32) 8 = le 8 h.generation.toNat := rfl
  have hn2 : slice (h.deployment.store ++ h.deployment.bucket ++ h.deployment.root) h.deployment.store.length
      h.deployment.bucket.length = h.deployment.bucket := by
    rw [append_assoc]
    exact slice_mid rfl rfl
  rw [hnames, hid, hregion, slice_headerBody h _ (by omega) (by omega), hgen, uint64_fromLE, uint64_fromLE, hn2,
    drop_left' (length_append ..), append_assoc, take_left]

theorem readDiskLease_encode {l : DiskLease} (hfile : regionBytes ≤ file.length)
    (hsize : diskLeaseSize ≤ regionBytes)
    (hend : slice file (regionBytes - diskLeaseSize) diskLeaseSize = encodeDiskLease sum l) :
    readDiskLease sum (readFull file) regionBytes = some l := by
  have hfirst : (leaseStart l).length = 24 := rfl
  have hlen : (leaseBody l).length = 48 := by
    rw [leaseBody, length_append, hfirst, length_append, l.member.2]
    rfl
  have htake : (encodeDiskLease sum l).take 48 = leaseBody l := by
    rw [encodeDiskLease, append_assoc]
    exact take_left' hlen
  have hstored : slice (encodeDiskLease sum l) 48 4 = (sum (leaseBody l)).val := by
    rw [encodeDiskLease, append_assoc]
    exact slice_mid hlen (sum _).2
  have hall : encodeDiskLease sum l =
      leaseStart l ++ (l.member.val ++ (le 8 l.slots.toNat ++ ((sum (leaseBody l)).val ++ zeros 12))) := by
    rw [encodeDiskLease, leaseBody, append_assoc, append_assoc, append_assoc]
  have hslots : slice (leaseStart l ++ (l.member.val ++ (le 8 l.slots.toNat ++ ((sum (leaseBody l)).val ++ zeros 12))))
      40 8 = le 8 l.slots.toNat := by
    rw [← append_assoc]
    exact slice_mid (by rw [length_append, hfirst, l.member.2]) rfl
  rw [readDiskLease, readFull, if_pos (by omega), hend, bind_some, htake, hstored, hall, hslots,
    identityAt_mid l.member hfirst]
  generalize l.member.val ++ (le 8 l.slots.toNat ++ ((sum (leaseBody l)).val ++ zeros 12)) = t
  have hgen : slice (leaseStart l ++ t) 8 8 = le 8 l.generation.toNat := rfl
  have hassigned : slice (leaseStart l ++ t) 16 8 = le 8 l.assigned.toNat := rfl
  rw [if_neg, hgen, hassigned, uint64_fromLE, uint64_fromLE, uint64_fromLE]
  rintro (h | h | h)
  · exact h rfl
  · exact h rfl
  · exact h rfl

/-! ## Scans -/

section Scan

variable {read : Nat → Nat → Option Bytes} {base limit at_ : Nat}

theorem length_of_parseItem (h : parseItem sum b = some (key, s)) : itemHeaderBytes key + s.data.length = b.length := by
  rw [parseItem] at h
  cases hk : itemKey b with
  | none =>
    rw [hk] at h
    cases h
  | some k =>
    rw [hk] at h
    obtain ⟨hlen, h⟩ := ite_none_left_eq_some.mp h
    obtain ⟨-, h⟩ := ite_none_left_eq_some.mp h
    cases h
    rw [length_drop]
    omega

/-- What a scan finds lies inside the region, from where it began on, in order and apart. -/
theorem scanFrom_apart (hread : ∀ off n c, read off n = some c → c.length = n) :
    (∀ i ∈ (scanFrom sum read base limit at_).1, at_ ≤ i.offset ∧ i.offset + i.size ≤ limit) ∧
      (scanFrom sum read base limit at_).1.Pairwise fun i j => i.offset + i.size ≤ j.offset := by
  fun_induction scanFrom sum read base limit at_ with
  | case1 | case2 | case3 | case4 | case5 => simp
  | case6 at_ hlt fixed hfixed size hsize hfits item hitem rest ih =>
    have hlen := hread _ _ _ hitem
    obtain ⟨hin, hapart⟩ := ih
    have hin' : ∀ i ∈ rest.1, at_ ≤ i.offset ∧ i.offset + i.size ≤ limit := fun i hi =>
      ⟨Nat.le_trans (Nat.le_add_right ..) (hin i hi).1, (hin i hi).2⟩
    cases hp : parseItem sum item with
    | none => exact ⟨hin', hapart⟩
    | some found =>
      obtain ⟨key, s⟩ := found
      have hend : TableItem.size ⟨key, s.code, at_, s.data.length⟩ = size := by
        rw [TableItem.size, length_of_parseItem hp, hlen]
      refine ⟨forall_mem_cons.mpr ⟨⟨Nat.le_refl _, ?_⟩, hin'⟩, pairwise_cons.mpr ⟨fun j hj => ?_, hapart⟩⟩
      · show at_ + TableItem.size ⟨key, s.code, at_, s.data.length⟩ ≤ limit
        omega
      · show at_ + TableItem.size ⟨key, s.code, at_, s.data.length⟩ ≤ j.offset
        rw [hend]
        exact (hin j hj).1

/-- The entries of items that lie one after another. -/
def entriesFrom : Nat → List (Key × Stripe) → List TableItem
  | _, [] => []
  | at_, (key, s) :: rest =>
    ⟨key, s.code, at_, s.data.length⟩ :: entriesFrom (at_ + (itemHeaderBytes key + s.data.length)) rest

/-- A scan of items that lie one after another finds each of them. -/
theorem scanFrom_run {items : List (Key × Stripe)} (hs : ∀ i ∈ items, i.1.storable ∧ i.2.storable)
    (hread : ∀ off n, off + n ≤ (items.flatMap fun i => encodeItem sum i.1 i.2).length →
      read (base + at_ + off) n = some (slice (items.flatMap fun i => encodeItem sum i.1 i.2) off n))
    (hfits : at_ + (items.flatMap fun i => encodeItem sum i.1 i.2).length ≤ limit) :
    entriesFrom at_ items <+: (scanFrom sum read base limit at_).1 := by
  induction items generalizing at_ with
  | nil => exact nil_prefix
  | cons i items ih =>
    obtain ⟨key, s⟩ := i
    obtain ⟨⟨hk, hst⟩, hs⟩ := forall_mem_cons.mp hs
    have hsize := length_encodeItem sum key s
    rw [flatMap_cons] at hread hfits
    dsimp only at hread hfits
    generalize hrest : (items.flatMap fun i => encodeItem sum i.1 i.2) = rest at *
    rw [length_append] at hread hfits
    have hfixedLe : diskItemFixed ≤ (encodeItem sum key s).length := by
      rw [hsize, itemHeaderBytes]
      omega
    have hfixed := hread 0 diskItemFixed (by omega)
    have hitem := hread 0 (encodeItem sum key s).length (by omega)
    rw [Nat.add_zero, slice_append_left (by omega)] at hfixed hitem
    rw [slice_all (Nat.le_refl _)] at hitem
    have hstart : slice (encodeItem sum key s) 0 diskItemFixed <+: encodeItem sum key s := take_prefix _ _
    have hlength : itemLength (slice (encodeItem sum key s) 0 diskItemFixed) = some (encodeItem sum key s).length := by
      rw [itemLength_of_start hstart (by rw [length_slice]; omega), hsize]
      exact itemLength_head (sum _).2 hk hst _
    rw [scanFrom, if_neg (by omega), hfixed]
    dsimp only
    rw [hlength]
    dsimp only
    rw [dif_neg (by rw [diskItemFixed] at hfixedLe; omega), hitem]
    dsimp only
    rw [parseItem_encodeItem hk hst]
    refine cons_prefix_cons.mpr ⟨rfl, ?_⟩
    rw [← hsize]
    refine ih hs (fun off n hn => ?_) (by omega)
    have := hread ((encodeItem sum key s).length + off) n (by omega)
    rw [slice_append_right (by omega), Nat.add_sub_cancel_left] at this
    rwa [show base + (at_ + (encodeItem sum key s).length) + off =
      base + at_ + ((encodeItem sum key s).length + off) by omega]

end Scan

theorem readFull_length (h : readFull file off n = some c) : c.length = n := by
  obtain ⟨hle, h⟩ := ite_none_right_eq_some.mp h
  cases h
  rw [length_slice]
  omega

/-- The formats of a cache disk, under any checksum. Items, tables, the header and the lease are read back
as they were written, wherever they lie in a file. The readers of an item's length and key agree with the
reader of the item on every part of it that begins with it. A scan of any region finds items that lie
inside it, in order and apart, and every item of a run of them from its start. -/
theorem disk_formats_hold (sum : Checksum) :
    (∀ (key : Key) (s : Stripe), key.storable → s.storable → parseItem sum (encodeItem sum key s) = some (key, s)) ∧
    (∀ (t : RegionTable) (file : Bytes) (base regionBytes : Nat), t.Storable regionBytes →
      base + regionBytes ≤ file.length →
      slice file (base + regionBytes - (encodeTable sum t).length) (encodeTable sum t).length = encodeTable sum t →
      readRegionTable sum (readFull file) base regionBytes = .ok t) ∧
    (∀ (h : DiskHeader) (limit : Nat) (rest : Bytes), h.deployment.storable → diskHeaderBytes h.deployment ≤ limit →
      readDiskHeader sum (fun off n => .ok (readFull (encodeDiskHeader sum h ++ rest) off n)) limit = .ok h) ∧
    (∀ (l : DiskLease) (file : Bytes) (regionBytes : Nat), regionBytes ≤ file.length → diskLeaseSize ≤ regionBytes →
      slice file (regionBytes - diskLeaseSize) diskLeaseSize = encodeDiskLease sum l →
      readDiskLease sum (readFull file) regionBytes = some l) ∧
    (∀ (item p : Bytes) (key : Key) (s : Stripe), parseItem sum item = some (key, s) → p <+: item →
      (∀ n, itemLength p = some n → n = item.length) ∧ ∀ k, itemKey p = some k → k = key) ∧
    (∀ (file : Bytes) (base regionBytes : Nat),
      (∀ i ∈ (scanRegion sum (readFull file) base regionBytes).1, i.offset + i.size ≤ regionBytes - diskTrailerSize) ∧
      (scanRegion sum (readFull file) base regionBytes).1.Pairwise fun i j => i.offset + i.size ≤ j.offset) ∧
    ∀ (file : Bytes) (base regionBytes : Nat) (items : List (Key × Stripe)),
      (∀ i ∈ items, i.1.storable ∧ i.2.storable) → base + regionBytes ≤ file.length →
      (items.flatMap fun i => encodeItem sum i.1 i.2) <+: slice file base (regionBytes - diskTrailerSize) →
      entriesFrom 0 items <+: (scanRegion sum (readFull file) base regionBytes).1 := by
  refine ⟨fun _ _ => parseItem_encodeItem, fun _ _ _ _ => readRegionTable_encode,
    fun _ _ rest hd hl => readDiskHeader_encode hd hl rest, fun _ _ _ => readDiskLease_encode,
    fun _ _ _ _ h hp => readers_agree h hp, fun file base regionBytes => ?_, ?_⟩
  · have hread : ∀ off n c, readFull file off n = some c → c.length = n := fun _ _ _ => readFull_length
    exact ⟨fun i hi => ((scanFrom_apart hread).1 i hi).2, (scanFrom_apart hread).2⟩
  · intro file base regionBytes items hs hfile hrun
    have hle := hrun.length_le
    rw [length_slice] at hle
    refine scanFrom_run hs (fun off n hn => ?_) (by omega)
    have hcut : slice (items.flatMap fun i => encodeItem sum i.1 i.2) off n = slice file (base + off) n := by
      rw [slice_of_start hrun hn, slice, slice, slice, drop_take, take_take, drop_drop,
        Nat.min_eq_left (by omega)]
    rw [readFull, if_pos (by omega), Nat.add_zero, hcut]

/-- A disk of one small page, under a checksum that is always zero. -/
theorem disk_formats_hold_sample :
    let sum : Checksum := fun _ => ⟨zeros 4, rfl⟩
    let key : Key := { vm := [118], sequence := 1, volume := [100], page := 0 }
    let s : Stripe := { code := {}, envelope := 2, data := [7, 8] }
    parseItem sum (encodeItem sum key s) = some (key, s) ∧
      [(⟨key, {}, 0, 2⟩ : TableItem)] <+:
        (scanRegion sum (readFull (encodeItem sum key s ++ zeros 40)) 0 88).1 := by
  intro sum key s
  have hk : key.storable := by decide
  have hs : s.storable := ⟨by decide, by decide, by decide, by decide⟩
  obtain ⟨hitem, -, -, -, -, -, hscan⟩ := disk_formats_hold sum
  refine ⟨hitem key s hk hs, ?_⟩
  exact hscan (encodeItem sum key s ++ zeros 40) 0 88 [(key, s)] (by simp [hk, hs]) (by decide) (by decide)

end Sproutfs.DiskCache

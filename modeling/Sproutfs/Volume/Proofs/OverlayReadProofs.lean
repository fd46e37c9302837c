import Sproutfs.Volume.Proofs.ExtentsProofs

/-!
# Reads through an overlay

The byte-wise read is followed extent by extent: what lies before the cursor is done. The page-wise read
asks the source for a page unless the extents' parts of it add up to the whole page; they are apart, so the
sum is the whole only where every byte is covered.
-/

namespace Sproutfs.Volume

open Option ByteCodec

section Buffers

variable {dst w : Bytes} {off i : Nat} {page first mid : Nat}

theorem length_splice (h : off + w.length ≤ dst.length) : (splice dst off w).length = dst.length := by
  simp only [splice, List.length_append, List.length_take, List.length_drop]
  omega

theorem getElem?_splice (h : off + w.length ≤ dst.length) :
    (splice dst off w)[i]? = if off ≤ i ∧ i < off + w.length then w[i - off]? else dst[i]? := by
  have htake : (dst.take off).length = off := by
    rw [List.length_take]
    omega
  rw [splice, List.append_assoc, List.getElem?_append, htake]
  by_cases hlo : i < off
  · rw [if_pos hlo, if_neg (by omega), List.getElem?_take, if_pos hlo]
  · rw [if_neg hlo, List.getElem?_append]
    by_cases hhi : i - off < w.length
    · rw [if_pos hhi, if_pos (by omega)]
    · rw [if_neg hhi, if_neg (by omega), List.getElem?_drop]
      congr 1
      omega

variable {e : Extent} {a b : Nat}

theorem length_window (h1 : e.start ≤ a) (h2 : b ≤ e.stop) : (e.window a b).length = b - a := by
  unfold Extent.window
  cases hd : e.data with
  | none => exact length_zeros _
  | some d =>
    have := e.fits d hd
    simp only [length_slice]
    omega

theorem getElem?_window (h1 : e.start ≤ a) (h2 : b ≤ e.stop) (hi : i < b - a) :
    (e.window a b)[i]? = some (e.byte (a + i)) := by
  unfold Extent.window Extent.byte
  cases hd : e.data with
  | none => simp [zeros, hi]
  | some d =>
    have hfit := e.fits d hd
    simp only [slice, List.getElem?_take, List.getElem?_drop, if_pos hi]
    rw [show a + i - e.start = a - e.start + i by omega, List.getD_eq_getElem?_getD,
      List.getElem?_eq_getElem (by omega), getD_some]

end Buffers

section Bytewise

variable {base : Inherited} {cancelled : Bool} {items : List Extent} {offset stop cursor b : Nat} {dst r : Bytes}

/-- The byte a reader sees: the extents' where they hold one, and the source's everywhere else. -/
def overlaid (base : Inherited) (content : Nat → Option (UInt8 × Nat)) (b : Nat) : UInt8 :=
  ((content b).map (·.1)).getD (base.bytes b)

theorem overlaid_none {content : Nat → Option (UInt8 × Nat)} (h : content b = none) :
    overlaid base content b = base.bytes b := by
  rw [overlaid, h]
  rfl

theorem fillGap_spec {start : Nat} (hlen : offset + dst.length = stop) (ho : offset ≤ cursor) (hn : start ≤ stop)
    (h : fillGap base offset cursor start dst = some r) :
    r.length = dst.length ∧ ∀ b, offset ≤ b →
      r[b - offset]? = if cursor ≤ b ∧ b < start then some (base.bytes b) else dst[b - offset]? := by
  rw [fillGap] at h
  by_cases hgap : cursor < start
  · rw [if_pos hgap] at h
    obtain ⟨bs, hbs, rfl⟩ := map_eq_some_iff.mp h
    obtain ⟨_, hbs⟩ := ite_none_right_eq_some.mp hbs
    cases hbs
    have hn : ((List.range' cursor (start - cursor)).map base.bytes).length = start - cursor := by
      rw [List.length_map, List.length_range']
    have hfit : cursor - offset + ((List.range' cursor (start - cursor)).map base.bytes).length ≤ dst.length := by
      rw [hn]
      omega
    refine ⟨length_splice hfit, fun b hb => ?_⟩
    rw [getElem?_splice hfit, hn]
    by_cases hin : cursor ≤ b ∧ b < start
    · rw [if_pos (by omega), if_pos hin, List.getElem?_map, List.getElem?_range' (by omega)]
      simp only [map_some, Option.some.injEq]
      congr 1
      omega
    · rw [if_neg (by omega), if_neg hin]
  · rw [if_neg hgap] at h
    cases h
    exact ⟨rfl, fun b _ => by rw [if_neg (by omega)]⟩

theorem lay_spec (e : Extent) (dst : Bytes) (stop lo hi : Nat) (hlen : offset + dst.length = stop) (ho : offset ≤ lo)
    (hlo : e.start ≤ lo) (hhi : hi ≤ e.stop) (hs : hi ≤ stop) (hle : lo ≤ hi) :
    (splice dst (lo - offset) (e.window lo hi)).length = dst.length ∧ ∀ b, offset ≤ b →
      (splice dst (lo - offset) (e.window lo hi))[b - offset]? =
        if lo ≤ b ∧ b < hi then some (e.byte b) else dst[b - offset]? := by
  have hw := length_window hlo hhi
  have hfit : lo - offset + (e.window lo hi).length ≤ dst.length := by
    rw [hw]
    omega
  refine ⟨length_splice hfit, fun b hb => ?_⟩
  rw [getElem?_splice hfit, hw]
  by_cases hin : lo ≤ b ∧ b < hi
  · rw [if_pos (by omega), if_pos hin, getElem?_window hlo hhi (by omega)]
    congr 2
    omega
  · rw [if_neg (by omega), if_neg hin]

/-- The loop over the extents of the range: what lies before the cursor stays, the rest is overlaid. -/
theorem readItems_spec (ho : Ordered items) (hin : ∀ e ∈ items, cursor ≤ max e.start offset ∧ e.start < stop ∧ offset < e.stop)
    (hlo : offset ≤ cursor) (hhi : cursor ≤ stop) (hlen : offset + dst.length = stop)
    (h : readItems base cancelled offset stop items cursor dst = some r) :
    r.length = dst.length ∧ ∀ b, offset ≤ b → b < stop →
      r[b - offset]? = if b < cursor then dst[b - offset]? else some (overlaid base (contentOf items) b) := by
  induction items generalizing cursor dst with
  | nil =>
    rw [readItems] at h
    by_cases hlt : cursor < stop
    · rw [if_pos hlt] at h
      obtain ⟨hl, hr⟩ := fillGap_spec hlen hlo (Nat.le_refl _) h
      refine ⟨hl, fun b hb hbs => ?_⟩
      rw [hr b hb]
      by_cases hbc : b < cursor
      · rw [if_neg (by omega), if_pos hbc]
      · rw [if_pos (by omega), if_neg hbc, overlaid_none rfl]
    · rw [if_neg hlt] at h
      obtain ⟨_, h⟩ := ite_none_left_eq_some.mp h
      cases h
      exact ⟨rfl, fun b _ hbs => by rw [if_pos (by omega)]⟩
  | cons e items ih =>
    obtain ⟨hcur, hst, hsp⟩ := hin e List.mem_cons_self
    have hne := e.nonempty
    rw [readItems] at h
    obtain ⟨dst1, h1, h⟩ := bind_eq_some_iff.mp h
    obtain ⟨hlen1, hat1⟩ := fillGap_spec hlen hlo (by omega) h1
    obtain ⟨hlen2, hat2⟩ := lay_spec e dst1 (offset + dst1.length) (max e.start offset) (min e.stop stop)
      rfl (by omega) (by omega) (by omega) (by omega) (by omega)
    obtain ⟨hrest, hordered⟩ := List.pairwise_cons.mp ho
    have hnext : ∀ c ∈ items, min e.stop stop ≤ max c.start offset ∧ c.start < stop ∧ offset < c.stop := by
      intro c hc
      have := hrest c hc
      have := hin c (List.mem_cons_of_mem _ hc)
      omega
    obtain ⟨hl, hr⟩ := ih hordered hnext (by omega) (by omega) (by omega) h
    refine ⟨by rw [hl, hlen2, hlen1], fun b hb hbs => ?_⟩
    rw [hr b hb hbs, hat2 b hb, hat1 b hb]
    by_cases hdone : b < min e.stop stop
    · rw [if_pos hdone]
      by_cases hc : e.covers b
      · rw [if_pos (by omega), if_neg (by omega), overlaid, contentOf_cons, if_pos hc]
        rfl
      · -- Before the extent: the extents after it begin behind it, so nothing covers the byte.
        have hnone : contentOf (e :: items) b = none := by
          refine contentOf_none fun c hc' => ?_
          rcases List.mem_cons.mp hc' with rfl | hc'
          · exact hc
          · have := hrest c hc'
            omega
        rw [if_neg (by omega), overlaid_none hnone]
        by_cases hbc : b < cursor
        · rw [if_neg (by omega), if_pos hbc]
        · rw [if_pos (by omega), if_neg hbc]
    · rw [if_neg hdone, if_neg (by omega), overlaid, overlaid, contentOf_cons, if_neg (by omega)]

end Bytewise

section Pages

variable {items : List Extent} {e : Extent} {size offset stop lo hi b : Nat} {dst : Bytes}
  {wanted : Option (List Bool)}

/-- The bytes of an extent in a range. -/
def Extent.overlap (e : Extent) (lo hi : Nat) : Nat := min e.stop hi - max e.start lo

theorem page_iff (hsize : 0 < size) : page * size ≤ b ∧ b < (page + 1) * size ↔ b / size = page := by
  rw [Nat.div_eq_iff hsize, Nat.succ_mul]
  omega

theorem mem_touched (hsize : 0 < size) {last : Nat} (hlt : first < last) :
    page ∈ List.range' (first / size) ((last - 1) / size + 1 - first / size) ↔
      first < (page + 1) * size ∧ page * size < last := by
  have h1 : first / size ≤ page ↔ first < (page + 1) * size := by
    rw [← Nat.lt_succ_iff, Nat.div_lt_iff_lt_mul hsize]
  have h2 : page ≤ (last - 1) / size ↔ page * size < last := by
    rw [Nat.le_div_iff_mul_le hsize]
    omega
  rw [List.mem_range'_1, ← h1, ← h2]
  omega

theorem Extent.overlap_split (e : Extent) (h1 : lo ≤ mid) (h2 : mid ≤ hi) :
    e.overlap lo hi = e.overlap lo mid + e.overlap mid hi := by
  unfold overlap
  by_cases hstop : e.stop ≤ mid
  · rw [Nat.min_eq_left hstop, Nat.min_eq_left (Nat.le_trans hstop h2)]
    omega
  · by_cases hstart : mid ≤ e.start
    · rw [Nat.max_eq_left hstart, Nat.max_eq_left (Nat.le_trans h1 hstart)]
      omega
    · omega

/-- The sum of the extents' parts of a range. -/
def held (items : List Extent) (lo hi : Nat) : Nat := (items.map fun e => e.overlap lo hi).sum

theorem held_le (lo hi : Nat) (ho : Ordered items) : held items lo hi ≤ hi - lo := by
  induction items generalizing lo with
  | nil => exact Nat.zero_le _
  | cons e items ih =>
    obtain ⟨hrest, hordered⟩ := List.pairwise_cons.mp ho
    -- What follows begins behind the extent, so its parts lie in what the extent leaves of the range.
    have hshift : held items lo hi = held items (max lo e.stop) hi := by
      unfold held
      congr 1
      refine List.map_congr_left fun c hc => ?_
      have := hrest c hc
      have := c.nonempty
      unfold Extent.overlap
      omega
    have hsum : held (e :: items) lo hi = e.overlap lo hi + held items lo hi := rfl
    have := ih (max lo e.stop) hordered
    have hov : e.overlap lo hi = min e.stop hi - max e.start lo := rfl
    omega

theorem held_split (items : List Extent) (h1 : lo ≤ mid) (h2 : mid ≤ hi) :
    held items lo hi = held items lo mid + held items mid hi := by
  induction items with
  | nil => rfl
  | cons e items ih =>
    have hsum : ∀ a b, held (e :: items) a b = e.overlap a b + held items a b := fun _ _ => rfl
    rw [hsum, hsum, hsum, ih, e.overlap_split h1 h2]
    omega

theorem held_uncovered (h : ∀ e ∈ items, ¬ e.covers b) : held items b (b + 1) = 0 := by
  induction items with
  | nil => rfl
  | cons e items ih =>
    have hsum : held (e :: items) b (b + 1) = e.overlap b (b + 1) + held items b (b + 1) := rfl
    have hc := h e List.mem_cons_self
    rw [hsum, ih fun c hc => h c (List.mem_cons_of_mem _ hc), Extent.overlap]
    omega

/-- Extents whose parts add up to a whole range cover all of it. -/
theorem covered_of_held (ho : Ordered items) (hfull : hi - lo ≤ held items lo hi) (hb : lo ≤ b) (hb' : b < hi) :
    ∃ e ∈ items, e.covers b := by
  by_contra hnone
  have hzero : held items b (b + 1) = 0 := held_uncovered fun e he hc => hnone ⟨e, he, hc⟩
  have h1 : held items lo hi = held items lo b + held items b hi := held_split items hb (by omega)
  have h2 : held items b hi = held items b (b + 1) + held items (b + 1) hi := held_split items (by omega) (by omega)
  have h3 := held_le lo b ho
  have h4 := held_le (b + 1) hi ho
  omega

theorem lay_pages (wanted : Option (List Bool)) (hsize : 0 < size) (hlen : offset + dst.length = stop)
    (hov : max e.start offset < min e.stop stop) (pages : List Nat)
    (hpages : ∀ page ∈ pages, max e.start offset < (page + 1) * size ∧ page * size < min e.stop stop) :
    let r := pages.foldl (fun dst page =>
      if wants wanted (page - offset / size) then
        splice dst (max (max e.start offset) (page * size) - offset)
          (e.window (max (max e.start offset) (page * size)) (min (min e.stop stop) ((page + 1) * size)))
      else dst) dst
    r.length = dst.length ∧ ∀ b, offset ≤ b → b < stop → r[b - offset]? =
      if b / size ∈ pages ∧ e.covers b ∧ wants wanted (b / size - offset / size) then some (e.byte b)
      else dst[b - offset]? := by
  induction pages generalizing dst with
  | nil =>
    refine ⟨rfl, fun b _ _ => ?_⟩
    rw [if_neg (fun h => List.not_mem_nil h.1)]
    rfl
  | cons page pages ih =>
    obtain ⟨hfirst, hlast⟩ := hpages page List.mem_cons_self
    have hpages' := fun q hq => hpages q (List.mem_cons_of_mem _ hq)
    rw [List.foldl_cons]
    by_cases hw : wants wanted (page - offset / size)
    · rw [if_pos hw]
      have hsm : (page + 1) * size = page * size + size := Nat.succ_mul page size
      obtain ⟨hl, hat⟩ := lay_spec e dst stop (max (max e.start offset) (page * size))
        (min (min e.stop stop) ((page + 1) * size)) hlen (by omega) (by omega) (by omega) (by omega) (by omega)
      obtain ⟨hl', hat'⟩ := ih (by rw [hl]; exact hlen) hpages'
      refine ⟨by rw [hl', hl], fun b hb hbs => ?_⟩
      rw [hat' b hb hbs, hat b hb]
      by_cases hpage : b / size = page
      · obtain ⟨hlo, hhi⟩ := (page_iff hsize).mpr hpage
        by_cases hc : e.covers b
        · have hin : max (max e.start offset) (page * size) ≤ b ∧
              b < min (min e.stop stop) ((page + 1) * size) := by omega
          rw [if_pos hin, ite_self, hpage, if_pos ⟨List.mem_cons_self, hc, hw⟩]
        · rw [if_neg (fun h => hc h.2.1), if_neg (by omega), if_neg (fun h => hc h.2.1)]
      · have hout : ¬ (max (max e.start offset) (page * size) ≤ b ∧
            b < min (min e.stop stop) ((page + 1) * size)) := fun h => hpage ((page_iff hsize).mp (by omega))
        simp only [if_neg hout, List.mem_cons, hpage, false_or]
    · rw [if_neg hw]
      obtain ⟨hl', hat'⟩ := ih hlen hpages'
      refine ⟨hl', fun b hb hbs => ?_⟩
      rw [hat' b hb hbs]
      by_cases hpage : b / size = page
      · rw [hpage, if_neg (fun h => hw h.2.2), if_neg (fun h => hw h.2.2)]
      · simp only [List.mem_cons, hpage, false_or]

theorem lay_item (wanted : Option (List Bool)) (hsize : 0 < size) (hlen : offset + dst.length = stop) (hov : max e.start offset < min e.stop stop) :
    let r := (pieces size offset stop e).foldl (fun dst p =>
      if wants wanted (p.1 - offset / size) then splice dst (p.2.1 - offset) (e.window p.2.1 p.2.2) else dst) dst
    r.length = dst.length ∧ ∀ b, offset ≤ b → b < stop → r[b - offset]? =
      if e.covers b ∧ wants wanted (b / size - offset / size) then some (e.byte b) else dst[b - offset]? := by
  dsimp only [pieces]
  rw [List.foldl_map]
  obtain ⟨hl, hat⟩ := lay_pages wanted hsize hlen hov _ fun page hp => (mem_touched hsize hov).mp hp
  refine ⟨hl, fun b hb hbs => ?_⟩
  rw [hat b hb hbs]
  by_cases hc : e.covers b
  · have hin : b / size ∈ List.range' (max e.start offset / size)
        ((min e.stop stop - 1) / size + 1 - max e.start offset / size) := by
      obtain ⟨hlo, hhi⟩ := (page_iff (b := b) hsize).mpr rfl
      exact (mem_touched hsize hov).mpr ⟨by omega, by omega⟩
    simp only [hin, true_and]
  · rw [if_neg (fun h => hc h.2.1), if_neg (fun h => hc h.1)]

theorem layItems_spec (wanted : Option (List Bool)) (hsize : 0 < size) (hlen : offset + dst.length = stop) (ho : Ordered items)
    (hin : ∀ e ∈ items, e.start < stop ∧ offset < e.stop) (hrange : offset < stop) :
    (layItems size offset stop wanted items dst).length = dst.length ∧ ∀ b, offset ≤ b → b < stop →
      (layItems size offset stop wanted items dst)[b - offset]? =
        if wants wanted (b / size - offset / size) then ((contentOf items b).map (·.1)).or dst[b - offset]?
        else dst[b - offset]? := by
  induction items generalizing dst with
  | nil => exact ⟨rfl, fun b _ _ => by rw [contentOf_nil, map_none, none_or, ite_self]; rfl⟩
  | cons e items ih =>
    obtain ⟨hrest, hordered⟩ := List.pairwise_cons.mp ho
    have he := hin e List.mem_cons_self
    have hne := e.nonempty
    obtain ⟨hl, hat⟩ := lay_item (e := e) wanted hsize hlen (by omega)
    rw [layItems, List.foldl_cons]
    obtain ⟨hl', hat'⟩ := ih (by rw [hl]; exact hlen) hordered fun c hc => hin c (List.mem_cons_of_mem _ hc)
    refine ⟨by rw [← hl]; exact hl', fun b hb hbs => ?_⟩
    refine (hat' b hb hbs).trans ?_
    rw [hat b hb hbs, contentOf_cons]
    by_cases hw : wants wanted (b / size - offset / size)
    · by_cases hc : e.covers b
      · have hnone : contentOf items b = none := contentOf_none (ho.not_covers hc)
        rw [if_pos hw, if_pos hw, if_pos ⟨hc, hw⟩, if_pos hc, hnone]
        rfl
      · rw [if_pos hw, if_pos hw, if_neg (fun h => hc h.1), if_neg hc]
    · rw [if_neg hw, if_neg hw, if_neg (fun h => hw h.2)]

/-- Adding to the counters of distinct pages adds to each of them once. -/
theorem foldl_modify (f : Nat → Nat) {pages : List Nat} (hnd : pages.Nodup)
    (hfirst : ∀ page ∈ pages, first ≤ page) (acc : List Nat) (i : Nat) :
    (pages.foldl (fun acc page => acc.modify (page - first) (· + f page)) acc)[i]? =
      acc[i]?.map fun n => if first + i ∈ pages then n + f (first + i) else n := by
  induction pages generalizing acc with
  | nil => simp
  | cons page pages ih =>
    obtain ⟨hnot, hnd⟩ := List.nodup_cons.mp hnd
    have hle := hfirst page List.mem_cons_self
    rw [List.foldl_cons, ih hnd fun q hq => hfirst q (List.mem_cons_of_mem _ hq), List.getElem?_modify,
      map_eq_map, map_map]
    congr 1
    funext n
    by_cases hpage : page - first = i
    · have heq : first + i = page := by omega
      simp [hpage, heq, hnot]
    · have hne : ¬ first + i = page := by omega
      simp [hpage, hne]

theorem piece_eq (page : Nat) : min (min e.stop stop) ((page + 1) * size) - max (max e.start offset) (page * size) =
    e.overlap (max offset (page * size)) (min stop ((page + 1) * size)) := by
  rw [Extent.overlap, Nat.min_assoc, Nat.max_assoc]

theorem held_item (hsize : 0 < size) (hov : max e.start offset < min e.stop stop) (acc : List Nat) (i : Nat) :
    ((pieces size offset stop e).foldl
      (fun acc p => acc.modify (p.1 - offset / size) (· + (p.2.2 - p.2.1))) acc)[i]? =
      acc[i]?.map (· + e.overlap (max offset ((offset / size + i) * size))
        (min stop ((offset / size + i + 1) * size))) := by
  dsimp only [pieces]
  rw [List.foldl_map]
  have hfirst : ∀ page ∈ List.range' (max e.start offset / size)
      ((min e.stop stop - 1) / size + 1 - max e.start offset / size), offset / size ≤ page := fun page hp =>
    Nat.le_trans (Nat.div_le_div_right (Nat.le_max_right ..)) (List.mem_range'_1.mp hp).1
  rw [foldl_modify (fun page => min (min e.stop stop) ((page + 1) * size) -
    max (max e.start offset) (page * size)) List.nodup_range' hfirst]
  congr 1
  funext n
  rw [piece_eq]
  by_cases hin : offset / size + i ∈ List.range' (max e.start offset / size)
      ((min e.stop stop - 1) / size + 1 - max e.start offset / size)
  · rw [if_pos hin]
  · have hz : e.overlap (max offset ((offset / size + i) * size)) (min stop ((offset / size + i + 1) * size)) = 0 := by
      rw [mem_touched hsize hov] at hin
      rw [← piece_eq]
      omega
    rw [if_neg hin, hz, Nat.add_zero]

theorem heldBytes_spec (hsize : 0 < size) (hin : ∀ e ∈ items, e.start < stop ∧ offset < e.stop)
    (hrange : offset < stop) (i : Nat) (hi : i ≤ (stop - 1) / size - offset / size) :
    (heldBytes size offset stop items)[i]? = some (held items (max offset ((offset / size + i) * size))
      (min stop ((offset / size + i + 1) * size))) := by
  have hfold : ∀ acc : List Nat, (items.foldl (fun acc item => (pieces size offset stop item).foldl
      (fun acc p => acc.modify (p.1 - offset / size) (· + (p.2.2 - p.2.1))) acc) acc)[i]? =
      acc[i]?.map (· + held items (max offset ((offset / size + i) * size))
        (min stop ((offset / size + i + 1) * size))) := by
    induction items with
    | nil =>
      intro acc
      simp [held]
    | cons e items ih =>
      intro acc
      have he := hin e List.mem_cons_self
      have hne := e.nonempty
      rw [List.foldl_cons, ih (fun c hc => hin c (List.mem_cons_of_mem _ hc)), held_item hsize (by omega),
        map_map]
      congr 1
      funext n
      simp only [Function.comp_apply, held, List.map_cons, List.sum_cons]
      omega
  rw [heldBytes, hfold, List.getElem?_replicate, if_pos (by omega), map_some, Nat.zero_add]

end Pages

section Reads

variable {base : Inherited} {cancelled : Bool} {t : ExtentIndex} {size offset stop b : Nat} {dst r : Bytes}
  {wanted : Option (List Bool)}

theorem mem_between (h : t.Valid) {e : Extent} (he : e ∈ t.between offset stop) : e.start < stop ∧ offset < e.stop := by
  rw [h.between] at he
  split at he
  · exact of_decide_eq_true (List.mem_filter.mp he).2
  · cases he

theorem ordered_between (h : t.Valid) : Ordered (t.between offset stop) := by
  rw [h.between]
  split
  · exact h.ordered.filter _
  · exact .nil

theorem contentOf_between (h : t.Valid) (hlo : offset ≤ b) (hhi : b < stop) :
    contentOf (t.between offset stop) b = contentOf t.toList b := by
  rw [h.between, if_pos (by omega), contentOf, contentOf, List.find?_filter]
  congr 2
  funext e
  by_cases hc : e.covers b
  · have hov : e.start < stop ∧ offset < e.stop := by omega
    simp [hov, hc.1, hc.2]
  · simp [decide_eq_false hc]

theorem readOverlay_eq (h : t.Valid) (hr : readOverlay base cancelled t offset dst = some r) :
    r = (List.range' offset dst.length).map (overlaid base (contentOf t.toList)) := by
  have hin : ∀ e ∈ t.between offset (offset + dst.length), offset ≤ max e.start offset ∧
      e.start < offset + dst.length ∧ offset < e.stop := fun e he => ⟨Nat.le_max_right .., mem_between h he⟩
  obtain ⟨hl, hat⟩ := readItems_spec (ordered_between h) hin (Nat.le_refl _) (Nat.le_add_right ..) rfl hr
  refine List.ext_getElem? fun i => ?_
  by_cases hi : i < dst.length
  · have hbyte := hat (offset + i) (by omega) (by omega)
    rw [Nat.add_sub_cancel_left, if_neg (by omega), overlaid, contentOf_between h (by omega) (by omega)] at hbyte
    rw [hbyte, List.getElem?_map, List.getElem?_range' hi, Nat.one_mul]
    rfl
  · rw [List.getElem?_eq_none (by omega), List.getElem?_eq_none (by simp; omega)]

theorem readItems_isSome (hbase : ∀ o n, base.reads o n = true) (items : List Extent) (cursor : Nat) (dst : Bytes) :
    (readItems base false offset stop items cursor dst).isSome := by
  have hgap : ∀ c s d, (fillGap base offset c s d).isSome := by
    intro c s d
    rw [fillGap, Inherited.read, if_pos (hbase _ _)]
    split <;> rfl
  induction items generalizing cursor dst with
  | nil =>
    rw [readItems]
    split
    · exact hgap ..
    · rfl
  | cons e items ih =>
    rw [readItems, isSome_bind]
    obtain ⟨d, hd⟩ := isSome_iff_exists.mp (hgap cursor (max e.start offset) dst)
    rw [hd]
    exact ih _ _

theorem readOverlay_isSome (hbase : ∀ o n, base.reads o n = true) (t : ExtentIndex) (offset : Nat) (dst : Bytes) :
    (readOverlay base false t offset dst).isSome := readItems_isSome hbase _ _ _

theorem readOverlayPages_isSome (hbase : ∀ o n m, base.readsPages o n m = true) (t : ExtentIndex)
    (size offset : Nat) (dst : Bytes) (wanted : Option (List Bool)) :
    (readOverlayPages base false t size offset dst wanted).isSome := by
  rw [readOverlayPages]
  split
  · rfl
  · simp only [Inherited.readPages, hbase, if_true]
    split <;> rfl

/-- What the source fills: the marked pages. -/
theorem filled_spec {marked : List Bool}
    (h : (if marked.any id then base.readPages size offset dst marked else some dst) = some r) :
    r.length = dst.length ∧ ∀ i, r[i]? =
      if marked.getD ((offset + i) / size - offset / size) false then dst[i]?.map fun _ => base.bytes (offset + i)
      else dst[i]? := by
  by_cases hany : marked.any id
  · rw [if_pos hany, Inherited.readPages] at h
    obtain ⟨_, h⟩ := ite_none_right_eq_some.mp h
    cases h
    refine ⟨List.length_mapIdx, fun i => ?_⟩
    rw [List.getElem?_mapIdx]
    split
    · rfl
    · exact map_id'
  · rw [if_neg hany] at h
    cases h
    refine ⟨rfl, fun i => ?_⟩
    have hnone : marked.getD ((offset + i) / size - offset / size) false = false := by
      rw [List.getD_eq_getElem?_getD]
      cases hm : marked[(offset + i) / size - offset / size]? with
      | none => rfl
      | some m =>
        have hmem := List.mem_of_getElem? hm
        cases m with
        | false => rfl
        | true => exact absurd (List.any_eq_true.mpr ⟨true, hmem, rfl⟩) hany
    rw [hnone, if_neg Bool.false_ne_true]

theorem inheritedPages_spec (hsize : 0 < size) (h : t.Valid) (hb : offset ≤ b) (hbs : b < stop)
    (hw : wants wanted (b / size - offset / size)) (hnone : contentOf t.toList b = none) :
    (inheritedPages size offset stop wanted (heldBytes size offset stop (t.between offset stop))).getD
      (b / size - offset / size) false = true := by
  have hle : offset / size ≤ b / size := Nat.div_le_div_right hb
  have hpage : offset / size + (b / size - offset / size) = b / size := by omega
  have hlast : b / size - offset / size ≤ (stop - 1) / size - offset / size :=
    Nat.sub_le_sub_right (Nat.div_le_div_right (by omega)) _
  have hheld := heldBytes_spec hsize (fun e he => mem_between h he) (by omega) _ hlast
  rw [hpage] at hheld
  rw [inheritedPages, List.getD_eq_getElem?_getD, List.getElem?_mapIdx, hheld]
  simp only [map_some, getD_some, hpage, hw, Bool.true_and, decide_eq_true_eq]
  -- A page held whole would hold the byte.
  by_contra hfull
  obtain ⟨hlo, hhi⟩ := (page_iff (b := b) hsize).mpr rfl
  obtain ⟨e, he, hc⟩ := covered_of_held (b := b) (ordered_between h) (Nat.le_of_not_lt hfull) (by omega) (by omega)
  have hcontent := contentOf_between h hb hbs
  rw [hnone, contentOf, map_eq_none_iff, List.find?_eq_none] at hcontent
  exact hcontent e he (decide_eq_true hc)

theorem inheritedPages_wants {held : List Nat} {i : Nat}
    (h : (inheritedPages size offset stop wanted held).getD i false = true) : wants wanted i := by
  rw [inheritedPages, List.getD_eq_getElem?_getD, List.getElem?_mapIdx] at h
  cases hi : held[i]? with
  | none =>
    rw [hi] at h
    cases h
  | some n =>
    rw [hi] at h
    exact (Bool.and_eq_true_iff.mp h).1

theorem readOverlayPages_spec (hsize : 0 < size) (h : t.Valid)
    (hr : readOverlayPages base cancelled t size offset dst wanted = some r) :
    r.length = dst.length ∧ ∀ i, i < dst.length → r[i]? =
      if wants wanted ((offset + i) / size - offset / size) then
        some (overlaid base (contentOf t.toList) (offset + i)) else dst[i]? := by
  rw [readOverlayPages] at hr
  by_cases hempty : offset + dst.length = offset
  · rw [if_pos hempty] at hr
    obtain ⟨_, hr⟩ := ite_none_left_eq_some.mp hr
    cases hr
    exact ⟨rfl, fun i hi => by omega⟩
  · rw [if_neg hempty] at hr
    obtain ⟨filled, hfilled, hr⟩ := bind_eq_some_iff.mp hr
    obtain ⟨_, hr⟩ := ite_none_left_eq_some.mp hr
    cases hr
    obtain ⟨hl, hat⟩ := filled_spec hfilled
    obtain ⟨hl', hat'⟩ := layItems_spec wanted hsize (by rw [hl]) (ordered_between h)
      (fun e he => mem_between h he) (by omega)
    refine ⟨hl'.trans hl, fun i hi => ?_⟩
    have hbyte := hat' (offset + i) (by omega) (by omega)
    rw [Nat.add_sub_cancel_left, contentOf_between h (by omega) (by omega)] at hbyte
    rw [hbyte, hat i]
    by_cases hw : wants wanted ((offset + i) / size - offset / size)
    · rw [if_pos hw, if_pos hw]
      cases hc : contentOf t.toList (offset + i) with
      | some x => rw [overlaid, hc, map_some, some_or, getD_some]
      | none =>
        rw [if_pos (inheritedPages_spec hsize h (by omega) (by omega) hw hc), overlaid_none hc,
          List.getElem?_eq_getElem hi]
        rfl
    · rw [if_neg hw, if_neg hw, if_neg fun hm => hw (inheritedPages_wants hm)]

end Reads

end Sproutfs.Volume

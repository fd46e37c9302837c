import Sproutfs.Checkpoint.Locate

/-!
# A checkpoint locates each page by itself

The extents the index gives for a range tile it, under the identity that each page has in the table of its
segment: the walks append what the pages give when each is looked up by itself (`scan`).
-/

namespace Sproutfs.Checkpoint

open List Option ByteCodec Walk

namespace ByteSpan

variable {s : ByteSpan} {p q b : Nat}

/-- Where a page begins, within the span. -/
def edge (s : ByteSpan) (page : Nat) : Nat := max s.lo (min s.hi (page * s.pageSize))

abbrev Meets (s : ByteSpan) (page : Nat) : Prop := s.lo < (page + 1) * s.pageSize ∧ page * s.pageSize < s.hi

theorem start_eq (h : s.Meets p) : s.start p = s.edge p := by
  rw [start, edge, Nat.min_eq_right (Nat.le_of_lt h.2)]

theorem stop_eq (hlt : s.lo < s.hi) (h : s.Meets p) : s.stop p = s.edge (p + 1) := by
  rw [stop, edge]
  omega

theorem edge_lt (hlt : s.lo < s.hi) (hpq : p < q) (hp : s.Meets p) (hq : s.Meets (q - 1)) : s.edge p < s.edge q := by
  have hle : (p + 1) * s.pageSize ≤ q * s.pageSize := Nat.mul_le_mul_right _ hpq
  have hq1 := hq.1
  rw [show q - 1 + 1 = q by omega] at hq1
  rw [edge, edge]
  have hsucc : (p + 1) * s.pageSize = p * s.pageSize + s.pageSize := Nat.succ_mul ..
  obtain ⟨h1, h2⟩ := hp
  have hpos : 0 < s.pageSize := by
    rcases Nat.eq_zero_or_pos s.pageSize with h0 | h0
    · rw [h0] at h1
      omega
    · exact h0
  omega

/-- The bytes between two edges are those of the pages between. -/
theorem page_of_edge (hpos : 0 < s.pageSize) (hp : s.edge p ≤ b) (hq : b < s.edge q) (hhi : s.lo < s.hi) :
    p ≤ b / s.pageSize ∧ b / s.pageSize < q := by
  rw [edge] at hp hq
  refine ⟨(Nat.le_div_iff_mul_le hpos).mpr (by omega), (Nat.div_lt_iff_lt_mul hpos).mpr (by omega)⟩

theorem meets_of_div (hpos : 0 < s.pageSize) (hlt : s.lo < s.hi) (h1 : s.lo / s.pageSize ≤ p)
    (h2 : p ≤ (s.hi - 1) / s.pageSize) : s.Meets p := by
  have hlo := (Nat.div_lt_iff_lt_mul hpos).mp (Nat.lt_succ_of_le h1)
  have hhi := (Nat.le_div_iff_mul_le hpos).mp h2
  exact ⟨hlo, by omega⟩

theorem edge_first (hlt : s.lo < s.hi) : s.edge (s.lo / s.pageSize) = s.lo := by
  have := Nat.div_mul_le_self s.lo s.pageSize
  rw [edge]
  omega

theorem edge_last (hpos : 0 < s.pageSize) (hlt : s.lo < s.hi) : s.edge ((s.hi - 1) / s.pageSize + 1) = s.hi := by
  have := (Nat.div_lt_iff_lt_mul hpos).mp (Nat.lt_succ_self ((s.hi - 1) / s.pageSize))
  rw [edge, Nat.succ_eq_add_one] at *
  omega

end ByteSpan

section Scan

variable {s : ByteSpan} (ident : Nat → Identity) {look : Nat → Option Identity} {xs ys : List Located}
  {first stop n : Nat}

theorem tiles_page (hpos : 0 < s.pageSize) (hlt : s.lo < s.hi) (hm : s.Meets first) :
    Tiles (fun b => ident (b / s.pageSize)) (s.edge first) (s.edge (first + 1))
      [⟨(s.of first).1, (s.of first).2, ident first⟩] := by
  have hlt' := ByteSpan.edge_lt hlt (Nat.lt_add_one first) hm hm
  rw [ByteSpan.of, ByteSpan.start_eq hm, ByteSpan.stop_eq hlt hm]
  have hsum : s.edge first + (s.edge (first + 1) - s.edge first) = s.edge (first + 1) := by omega
  have hone := Tiles.one (f := fun b => ident (b / s.pageSize)) (p := s.edge first)
    (n := s.edge (first + 1) - s.edge first) (a := ident first) (by omega) fun b h1 h2 => by
      have := ByteSpan.page_of_edge hpos h1 (hsum ▸ h2) hlt
      rw [show b / s.pageSize = first by omega]
  rwa [hsum] at hone

/-- The extents with that of one more page: zeroes merge with those before them. -/
def extend (s : ByteSpan) (xs : List Located) (page : Nat) (identity : Identity) : List Located :=
  let piece : Located := ⟨(s.of page).1, (s.of page).2, identity⟩
  if identity = .zero then push xs piece else xs ++ [piece]

/-- The extents with those of `n` pages, each looked up by itself. -/
def scan (s : ByteSpan) (look : Nat → Option Identity) (xs : List Located) (first n : Nat) :
    Option (List Located) :=
  (List.range' first n).foldlM (fun ys page => (look page).map (extend s ys page)) xs

theorem scan_add (m : Nat) : scan s look xs first (n + m) =
    (scan s look xs first n).bind fun ys => scan s look ys (first + n) m := by
  rw [scan, ← List.range'_append_1, foldlM_append]
  rfl

theorem scan_succ : scan s look xs first (n + 1) =
    (scan s look xs first n).bind fun ys => (look (first + n)).map (extend s ys (first + n)) := by
  rw [scan_add]
  simp [scan]

theorem scan_isSome : (scan s look xs first n).isSome ↔ ∀ p, first ≤ p → p < first + n → (look p).isSome := by
  induction n with
  | zero => exact ⟨fun _ p h1 h2 => absurd h2 (by omega), fun _ => rfl⟩
  | succ n ih =>
    rw [scan_succ]
    constructor
    · intro h p h1 h2
      obtain ⟨ys, hys⟩ := isSome_iff_exists.mp h
      obtain ⟨zs, hzs, hlook⟩ := bind_eq_some_iff.mp hys
      rcases Nat.lt_or_ge p (first + n) with hp | hp
      · exact ih.mp (by rw [hzs]; rfl) p h1 hp
      · rw [show p = first + n by omega, ← isSome_map, hlook]
        rfl
    · intro h
      obtain ⟨zs, hzs⟩ := isSome_iff_exists.mp (ih.mpr fun p h1 h2 => h p h1 (by omega))
      rw [hzs, bind_some, isSome_map]
      exact h _ (by omega) (by omega)

/-- What the pages give tiles the range up to the page after them. -/
theorem scan_tiles (hpos : 0 < s.pageSize) (hlt : s.lo < s.hi)
    (hm : ∀ p, first ≤ p → p < first + n → s.Meets p)
    (hident : ∀ p, first ≤ p → p < first + n → ∀ a, look p = some a → ident p = a)
    (h : Tiles (fun b => ident (b / s.pageSize)) s.lo (s.edge first) xs)
    (hs : scan s look xs first n = some ys) :
    Tiles (fun b => ident (b / s.pageSize)) s.lo (s.edge (first + n)) ys := by
  induction n generalizing ys with
  | zero =>
    cases hs
    exact h
  | succ n ih =>
    rw [scan_succ] at hs
    obtain ⟨zs, hzs, hs⟩ := bind_eq_some_iff.mp hs
    obtain ⟨a, ha, rfl⟩ := map_eq_some_iff.mp hs
    have htiles := ih (fun p h1 h2 => hm p h1 (by omega)) (fun p h1 h2 => hident p h1 (by omega)) hzs
    have hpage := tiles_page ident hpos hlt (hm (first + n) (by omega) (by omega))
    rw [hident _ (by omega) (by omega) a ha] at hpage
    unfold extend
    split
    next => exact htiles.push hpage
    next => exact htiles.append hpage

theorem push_push {α : Type*} [DecidableEq α] (xs : List (Walk.Run α)) (o n m : Nat) (a : α) :
    push (push xs ⟨o, n, a⟩) ⟨o + n, m, a⟩ = push xs ⟨o, n + m, a⟩ := by
  rcases eq_nil_or_concat xs with rfl | ⟨ys, last, rfl⟩
  · simp [push]
  · by_cases hl : last.label = a ∧ last.offset + last.length = o
    · have ho : last.offset + (last.length + n) = o + n := by omega
      simp [push, hl.1, hl.2, ho, Nat.add_assoc]
    · simp [push, hl]

theorem scan_hole (hm : ∀ p, first ≤ p → p < first + (n + 1) → s.Meets p)
    (hz : ∀ p, first ≤ p → p < first + (n + 1) → look p = some .zero) :
    scan s look xs first (n + 1) = some (PageTable.hole s xs first (first + (n + 1))) := by
  induction n with
  | zero => simp [scan, PageTable.hole, extend, ByteSpan.of, hz first (by omega) (by omega)]
  | succ n ih =>
    rw [scan_succ, ih (fun p h1 h2 => hm p h1 (by omega)) fun p h1 h2 => hz p h1 (by omega), bind_some,
      hz _ (by omega) (by omega), map_some]
    -- the page before ends where this one begins
    obtain ⟨hlo, -⟩ := hm (first + n) (by omega) (by omega)
    obtain ⟨-, hhi⟩ := hm (first + (n + 1)) (by omega) (by omega)
    have hmul := Nat.mul_le_mul_right s.pageSize (Nat.le_add_right first n)
    rw [Nat.add_assoc] at hlo
    have hend : s.stop (first + n) = s.start (first + (n + 1)) := by
      rw [ByteSpan.stop, ByteSpan.start, Nat.add_assoc]
      omega
    have hmul' := Nat.mul_le_mul_right s.pageSize (Nat.add_le_add_left (Nat.le_add_right n 1) first)
    have hlength : s.start (first + (n + 1)) - s.start (first + n) + (s.start (first + n) - s.start first) =
        s.start (first + (n + 1)) - s.start first := by
      simp only [ByteSpan.start]
      omega
    have hnext : s.start first + (s.start (first + (n + 1)) - s.start first) = s.start (first + (n + 1)) := by
      simp only [ByteSpan.start]
      omega
    simp only [PageTable.hole, extend, ByteSpan.of, if_true, Nat.add_succ_sub_one, hend, hlength]
    rw [Nat.add_comm (s.stop (first + (n + 1)) - _), ← push_push, hnext]

/-- The identity of a page of the segment that begins at page `base`. -/
def PageTable.identity (t : PageTable) (volume : Bytes) (base page : Nat) : Identity :=
  t.identityOf volume page (t.entries.getD (page - base) {})

variable {t : PageTable} {volume : Bytes} {base : Nat}

theorem PageTable.holeRun_spec {located : List TableEntry} {k : Nat} (hk : k < located.length)
    (hz : (located.getD k {}).ref = 0) : k < PageTable.holeRun located k ∧
      PageTable.holeRun located k ≤ located.length ∧
      ∀ j, k ≤ j → j < PageTable.holeRun located k → (located.getD j {}).ref = 0 := by
  refine stretch_rule (fun run => k < run ∧ run ≤ located.length ∧
    ∀ j, k ≤ j → j < run → (located.getD j {}).ref = 0) (fun c hc hgo ⟨h1, h2, h3⟩ => ?_) ?_
  · refine ⟨by omega, by omega, fun j hj hj' => ?_⟩
    rcases Nat.lt_or_ge j c with hjc | hjc
    · exact h3 j hj hjc
    · rw [show j = c by omega]
      exact of_decide_eq_true hgo
  · refine ⟨by omega, by omega, fun j hj hj' => ?_⟩
    rw [show j = k by omega]
    exact hz

theorem PageTable.locate_eq (hbase : base ≤ first) (hm : ∀ p, first ≤ p → p < first + n → s.Meets p)
    (hlook : ∀ p, first ≤ p → p < first + n → look p = some (t.identity volume base p)) :
    t.locate xs volume base first (first + n) s = scan s look xs first n := by
  rw [PageTable.locate]
  generalize hlocated : (t.entries.take (first + n - base)).drop (first - base) = located
  have hlen : located.length = min (first + n - base) t.entries.length - (first - base) := by
    rw [← hlocated, length_drop, length_take]
  have hat : ∀ k < located.length, look (first + k) = some (t.identityOf volume (first + k) (located.getD k {})) := by
    intro k hk
    rw [hlook _ (by omega) (by omega), PageTable.identity, getD_eq_getElem?_getD,
      getD_eq_getElem?_getD, ← hlocated, getElem?_drop, getElem?_take, if_pos (by omega),
      show first - base + k = first + k - base by omega]
  -- The walk over the entries: what is appended is what the pages before the next entry's give.
  have hround : ∀ k ys, k < located.length → scan s look xs first k = some ys →
      (∀ next ys', t.entryRound volume s first located k ys = some (next, ys') → k < next ∧ next ≤ located.length ∧
        scan s look xs first next = some ys') ∧ (True → (t.entryRound volume s first located k ys).isSome) := by
    intro k ys hk hinv
    have hsome : located[k]? = some (located.getD k {}) := by
      rw [getD_eq_getElem?_getD, getElem?_eq_getElem hk, getD_some]
    rw [PageTable.entryRound, hsome, map_some]
    refine ⟨fun next ys' hr => ?_, fun _ => rfl⟩
    by_cases hz : (located.getD k {}).ref = 0
    · rw [if_pos hz] at hr
      obtain ⟨h1, h2, h3⟩ := holeRun_spec hk hz
      cases hr
      obtain ⟨m, hm'⟩ := Nat.exists_eq_add_of_lt h1
      refine ⟨h1, h2, ?_⟩
      rw [hm', Nat.add_assoc, scan_add, hinv, bind_some, scan_hole, Nat.add_assoc]
      · exact fun p hp hps => hm p (by omega) (by omega)
      · intro p hp hps
        have hj := h3 (p - first) (by omega) (by omega)
        rw [show p = first + (p - first) by omega, hat _ (by omega), PageTable.identityOf, if_pos hj]
    · rw [if_neg hz] at hr
      cases hr
      refine ⟨by omega, by omega, ?_⟩
      have hne : t.identityOf volume (first + k) (located.getD k {}) ≠ .zero := by
        rw [PageTable.identityOf, if_neg hz]
        exact nofun
      rw [scan_succ, hinv, bind_some, hat k hk, map_some, extend, if_neg hne]
      rfl
  obtain ⟨hkeep, hsome⟩ := walk_rule _ _ _ True hround (Nat.zero_le _) (rfl : scan s look xs first 0 = some xs)
  obtain ⟨ys, hys⟩ := isSome_iff_exists.mp (hsome trivial)
  have hscan := hkeep ys hys
  rw [hys, map_some]
  by_cases hbeyond : first + located.length < first + n
  · obtain ⟨m, rfl⟩ := Nat.exists_eq_add_of_lt (Nat.lt_of_add_lt_add_left hbeyond)
    rw [if_pos hbeyond, Nat.add_assoc, scan_add, hscan, bind_some, scan_hole, Nat.add_assoc]
    · exact fun p hp hps => hm p (by omega) (by omega)
    · intro p hp hps
      rw [hlook p (by omega) (by omega), PageTable.identity, getD_eq_getElem?_getD,
        getElem?_eq_none (by omega)]
      rfl
  · rw [if_neg hbeyond, show n = located.length by omega, hscan]

end Scan

theorem Geometry.pageSize_pos (g : Geometry) : 0 < g.pageSize := by
  rcases mem_cons.mp g.supported with h | h
  · rw [(Prod.mk.inj h).1]
    decide
  · rw [(Prod.mk.inj (mem_singleton.mp h)).1]
    decide

theorem Geometry.segmentPages_pos (g : Geometry) : 0 < g.segmentPages := by
  rcases mem_cons.mp g.supported with h | h
  · rw [(Prod.mk.inj h).2]
    decide
  · rw [(Prod.mk.inj (mem_singleton.mp h)).2]
    decide

theorem Geometry.segment_bounds (g : Geometry) (page : Nat) :
    g.segmentBase (g.segmentOf page) ≤ page ∧ page < g.segmentBase (g.segmentOf page) + g.segmentPages := by
  have hlt := (Nat.div_lt_iff_lt_mul g.segmentPages_pos).mp (Nat.lt_add_one (page / g.segmentPages))
  rw [Nat.add_mul, Nat.one_mul] at hlt
  exact ⟨Nat.div_mul_le_self page g.segmentPages, hlt⟩

theorem Geometry.segmentOf_eq (g : Geometry) {page p : Nat} (h1 : g.segmentBase (g.segmentOf page) ≤ p)
    (h2 : p < g.segmentBase (g.segmentOf page) + g.segmentPages) : g.segmentOf p = g.segmentOf page := by
  refine Nat.div_eq_of_lt_le h1 ?_
  rw [Nat.add_mul, Nat.one_mul]
  exact h2

def Index.identity (i : Index) (fetch : SegmentAddress → Option PageTable) (volume : Bytes) (g : Geometry)
    (page : Nat) : Identity :=
  match i.table fetch volume (g.segmentOf page) with
  | none => .zero
  | some t => t.identity volume (g.segmentBase (g.segmentOf page)) page

/-- The identity of a page, where the table of its segment can be read. -/
def Index.look (i : Index) (fetch : SegmentAddress → Option PageTable) (volume : Bytes) (g : Geometry)
    (page : Nat) : Option Identity :=
  (i.table fetch volume (g.segmentOf page)).map (·.identity volume (g.segmentBase (g.segmentOf page)) page)

section Range

variable {i : Index} {fetch : SegmentAddress → Option PageTable} {volume : Bytes} {table : VolumeTable}
  {offset length : Nat}

/-- The walk over the segments of a range is looking up each page of it. -/
theorem Index.walk_eq (g : Geometry) {s : ByteSpan} (hsize : s.pageSize = g.pageSize) (hlt : s.lo < s.hi) :
    walk (i.segmentRound fetch volume g s ((s.hi - 1) / s.pageSize)) ((s.hi - 1) / s.pageSize + 1)
      (s.lo / s.pageSize) [] =
      scan s (i.look fetch volume g) [] (s.lo / s.pageSize)
        ((s.hi - 1) / s.pageSize + 1 - s.lo / s.pageSize) := by
  have hpos : 0 < s.pageSize := hsize ▸ g.pageSize_pos
  have hle : s.lo / s.pageSize ≤ (s.hi - 1) / s.pageSize := Nat.div_le_div_right (by omega)
  have hmeets : ∀ p, s.lo / s.pageSize ≤ p → p < (s.hi - 1) / s.pageSize + 1 → s.Meets p :=
    fun p h1 h2 => ByteSpan.meets_of_div hpos hlt h1 (by omega)
  generalize s.lo / s.pageSize = first at *
  generalize (s.hi - 1) / s.pageSize = last at *
  have hround : ∀ page ys, page < last + 1 →
      first ≤ page ∧ scan s (i.look fetch volume g) [] first (page - first) = some ys →
      (∀ next ys', i.segmentRound fetch volume g s last page ys = some (next, ys') →
        page < next ∧ next ≤ last + 1 ∧ first ≤ next ∧
          scan s (i.look fetch volume g) [] first (next - first) = some ys') ∧
        ((scan s (i.look fetch volume g) [] first (last + 1 - first)).isSome →
          (i.segmentRound fetch volume g s last page ys).isSome) := by
    rintro page ys hpage ⟨hge, hinv⟩
    obtain ⟨hbase, hin⟩ := g.segment_bounds page
    rw [Index.segmentRound]
    generalize hstop : min (last + 1) (g.segmentBase (g.segmentOf page) + g.segmentPages) = stop
    cases ht : i.table fetch volume (g.segmentOf page) with
    | none =>
      refine ⟨nofun, fun hall => ?_⟩
      have hlook := scan_isSome.mp hall page hge (by omega)
      rw [Index.look, ht] at hlook
      cases hlook
    | some t =>
      obtain ⟨n, rfl⟩ := Nat.exists_eq_add_of_le (show page ≤ stop by omega)
      have hlook : ∀ p, page ≤ p → p < page + n → i.look fetch volume g p =
          some (t.identity volume (g.segmentBase (g.segmentOf page)) p) := by
        intro p hp hps
        have hseg : g.segmentOf p = g.segmentOf page := g.segmentOf_eq (by omega) (by omega)
        rw [Index.look, hseg, ht, map_some]
      have hlocate : t.locate ys volume (g.segmentBase (g.segmentOf page)) page (page + n) s = _ :=
        PageTable.locate_eq hbase (fun p hp hps => hmeets p (by omega) (by omega)) hlook
      have hsome : (scan s (i.look fetch volume g) ys page n).isSome :=
        scan_isSome.mpr fun p hp hps => by rw [hlook p hp hps, isSome_some]
      obtain ⟨zs, hzs⟩ := isSome_iff_exists.mp hsome
      rw [bind_some, hlocate, hzs]
      refine ⟨fun next ys' h => ?_, fun _ => rfl⟩
      cases h
      refine ⟨by omega, by omega, by omega, ?_⟩
      rw [show page + n - first = page - first + n by omega, scan_add, hinv, bind_some,
        show first + (page - first) = page by omega, hzs]
  obtain ⟨hkeep, hsome⟩ := walk_rule _ _ (fun page ys => first ≤ page ∧ scan s _ [] first (page - first) = some ys) _
    hround (Nat.le_succ_of_le hle) ⟨Nat.le_refl _, by rw [Nat.sub_self]; rfl⟩
  -- the walk gives what the scan gives, and gives something where the scan does
  cases hw : walk (i.segmentRound fetch volume g s last) (last + 1) first [] with
  | some ys => exact (hkeep ys hw).2.symm
  | none =>
    rw [hw] at hsome
    exact (not_isSome_iff_eq_none.mp fun h => by cases hsome h).symm

/-- A range of a published volume is tiled by its pages' identities; it is located where every segment can
be read. -/
theorem Index.locateRange_tiles (hv : i.volumes.lookup volume = some table) (hr : offset + length ≤ table.size) :
    (∀ xs, i.locateRange fetch volume offset length = some xs →
      Tiles (fun b => i.identity fetch volume table.geometry (b / table.geometry.pageSize)) offset (offset + length) xs) ∧
    ((∀ n, (i.table fetch volume n).isSome) → (i.locateRange fetch volume offset length).isSome) := by
  have hrange : ¬ (table.size < offset ∨ table.size - offset < length) := by omega
  rw [Index.locateRange, hv, bind_some, if_neg hrange]
  by_cases hz : length = 0
  · rw [if_pos hz, hz]
    refine ⟨fun xs h => ?_, fun _ => rfl⟩
    cases h
    exact .nil _
  · rw [if_neg hz]
    generalize table.geometry = g
    have hlt : offset < offset + length := by omega
    have hle : offset / g.pageSize ≤ (offset + length - 1) / g.pageSize := Nat.div_le_div_right (by omega)
    have heq := @Index.walk_eq i fetch volume g ⟨offset, offset + length, g.pageSize⟩ rfl hlt
    simp only [Geometry.pageOf]
    rw [heq]
    refine ⟨fun xs h => ?_, fun hall => scan_isSome.mpr fun p _ _ => ?_⟩
    · have htiles := scan_tiles (i.identity fetch volume g) g.pageSize_pos hlt
        (fun p h1 h2 => ByteSpan.meets_of_div g.pageSize_pos hlt h1 (by dsimp only at h2 ⊢; omega))
        (fun p _ _ a ha => ?_) (by rw [ByteSpan.edge_first hlt]; exact .nil _) h
      · rw [show offset / g.pageSize + ((offset + length - 1) / g.pageSize + 1 - offset / g.pageSize) =
          (offset + length - 1) / g.pageSize + 1 by omega, ByteSpan.edge_last g.pageSize_pos hlt] at htiles
        exact htiles
      · obtain ⟨t, ht, rfl⟩ := map_eq_some_iff.mp ha
        rw [Index.identity, ht]
    · rw [Index.look, isSome_map]
      exact hall _

end Range

end Sproutfs.Checkpoint

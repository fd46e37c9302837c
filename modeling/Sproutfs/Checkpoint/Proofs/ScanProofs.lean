import Sproutfs.Checkpoint.Proofs.LocateProofs
import Sproutfs.Checkpoint.Proofs.PageTableProofs

/-!
# The extents of a range

Locating a range gives what its pages give when each is looked up alone (`locateAlone`). No two
neighbouring extents have one identity, so the zeroes are merged wherever they meet, and the capacity
asked for before a table is read (`extentsIn`) is enough.
-/

namespace Sproutfs.Checkpoint

open Option ByteCodec Walk

/-- The identity of a page, by where it lives. -/
def identityAt (volume : Bytes) (page : Nat) : Option Location → Identity
  | none => .zero
  | some l => .page l.origin volume page

/-- The extents of a range, by looking up each of its pages alone. -/
def Index.locateAlone (i : Index) (fetch : SegmentAddress → Option PageTable) (volume : Bytes)
    (offset length : Nat) : Option (List Located) :=
  (i.volumes.lookup volume).bind fun table =>
    if table.size < offset ∨ table.size - offset < length then none
    else if length = 0 then some []
    else
      let g := table.geometry
      let first := g.pageOf offset
      scan { lo := offset, hi := offset + length, pageSize := g.pageSize }
        (fun page => (i.pageAt fetch volume g page).map (identityAt volume page)) [] first
        (g.pageOf (offset + length - 1) + 1 - first)

/-! ## Pages alone -/

theorem identityOf_eq {data : Bytes} {t : PageTable} (ht : parsePageTable data = some t) (volume : Bytes)
    (page n : Nat) : t.identityOf volume page (t.entries.getD n {}) = identityAt volume page (t.locationAt n) := by
  obtain ⟨m, es, parts, -, -, -, -, -, hparts, rfl⟩ := parsePageTable_eq_some.mp ht
  have hnames := (countParts_spec _ es (List.length_replicate ..)).1.mp ⟨parts, hparts⟩
  rw [List.getD_eq_getElem?_getD, PageTable.locationAt]
  cases he : es[n]? with
  | none => rfl
  | some e =>
    rw [getD_some, bind_some, PageTable.identityOf, PageTable.location]
    by_cases hz : e.ref = 0
    · rw [if_pos hz, if_pos hz]
      rfl
    · obtain ⟨href, horigin⟩ := (hnames e (List.mem_of_getElem? he)).resolve_left hz
      rw [if_neg hz, if_neg hz, List.getD_eq_getElem?_getD, List.getElem?_eq_getElem href, getD_some,
        bind_some, PageTable.originOf]
      by_cases ho : e.origin = 0
      · rw [if_pos ho]
        rfl
      · rw [if_neg ho, List.getElem?_eq_getElem (horigin.resolve_left ho)]
        rfl

/-- The tables of a checkpoint, as they are parsed off what is read. -/
def fetchParsed (read : SegmentAddress → Option Bytes) (a : SegmentAddress) : Option PageTable :=
  (read a).bind parsePageTable

section Range

variable {i : Index} {read : SegmentAddress → Option Bytes} {volume : Bytes} {g : Geometry}

theorem Index.look_eq (page : Nat) : i.look (fetchParsed read) volume g page =
    (i.pageAt (fetchParsed read) volume g page).map (identityAt volume page) := by
  rw [Index.look, Index.pageAt, map_map]
  cases ht : i.table (fetchParsed read) volume (g.segmentOf page) with
  | none => rfl
  | some t =>
    have hoff : page - g.segmentBase (g.segmentOf page) = page % g.segmentPages := by
      have hdiv := Nat.div_add_mod' page g.segmentPages
      rw [Geometry.segmentBase, Geometry.segmentOf]
      omega
    rw [map_some, map_some, Function.comp_apply, PageTable.identity, hoff]
    obtain ⟨table, -, ht⟩ := bind_eq_some_iff.mp ht
    split at ht
    · -- a segment the root does not address
      cases ht
      rfl
    · obtain ⟨data, -, hparse⟩ := bind_eq_some_iff.mp (filter_eq_some_iff.mp ht).1
      rw [identityOf_eq hparse]

theorem Index.locateRange_eq (offset length : Nat) :
    i.locateRange (fetchParsed read) volume offset length =
      i.locateAlone (fetchParsed read) volume offset length := by
  rw [Index.locateRange, Index.locateAlone]
  refine bind_congr fun table _ => if_congr Iff.rfl rfl ?_
  split
  next => rfl
  next hz =>
    have heq := @Index.walk_eq i (fetchParsed read) volume table.geometry
      ⟨offset, offset + length, table.geometry.pageSize⟩ rfl (by dsimp only; omega)
    simp only [Geometry.pageOf]
    rw [heq]
    exact congrArg (scan _ · [] _ _) (funext Index.look_eq)

end Range

/-! ## Neighbours -/

/-- No two neighbouring extents have one identity. -/
def Apart (xs : List Located) : Prop := xs.IsChain fun x y => x.label ≠ y.label

section Apart

variable {s : ByteSpan} {ident : Nat → Identity} {look : Nat → Option Identity} {xs ys : List Located}
  {first n : Nat}

/-- A page's own extent differs from the one before it, and zeroes that meet are merged. -/
theorem extend_apart {volume : Bytes} (hpos : 0 < s.pageSize) (hlt : s.lo < s.hi) (hm : s.Meets first)
    (hident : ∀ p, ident p = .zero ∨ ∃ ref, ident p = .page ref volume p)
    (h : Tiles (fun b => ident (b / s.pageSize)) s.lo (s.edge first) xs)
    (hc : Apart xs) : Apart (extend s xs first (ident first)) := by
  rcases List.eq_nil_or_concat xs with rfl | ⟨zs, last, rfl⟩
  · unfold extend push
    split <;> exact .singleton _
  · rw [List.concat_eq_append] at *
    obtain ⟨mid, hzs, hlast⟩ := h.split
    cases hlast with
    | @cons _ len _ a _ pos label rest =>
      generalize hedge : s.edge first = edge at *
      cases rest
      -- the last extent is of an earlier page, and ends where this one begins
      have hpage : ident (mid / s.pageSize) = a := label mid (Nat.le_refl _) (by omega)
      have hbefore : mid / s.pageSize < first := by
        have hlo : s.edge 0 ≤ mid := by
          have := hzs.le
          rw [ByteSpan.edge]
          omega
        exact (ByteSpan.page_of_edge hpos hlo (by omega) hlt).2
      have hstart : (s.of first).1 = mid + len := (ByteSpan.start_eq hm).trans hedge
      have hne : ident first ≠ .zero → a ≠ ident first := by
        intro hz heq
        rcases hident (mid / s.pageSize) with h0 | ⟨ref, h1⟩
        · exact hz (heq ▸ hpage ▸ h0)
        · rcases hident first with h0 | ⟨ref', h2⟩
          · exact hz h0
          · rw [← hpage, h1, h2] at heq
            cases heq
            omega
      have happend : ∀ y, a ≠ y.label → Apart (zs ++ [⟨mid, len, a⟩] ++ [y]) := fun y hy =>
        List.isChain_append.mpr ⟨hc, .singleton _, by simpa using hy⟩
      unfold extend
      split
      next hz =>
        rw [push, List.getLast?_concat, List.dropLast_concat]
        dsimp only
        split
        next =>
          have hc' := List.isChain_append.mp hc
          exact List.isChain_append.mpr ⟨hc'.1, .singleton _, by simpa using hc'.2.2⟩
        next hmerge => exact happend _ fun ha => hmerge ⟨ha, hstart.symm⟩
      next hz => exact happend _ (hne hz)

/-- What the pages give one after another is apart, where each page has an identity of its own or none. -/
theorem scan_apart {volume : Bytes} (hpos : 0 < s.pageSize) (hlt : s.lo < s.hi)
    (hm : ∀ p, first ≤ p → p < first + n → s.Meets p)
    (hlook : ∀ p, first ≤ p → p < first + n → ∀ a, look p = some a → ident p = a)
    (hident : ∀ p, ident p = .zero ∨ ∃ ref, ident p = .page ref volume p)
    (h : Tiles (fun b => ident (b / s.pageSize)) s.lo (s.edge first) xs) (hc : Apart xs)
    (hs : scan s look xs first n = some ys) : Apart ys := by
  induction n generalizing ys with
  | zero =>
    cases hs
    exact hc
  | succ n ih =>
    rw [scan_succ] at hs
    obtain ⟨zs, hzs, hs⟩ := bind_eq_some_iff.mp hs
    obtain ⟨a, ha, rfl⟩ := map_eq_some_iff.mp hs
    have hm' : ∀ p, first ≤ p → p < first + n → s.Meets p := fun p h1 h2 => hm p h1 (by omega)
    have hlook' : ∀ p, first ≤ p → p < first + n → ∀ a, look p = some a → ident p = a :=
      fun p h1 h2 => hlook p h1 (by omega)
    rw [← hlook _ (by omega) (by omega) a ha]
    exact extend_apart hpos hlt (hm _ (by omega) (by omega)) hident
      (scan_tiles ident hpos hlt hm' hlook' h hzs) (ih hm' hlook' hzs)

end Apart

/-! ## Capacity -/

theorem length_push_le {α : Type*} [DecidableEq α] (xs : List (Walk.Run α)) (x : Walk.Run α) :
    (push xs x).length ≤ xs.length + 1 := by
  unfold push
  split
  next => simp
  next =>
    split
    · simp only [List.length_append, List.length_dropLast, List.length_singleton]
      omega
    · simp

theorem length_hole_le (s : ByteSpan) (xs : List Located) (first stop : Nat) :
    (PageTable.hole s xs first stop).length ≤ xs.length + 1 :=
  length_push_le xs _

theorem countP_range_lt {p : Nat → Bool} {k n : Nat} (hp : p k = true) (h : k < n) :
    (List.range k).countP p + 1 ≤ (List.range n).countP p := by
  have hle := (List.range_sublist.mpr (show k + 1 ≤ n from h)).countP_le (p := p)
  rw [List.range_succ, List.countP_append, List.countP_singleton, if_pos hp] at hle
  exact hle

theorem PageTable.length_locate_le {t : PageTable} {volume : Bytes} {base first stop : Nat} {s : ByteSpan}
    {xs ys : List Located} (h : t.locate xs volume base first stop s = some ys) :
    ys.length ≤ xs.length +
      extentsIn ((t.entries.take (stop - base)).drop (first - base)) (stop - first) := by
  rw [PageTable.locate] at h
  generalize (t.entries.take (stop - base)).drop (first - base) = located at h ⊢
  obtain ⟨zs, hzs, rfl⟩ := map_eq_some_iff.mp h
  -- A round begins where an extent does, and appends one at most.
  have hround : ∀ k ys, k < located.length → (k < located.length → begins located k = true) ∧
      ys.length ≤ xs.length + (List.range k).countP (begins located) →
      (∀ next ys', t.entryRound volume s first located k ys = some (next, ys') → k < next ∧ next ≤ located.length ∧
        (next < located.length → begins located next = true) ∧
          ys'.length ≤ xs.length + (List.range next).countP (begins located)) ∧
        (False → (t.entryRound volume s first located k ys).isSome) := by
    rintro k ys hk ⟨hbegins, hlen⟩
    refine ⟨fun next ys' hr => ?_, False.elim⟩
    rw [PageTable.entryRound, List.getElem?_eq_getElem hk, map_some] at hr
    have hget : located.getD k {} = located[k] := by
      rw [List.getD_eq_getElem?_getD, List.getElem?_eq_getElem hk, getD_some]
    by_cases hz : located[k].ref = 0
    · rw [if_pos hz] at hr
      obtain ⟨h1, h2, -⟩ := holeRun_spec hk (hget ▸ hz)
      cases hr
      have hcount := countP_range_lt (hbegins hk) h1
      refine ⟨h1, h2, fun hnext => ?_, (length_hole_le ..).trans (by omega)⟩
      rcases stretch_end Nat.lt_add_one (k + 1) with hend | hend
      · exact absurd hnext (Nat.not_lt.mpr hend)
      · have hne : (located.getD (holeRun located k) {}).ref ≠ 0 := of_decide_eq_false hend
        rw [begins, decide_eq_true hne, Bool.true_or, Bool.true_or]
    · rw [if_neg hz] at hr
      cases hr
      have hcount := countP_range_lt (hbegins hk) (Nat.lt_add_one k)
      refine ⟨by omega, by omega, fun _ => ?_, ?_⟩
      · rw [begins, Nat.add_sub_cancel, hget]
        simp [hz]
      · rw [List.length_append, List.length_singleton]
        omega
  have hkeep := (walk_rule _ _ (fun k ys => (k < located.length → begins located k = true) ∧
    ys.length ≤ xs.length + (List.range k).countP (begins located)) _ hround (Nat.zero_le _)
    ⟨fun _ => by simp [begins], Nat.le_refl _⟩).1 zs hzs
  have hbound := hkeep.2
  rw [extentsIn]
  split
  next hbeyond =>
    rw [if_pos (by omega)]
    exact (length_hole_le ..).trans (by omega)
  next => exact hbound.trans (by omega)

/-! ## The range -/

/-- Where each page has an identity of its own, or none. -/
theorem Index.identity_cases (i : Index) (fetch : SegmentAddress → Option PageTable) (volume : Bytes)
    (g : Geometry) (page : Nat) : i.identity fetch volume g page = .zero ∨
      ∃ ref, i.identity fetch volume g page = .page ref volume page := by
  rw [Index.identity]
  split
  next => exact .inl rfl
  next =>
    rw [PageTable.identity, PageTable.identityOf]
    split
    next => exact .inl rfl
    next => exact .inr ⟨_, rfl⟩

/-- Locating a range of any volume of any index gives what looking up each page of the range alone gives, in
order: it fails with a lookup, and else gives an extent for each page that is located, under the identity of
its origin and clipped to the range, and zeroes between, merged. The extents are adjacent and cover the range
exactly, and no two neighbours have one identity. And no table appends more extents than the capacity it
asks for. -/
theorem locate_is_pages_alone (i : Index) (read : SegmentAddress → Option Bytes) (volume : Bytes)
    (offset length : Nat) :
    i.locateRange (fetchParsed read) volume offset length =
      i.locateAlone (fetchParsed read) volume offset length ∧
    (∀ table xs, i.volumes.lookup volume = some table →
      i.locateRange (fetchParsed read) volume offset length = some xs →
      Tiles (fun b => i.identity (fetchParsed read) volume table.geometry (b / table.geometry.pageSize))
        offset (offset + length) xs ∧ Apart xs) ∧
    ∀ (t : PageTable) (xs ys : List Located) (base first stop : Nat) (s : ByteSpan),
      t.locate xs volume base first stop s = some ys → ys.length ≤ xs.length +
        PageTable.extentsIn ((t.entries.take (stop - base)).drop (first - base)) (stop - first) := by
  refine ⟨Index.locateRange_eq offset length, fun table xs hv hxs => ?_,
    fun t xs ys base first stop s h => PageTable.length_locate_le h⟩
  have hrange := hxs
  rw [Index.locateRange, hv, bind_some] at hrange
  obtain ⟨hin, hrange⟩ := ite_none_left_eq_some.mp hrange
  refine ⟨(Index.locateRange_tiles hv (by omega)).1 xs hxs, ?_⟩
  split at hrange
  next =>
    cases hrange
    exact .nil
  next hz =>
    generalize table.geometry = g at hrange
    have hlt : offset < offset + length := by omega
    have heq := @Index.walk_eq i (fetchParsed read) volume g ⟨offset, offset + length, g.pageSize⟩ rfl hlt
    simp only [Geometry.pageOf] at hrange
    rw [heq] at hrange
    refine scan_apart g.pageSize_pos hlt (fun p h1 h2 => ByteSpan.meets_of_div g.pageSize_pos hlt h1 ?_)
      (fun p _ _ a ha => ?_) (i.identity_cases (fetchParsed read) volume g)
      (by rw [ByteSpan.edge_first hlt]; exact .nil _) .nil hrange
    · have hle : offset / g.pageSize ≤ (offset + length - 1) / g.pageSize := Nat.div_le_div_right (by omega)
      omega
    · obtain ⟨t, ht, rfl⟩ := map_eq_some_iff.mp ha
      rw [Index.identity, ht]

theorem locate_is_pages_alone_sample :
    vmRoot.locateRange (fetchParsed fun _ => none) vm 100 200 = some [⟨100, 200, .zero⟩] ∧
      Tiles (fun b => vmRoot.identity (fetchParsed fun _ => none) vm ⟨pageSize4KiB, 16 * 2 ^ 10, by decide⟩
        (b / pageSize4KiB)) 100 300 [⟨100, 200, .zero⟩] := by
  obtain ⟨heq, hshape, -⟩ := locate_is_pages_alone vmRoot (fun _ => none) vm 100 200
  have hxs : vmRoot.locateRange (fetchParsed fun _ => none) vm 100 200 = some [⟨100, 200, .zero⟩] :=
    heq.trans rfl
  exact ⟨hxs, (hshape _ _ rfl hxs).1⟩

end Sproutfs.Checkpoint

import Mathlib.Algebra.Order.BigOperators.Group.List
import Mathlib.Algebra.Order.Group.Nat
import Sproutfs.Journal.Invariant
import Sproutfs.Journal.Proofs.FormatProofs

/-!
# Laying a batch out

`place` lays records end to end from `written`. No record crosses the ring's end: what is left of
the ring after each is nothing or room for a record. A batch that fits after `fitting` wraps at most
once, so past `next` it takes no more than `reserve` computes for it.
-/

namespace Sproutfs.JournalDisk

open List ByteCodec TornDisk Tiling

variable {n : Nat} {p k a b size base total largest : Nat} {captured : List (Option (List Entry))}
  {es : List Entry} {g : UInt64}

/-! ## Records on the ring -/

theorem Item.WellFormed.size_ge {i : Item} (h : i.WellFormed) : minEntryBytes ≤ i.size := by
  cases i with
  | pad k => exact h.1
  | blocks e => exact e.size_ge

theorem Item.WellFormed.size_mod {i : Item} (h : i.WellFormed) : i.size % 8 = 0 := by
  cases i with
  | pad k => exact h.2.1
  | blocks e => exact e.size_mod

theorem minEntryBytes_eq : minEntryBytes = 64 := rfl

theorem CanBegin.mod_lt (hp : CanBegin n p) : p % n + 64 ≤ n := by
  have h := hp.room
  rw [minEntryBytes_eq] at h
  omega

theorem RingLength.mod8 (hn : RingLength n) : n % 8 = 0 := by
  have := hn.blocks
  unfold blockBytes at this
  omega

/-- A record that ends at the ring's end or leaves room for another may be followed by one. -/
theorem CanBegin.add (hn : RingLength n) (hp : CanBegin n p) (hk : k % 8 = 0)
    (h : p % n + k = n ∨ p % n + k + minEntryBytes ≤ n) : CanBegin n (p + k) := by
  have hmin := hn.min
  have hmod := add_mod_of_le (n := n) (p := p) (k := k) (by omega)
  refine ⟨?_, ?_⟩
  · have := hp.aligned
    omega
  · rw [hmod]
    unfold minRingSize minEntryBytes entryHeadBytes checksumBytes at *
    split <;> omega

/-- Block boundaries leave room for a record. -/
theorem CanBegin.of_block (hn : RingLength n) (hp : p % blockBytes = 0) : CanBegin n p := by
  have hb := hn.blocks
  have hmin := hn.min
  have hpn : p % n % blockBytes = 0 := by
    rw [Nat.mod_mod_of_dvd p (Nat.dvd_of_mod_eq_zero hb), hp]
  have hlt : p % n < n := Nat.mod_lt _ (by unfold minRingSize at hmin; omega)
  unfold blockBytes at *
  refine ⟨by omega, ?_⟩
  unfold minEntryBytes entryHeadBytes checksumBytes
  omega

/-- Between a place where a record may begin and the ring's end there is a multiple of 8. -/
theorem CanBegin.mod_mod8 (hn : RingLength n) (hp : CanBegin n p) : p % n % 8 = 0 := by
  rw [Nat.mod_mod_of_dvd p (Nat.dvd_of_mod_eq_zero hn.mod8), hp.aligned]

theorem OnRing.nil (a : Nat) : OnRing n g [] a a :=
  ⟨rfl, by simp, by simp⟩

theorem OnRing.concat {l : List Stored} (hn : RingLength n) (hl : OnRing n g l a b) (hb : CanBegin n b)
    {i : Item} (hi : i.WellFormed) (h : b % n + i.size = n ∨ b % n + i.size + minEntryBytes ≤ n) :
    OnRing n g (l ++ [⟨b, g, i⟩]) a (b + i.size) ∧ CanBegin n (b + i.size) := by
  have hafter := hb.add hn hi.size_mod h
  refine ⟨⟨tiles_concat hl.tiles rfl, fun s hs => ?_, fun s hs => ?_⟩, hafter⟩
  · rcases mem_append.mp hs with hs | hs
    · exact hl.each s hs
    · rw [mem_singleton] at hs
      subst hs
      refine ⟨hi, hb, ?_, hafter⟩
      change b % n + i.size ≤ n
      omega
  · rcases mem_append.mp hs with hs | hs
    · exact hl.generation s hs
    · rw [mem_singleton] at hs
      subst hs
      rfl

theorem OnRing.append {l m : List Stored} {c : Nat} (hl : OnRing n g l a b) (hm : OnRing n g m b c) :
    OnRing n g (l ++ m) a c := by
  refine ⟨tiles_append.mpr ⟨b, hl.tiles, hm.tiles⟩, fun s hs => ?_, fun s hs => ?_⟩
  · rcases mem_append.mp hs with hs | hs
    · exact hl.each s hs
    · exact hm.each s hs
  · rcases mem_append.mp hs with hs | hs
    · exact hl.generation s hs
    · exact hm.generation s hs

theorem Stored.position_le_stop (s : Stored) : s.position ≤ s.stop := Nat.le_add_right _ _

theorem OnRing.le {l : List Stored} (h : OnRing n g l a b) : a ≤ b :=
  h.tiles.le Stored.position_le_stop

theorem OnRing.add_le {l : List Stored} (h : OnRing n g l a b) (hl : l ≠ []) : a + minEntryBytes ≤ b := by
  cases l with
  | nil => exact absurd rfl hl
  | cons s l =>
    have hs := h.each s mem_cons_self
    have hsize := hs.wellFormed.size_ge
    have hb := (h.tiles.mem_bounds Stored.position_le_stop mem_cons_self).2
    have hfirst : s.position = a := h.tiles.1
    have hstop : s.stop = s.position + s.item.size := rfl
    omega

/-! ## Layouts -/

/-- A layout of records from `start` on, with the entries it adds. -/
structure Layout.Good (n : Nat) (g : UInt64) (start : Nat) (l : Layout) : Prop where
  ring : OnRing n g l.image start l.position
  begins : CanBegin n l.position
  entries : l.entries = l.image.filterMap Stored.index

section Place

variable {j : Journal} {start : Nat} {l : Layout}

theorem pad_good (hn : RingLength j.ringLength) (hl : l.Good j.ringLength j.generation start)
    (hk : minEntryBytes ≤ k ∧ k % 8 = 0 ∧ k ≤ maxStoredBytes)
    (h : l.position % j.ringLength + k = j.ringLength ∨ l.position % j.ringLength + k + minEntryBytes ≤ j.ringLength) :
    (j.pad l k).Good j.ringLength j.generation start := by
  obtain ⟨hring, hbegin⟩ := hl.ring.concat hn hl.begins (i := .pad k) hk h
  refine ⟨hring, hbegin, ?_⟩
  simp [Journal.pad, hl.entries, Stored.index]

theorem padLength_spec (hn : RingLength j.ringLength) (hp : CanBegin j.ringLength p)
    (hnext : j.next % blockBytes = 0) (hlt : p + minEntryBytes ≤ j.next) :
    (minEntryBytes ≤ j.padLength p ∧ j.padLength p % 8 = 0 ∧ j.padLength p ≤ maxStoredBytes) ∧
    (p % j.ringLength + j.padLength p = j.ringLength ∨
      p % j.ringLength + j.padLength p + minEntryBytes ≤ j.ringLength) ∧
    (p + j.padLength p = j.next ∨ p + j.padLength p + minEntryBytes ≤ j.next) := by
  have hroom := hp.mod_lt
  have haligned := hp.aligned
  -- Where the range ends inside this turn of the ring, it ends on a block boundary of the turn.
  have hwrap : p % j.ringLength + (j.next - p) ≤ j.ringLength →
      p % j.ringLength + (j.next - p) = j.ringLength ∨
        p % j.ringLength + (j.next - p) + blockBytes ≤ j.ringLength := by
    intro hle
    have hend := add_mod_of_le hle
    have hblock : (p + (j.next - p)) % j.ringLength % blockBytes = 0 := by
      rw [Nat.mod_mod_of_dvd _ (Nat.dvd_of_mod_eq_zero hn.blocks)]
      rw [show p + (j.next - p) = j.next by omega, hnext]
    have hL := hn.blocks
    rw [hend] at hblock
    unfold blockBytes at *
    split at hblock <;> omega
  -- Where the ring ends first, the rest of the range is whole blocks.
  have hrest : j.ringLength - p % j.ringLength < j.next - p →
      (j.next - p - (j.ringLength - p % j.ringLength)) % blockBytes = 0 := by
    intro hlt'
    have hend := add_mod_of_le (n := j.ringLength) (p := p)
      (k := j.ringLength - p % j.ringLength) (by omega)
    rw [if_pos (by omega)] at hend
    have hblock : (p + (j.ringLength - p % j.ringLength)) % blockBytes = 0 := by
      rw [← Nat.mod_mod_of_dvd _ (Nat.dvd_of_mod_eq_zero hn.blocks), hend, Nat.zero_mod]
    unfold blockBytes at *
    omega
  have hmax : maxEntryBytes = 16773120 := rfl
  have hstored : maxStoredBytes = 16777216 := rfl
  rw [minEntryBytes_eq, hstored] at *
  unfold blockBytes at hnext hwrap hrest
  rcases Nat.le_total (j.next - p) (j.ringLength - p % j.ringLength) with hle | hle
  · have hk : j.padLength p = if j.next - p > 16773120 then 8386560 else j.next - p := by
      unfold Journal.padLength Journal.room
      simp only [Nat.min_eq_left hle, hmax]
    have := hwrap (by omega)
    by_cases hbig : j.next - p > 16773120
    · rw [if_pos hbig] at hk
      omega
    · rw [if_neg hbig] at hk
      omega
  · have hk : j.padLength p = if j.ringLength - p % j.ringLength > 16773120 then 8386560
        else j.ringLength - p % j.ringLength := by
      unfold Journal.padLength Journal.room
      simp only [Nat.min_eq_right hle, hmax]
    by_cases hbig : j.ringLength - p % j.ringLength > 16773120
    · rw [if_pos hbig] at hk
      omega
    · rw [if_neg hbig] at hk
      refine ⟨by omega, by omega, ?_⟩
      rcases Nat.lt_or_ge (j.ringLength - p % j.ringLength) (j.next - p) with h | h
      · have := hrest h
        omega
      · omega

theorem padOver_good (hn : RingLength j.ringLength) (hnext : j.next % blockBytes = 0) (fuel : Nat)
    (hl : l.Good j.ringLength j.generation start) (hfuel : j.next - l.position ≤ fuel)
    (hpos : l.position = j.next ∨ l.position + minEntryBytes ≤ j.next) :
    (j.padOver fuel l).Good j.ringLength j.generation start ∧
      (j.padOver fuel l).position = j.next ∧ (j.padOver fuel l).entries = l.entries := by
  induction fuel generalizing l with
  | zero =>
    have heq : l.position = j.next := by
      omega
    exact ⟨hl, heq, rfl⟩
  | succ fuel ih =>
    unfold Journal.padOver
    split
    · next hlt =>
      obtain ⟨hk, hring, hnext'⟩ := padLength_spec hn hl.begins hnext (by omega)
      have hmin := hk.1
      have hposition : (j.pad l (j.padLength l.position)).position =
          l.position + j.padLength l.position := rfl
      refine ih (pad_good hn hl hk hring) ?_ hnext'
      rw [hposition]
      rw [minEntryBytes_eq] at hmin
      omega
    · next hge =>
      exact ⟨hl, by omega, rfl⟩

/-- Where the positions of a batch lie after entries of `total` bytes in all, each at most `largest`:
right after them, or past one pad at the ring's end. -/
def Wrapped (n base total largest position : Nat) : Prop :=
  position = base + total ∨
    ∃ turn, turn % n = 0 ∧ base ≤ turn ∧ turn ≤ position ∧ position ≤ turn + total ∧
      position < base + total + largest + minEntryBytes

theorem padRingEnd_good (hn : RingLength j.ringLength) (hl : l.Good j.ringLength j.generation start)
    (hsize : size ≤ maxEntryBytes) (h8 : size % 8 = 0) (hfit : size + minEntryBytes ≤ j.ringLength) :
    (j.padRingEnd l size).Good j.ringLength j.generation start ∧
      (j.padRingEnd l size).entries = l.entries ∧
      ((j.padRingEnd l size).position % j.ringLength + size = j.ringLength ∨
        (j.padRingEnd l size).position % j.ringLength + size + minEntryBytes ≤ j.ringLength) := by
  have hroom := hl.begins.mod_lt
  have h8' := hl.begins.mod_mod8 hn
  have hn8 := hn.mod8
  unfold Journal.padRingEnd Journal.room
  simp only
  split
  · next h =>
    have hend := add_mod_of_le (n := j.ringLength) (p := l.position)
      (k := j.ringLength - l.position % j.ringLength) (by omega)
    rw [if_pos (by omega)] at hend
    refine ⟨pad_good hn hl ?_ (by omega), rfl, ?_⟩
    · have hmax : maxEntryBytes = 16773120 := rfl
      have hstored : maxStoredBytes = 16777216 := rfl
      rw [minEntryBytes_eq] at *
      omega
    · change (l.position + _) % _ + _ = _ ∨ (l.position + _) % _ + _ + _ ≤ _
      rw [hend]
      omega
  · next h =>
    exact ⟨hl, rfl, by omega⟩

/-- The pad at the ring's end is shorter than the entry and a pad's head, and comes at most once in
a batch. -/
theorem padRingEnd_wrapped (hl : CanBegin j.ringLength l.position)
    (hw : Wrapped j.ringLength base total largest l.position) (hsize : size ≤ largest)
    (hroom : total + size + minEntryBytes ≤ j.ringLength) :
    Wrapped j.ringLength base (total + size) largest ((j.padRingEnd l size).position + size) := by
  have hbegin := hl.mod_lt
  have h64 := minEntryBytes_eq
  unfold Journal.padRingEnd Journal.room
  simp only
  rcases hw with hpos | ⟨turn, hturn, hbase, hle, hupto, hbound⟩
  · split
    · next h =>
      right
      have hend := add_mod_of_le (n := j.ringLength) (p := l.position)
        (k := j.ringLength - l.position % j.ringLength) (by omega)
      rw [if_pos (by omega)] at hend
      refine ⟨l.position + (j.ringLength - l.position % j.ringLength), hend, by omega, ?_, ?_, ?_⟩
      · simp only [Journal.pad]
        omega
      · simp only [Journal.pad]
        omega
      · simp only [Journal.pad]
        omega
    · left
      omega
  · -- Past the pad the whole batch fits before the ring's end.
    have hmod : l.position % j.ringLength = l.position - turn := by
      have hsplit := add_mod_of_le (n := j.ringLength) (p := turn) (k := l.position - turn)
        (by rw [hturn]; omega)
      rw [show turn + (l.position - turn) = l.position by omega, hturn, if_neg (by omega)] at hsplit
      omega
    right
    rw [if_neg (by omega)]
    exact ⟨turn, hturn, hbase, by omega, by omega, by omega⟩

theorem pad_grows (k : Nat) : l.image <+: (j.pad l k).image := prefix_append _ _

theorem padRingEnd_grows (size : Nat) : l.image <+: (j.padRingEnd l size).image := by
  unfold Journal.padRingEnd
  simp only
  split
  · exact pad_grows _
  · exact prefix_rfl

theorem mem_padRingEnd_image {s : Stored} (hs : s ∈ (j.padRingEnd l size).image) :
    s ∈ l.image ∨ ∃ k, s.item = .pad k := by
  unfold Journal.padRingEnd at hs
  simp only at hs
  split at hs
  · rcases mem_append.mp hs with hs | hs
    · exact .inl hs
    · rw [mem_singleton] at hs
      exact .inr ⟨_, by rw [hs]⟩
  · exact .inl hs

theorem placeEntry_good (hn : RingLength j.ringLength)
    (hl : l.Good j.ringLength j.generation start) {e : Entry} (he : e.check)
    (hfit : e.size + minEntryBytes ≤ j.ringLength) :
    (j.placeEntry l e).Good j.ringLength j.generation start := by
  obtain ⟨-, -, -, hmax⟩ := Entry.check_iff.mp he
  obtain ⟨hpad, -, hin⟩ := padRingEnd_good hn hl hmax e.size_mod hfit
  obtain ⟨hring, hbegin⟩ := hpad.ring.concat hn hpad.begins (i := .blocks e) he hin
  refine ⟨hring, hbegin, ?_⟩
  simp [Journal.placeEntry, hpad.entries, Stored.index]

/-- What laying out one commit's entries `es` after `l` gives. -/
structure EntriesPlaced (j : Journal) (start base total largest : Nat) (l : Layout)
    (es : List Entry) (r : Layout × List Nat) : Prop where
  good : r.1.Good j.ringLength j.generation start
  wrapped : Wrapped j.ringLength base (total + (es.map (·.size)).sum) largest r.1.position
  grows : l.image <+: r.1.image
  positions : ∀ pe ∈ r.2.zip es, ⟨pe.1, j.generation, .blocks pe.2⟩ ∈ r.1.image
  added : ∀ s ∈ r.1.image, s ∈ l.image ∨ (∃ k, s.item = .pad k) ∨ ∃ e ∈ es, s.item = .blocks e

/-- A commit's entries lie end to end, wrap at most once with what came before, and have the
positions that are returned. -/
theorem placeEntries_spec (hn : RingLength j.ringLength) (hl : l.Good j.ringLength j.generation start)
    (hcheck : ∀ e ∈ es, e.check) (hlargest : ∀ e ∈ es, e.size ≤ largest)
    (hw : Wrapped j.ringLength base total largest l.position)
    (hroom : total + (es.map (·.size)).sum + minEntryBytes ≤ j.ringLength) :
    EntriesPlaced j start base total largest l es (j.placeEntries l es) := by
  induction es generalizing l total with
  | nil => exact ⟨hl, hw, prefix_rfl, by simp, fun s hs => .inl hs⟩
  | cons e es ih =>
    simp only [map_cons, sum_cons] at hroom
    have he := hcheck e mem_cons_self
    have hgood := placeEntry_good hn hl he (by omega)
    have hwrap : Wrapped j.ringLength base (total + e.size) largest (j.placeEntry l e).position :=
      padRingEnd_wrapped hl.begins hw (hlargest e mem_cons_self) (by omega)
    have hrest := ih hgood (fun x hx => hcheck x (mem_cons_of_mem _ hx))
      (fun x hx => hlargest x (mem_cons_of_mem _ hx)) hwrap (by omega)
    have hgrows : l.image <+: (j.placeEntry l e).image :=
      (padRingEnd_grows e.size).trans (prefix_append _ _)
    refine ⟨hrest.good, ?_, hgrows.trans hrest.grows, ?_, ?_⟩
    · rw [map_cons, sum_cons, ← Nat.add_assoc]
      exact hrest.wrapped
    · intro pe hpe
      simp only [Journal.placeEntries, zip_cons_cons, mem_cons] at hpe ⊢
      rcases hpe with rfl | hpe
      · exact hrest.grows.subset (mem_append_right _ mem_cons_self)
      · exact hrest.positions pe hpe
    · intro s hs
      rcases hrest.added s hs with hs | hs | ⟨x, hx, hs⟩
      · rcases mem_append.mp hs with hs | hs
        · rcases mem_padRingEnd_image hs with hs | hs
          · exact .inl hs
          · exact .inr (.inl hs)
        · rw [mem_singleton] at hs
          exact .inr (.inr ⟨e, mem_cons_self, by rw [hs]⟩)
      · exact .inr (.inl hs)
      · exact .inr (.inr ⟨x, mem_cons_of_mem _ hx, hs⟩)

/-- Every entry the captures of a batch made. -/
def allEntries (captured : List (Option (List Entry))) : List Entry :=
  captured.flatMap (·.getD [])

/-- What laying out the commits of a batch after `l` gives. A refused commit adds nothing, and no
entry that is laid out is of a VM fenced at a newer epoch. -/
structure CommitsPlaced (j : Journal) (start base bound largest : Nat) (l : Layout)
    (captured : List (Option (List Entry))) (r : Layout × List (Option (List Nat))) : Prop where
  good : r.1.Good j.ringLength j.generation start
  wrapped : ∃ total ≤ bound, Wrapped j.ringLength base total largest r.1.position
  grows : l.image <+: r.1.image
  positions : ∀ es ps, (some es, some ps) ∈ captured.zip r.2 →
    ∀ pe ∈ ps.zip es, ⟨pe.1, j.generation, .blocks pe.2⟩ ∈ r.1.image
  added : ∀ s ∈ r.1.image, s ∈ l.image ∨ (∃ k, s.item = .pad k) ∨
    ∃ e, s.item = .blocks e ∧ ¬ e.epoch < j.fences e.vm

theorem CommitsPlaced.refuse {bound bound' : Nat} {r : Layout × List (Option (List Nat))}
    (h : CommitsPlaced j start base bound largest l captured r) (hb : bound ≤ bound')
    (c : Option (List Entry)) :
    CommitsPlaced j start base bound' largest l (c :: captured) (r.1, none :: r.2) := by
  obtain ⟨t, ht, hw⟩ := h.wrapped
  refine ⟨h.good, ⟨t, by omega, hw⟩, h.grows, ?_, h.added⟩
  intro es ps hmem
  simp only [zip_cons_cons, mem_cons, Prod.mk.injEq, reduceCtorEq, and_false,
    false_or] at hmem
  exact h.positions es ps hmem

theorem placeCommits_fenced (hf : j.fenced es) (rest : List (Option (List Entry))) :
    j.placeCommits l (some es :: rest) =
      ((j.placeCommits l rest).1, none :: (j.placeCommits l rest).2) := by
  simp [Journal.placeCommits, hf]

theorem placeCommits_taken (hf : ¬ j.fenced es) (rest : List (Option (List Entry))) :
    j.placeCommits l (some es :: rest) =
      ((j.placeCommits (j.placeEntries l es).1 rest).1,
        some (j.placeEntries l es).2 :: (j.placeCommits (j.placeEntries l es).1 rest).2) := by
  simp [Journal.placeCommits, hf]

theorem placeCommits_spec (hn : RingLength j.ringLength) (hl : l.Good j.ringLength j.generation start)
    (hcheck : ∀ e ∈ allEntries captured, e.check) (hlargest : ∀ e ∈ allEntries captured, e.size ≤ largest)
    (hw : Wrapped j.ringLength base total largest l.position)
    (hroom : total + ((allEntries captured).map (·.size)).sum + minEntryBytes ≤ j.ringLength) :
    CommitsPlaced j start base (total + ((allEntries captured).map (·.size)).sum) largest l captured
      (j.placeCommits l captured) := by
  induction captured generalizing l total with
  | nil => exact ⟨hl, ⟨total, by omega, hw⟩, prefix_rfl, by simp, fun s hs => .inl hs⟩
  | cons c rest ih =>
    have hsum : ((allEntries (c :: rest)).map (·.size)).sum =
        ((c.getD []).map (·.size)).sum + ((allEntries rest).map (·.size)).sum := by
      rw [← sum_append, ← map_append]
      rfl
    have hmem : ∀ e, e ∈ allEntries (c :: rest) ↔ e ∈ c.getD [] ∨ e ∈ allEntries rest :=
      fun e => mem_append
    have hcheck' := fun e he => hcheck e ((hmem e).mpr (.inr he))
    have hlargest' := fun e he => hlargest e ((hmem e).mpr (.inr he))
    cases c with
    | none => exact (ih hl hcheck' hlargest' hw (by omega)).refuse (by omega) none
    | some es =>
      rw [Option.getD_some] at hsum hmem
      by_cases hf : j.fenced es
      · rw [placeCommits_fenced hf]
        exact (ih hl hcheck' hlargest' hw (by omega)).refuse (by omega) (some es)
      · have hes := placeEntries_spec hn hl (fun e he => hcheck e ((hmem e).mpr (.inl he)))
          (fun e he => hlargest e ((hmem e).mpr (.inl he))) hw (by omega)
        have hrest := ih hes.good hcheck' hlargest' hes.wrapped (by omega)
        obtain ⟨t, ht, hwr⟩ := hrest.wrapped
        rw [placeCommits_taken hf]
        refine ⟨hrest.good, ⟨t, by omega, hwr⟩, hes.grows.trans hrest.grows, ?_, ?_⟩
        · intro es' ps hzip pe hpe
          simp only [zip_cons_cons, mem_cons, Prod.mk.injEq, Option.some.injEq] at hzip
          rcases hzip with ⟨rfl, rfl⟩ | hzip
          · exact hrest.grows.subset (hes.positions pe hpe)
          · exact hrest.positions es' ps hzip pe hpe
        · intro s hs
          rcases hrest.added s hs with hs | hs | hs
          · rcases hes.added s hs with hs | hs | ⟨e, he, hs⟩
            · exact .inl hs
            · exact .inr (.inl hs)
            · refine .inr (.inr ⟨e, hs, fun hlt => hf ?_⟩)
              exact any_eq_true.mpr ⟨e, he, by simpa using hlt⟩
          · exact .inr (.inl hs)
          · exact .inr (.inr hs)

theorem padBlock_good (hn : RingLength j.ringLength)
    (hl : l.Good j.ringLength j.generation start) :
    (j.padBlock l).Good j.ringLength j.generation start ∧
      (j.padBlock l).position % blockBytes = 0 ∧
      l.position ≤ (j.padBlock l).position ∧
      (j.padBlock l).position < l.position + blockBytes + minEntryBytes ∧
      l.image <+: (j.padBlock l).image ∧ (j.padBlock l).entries = l.entries ∧
      ∀ s ∈ (j.padBlock l).image, s ∈ l.image ∨ ∃ k, s.item = .pad k := by
  have hroom := hl.begins.mod_lt
  have h8 := hl.begins.aligned
  have hL : j.ringLength % 4096 = 0 := hn.blocks
  have hblock : l.position % j.ringLength % 4096 = l.position % 4096 :=
    Nat.mod_mod_of_dvd _ (Nat.dvd_of_mod_eq_zero hL)
  have hmax : maxStoredBytes = 16777216 := rfl
  unfold Journal.padBlock blockBytes
  simp only
  rw [minEntryBytes_eq]
  split
  · next hgap =>
    set k := if (4096 - l.position % 4096) % 4096 < 64 then (4096 - l.position % 4096) % 4096 + 4096
      else (4096 - l.position % 4096) % 4096 with hk
    have hk' : k % 8 = 0 ∧ 64 ≤ k ∧ k < 4096 + 64 ∧ (l.position + k) % 4096 = 0 ∧
        (l.position % j.ringLength + k = j.ringLength ∨
          l.position % j.ringLength + k + 64 ≤ j.ringLength) := by
      split at hk <;> omega
    obtain ⟨hk8, hk64, hklt, hend, hin⟩ := hk'
    refine ⟨pad_good hn hl ⟨hk64, hk8, by omega⟩ hin, hend, ?_, ?_, pad_grows _, rfl, ?_⟩
    · exact Nat.le_add_right _ _
    · change l.position + k < _
      omega
    · intro s hs
      rcases mem_append.mp hs with hs | hs
      · exact .inl hs
      · rw [mem_singleton] at hs
        exact .inr ⟨_, by rw [hs]⟩
  · next hgap =>
    exact ⟨hl, by omega, Nat.le_refl _, by omega, prefix_rfl, rfl, fun s hs => .inl hs⟩

theorem padded_good (hj : j.Spaced) :
    (j.padOver (j.next - j.written) { position := j.written }).Good j.ringLength j.generation
        j.written ∧
      (j.padOver (j.next - j.written) { position := j.written }).position = j.next ∧
      (j.padOver (j.next - j.written) { position := j.written }).entries = [] := by
  have hgood : Layout.Good j.ringLength j.generation j.written { position := j.written } :=
    ⟨.nil _, hj.begins, rfl⟩
  rcases hj.range with heq | ⟨hblock, hle⟩
  · rw [show j.next - j.written = 0 by omega]
    exact ⟨hgood, heq, rfl⟩
  · exact padOver_good hj.length hblock _ hgood (Nat.le_refl _) (.inr hle)

/-- A batch whose entries pass the check and that the ring has room for is laid out from `written`
on as it should be. -/
theorem place_spec (hj : j.Spaced) {room : Nat} (hcheck : ∀ e ∈ allEntries captured, e.check)
    (hlargest : ∀ e ∈ allEntries captured, e.size ≤ largest)
    (hroom : ((allEntries captured).map (·.size)).sum ≤ room) (hfit : reserve room largest ≤ j.ringLength) :
    Placed j room largest captured (j.place captured) := by
  obtain ⟨hpad, hnext, hnone⟩ := padded_good hj
  set padded := j.padOver (j.next - j.written) { position := j.written } with hpadded
  have hw : Wrapped j.ringLength j.next 0 largest padded.position := .inl hnext
  have hle : 0 + ((allEntries captured).map (·.size)).sum + minEntryBytes ≤ j.ringLength := by
    unfold reserve at hfit
    omega
  have hcommits := placeCommits_spec hj.length hpad hcheck hlargest hw hle
  set r := j.placeCommits padded captured with hr
  have hfenced : ∀ s ∈ r.1.image, ∀ e, s.item = .blocks e → ¬ e.epoch < j.fences e.vm := by
    intro s hs e he
    rcases hcommits.added s hs with hs | ⟨k, hk⟩ | ⟨e', he', hf⟩
    · -- Padding over the failed range adds no entry.
      have hin : ⟨s.position, e.size, e.vm, e.epoch, false⟩ ∈ padded.entries := by
        rw [hpad.entries]
        exact mem_filterMap.mpr ⟨s, hs, by simp [Stored.index, he]⟩
      rw [hnone] at hin
      cases hin
    · rw [hk] at he
      cases he
    · rw [he'] at he
      cases he
      exact hf
  unfold Journal.place
  simp only [← hpadded, ← hr]
  split
  · next h =>
    obtain ⟨hempty, hge⟩ := h
    refine ⟨rfl, fun h => absurd rfl h, fun h => absurd rfl h, fun h => absurd rfl h,
      fun h => absurd rfl h, fun _ => ?_, rfl, ?_, nofun⟩
    · rcases hj.range with h | h
      · exact h
      · omega
    · intro es ps hmem pe hpe
      have hin := hcommits.positions es ps hmem pe hpe
      have hidx : _ ∈ r.1.image.filterMap Stored.index := mem_filterMap.mpr ⟨_, hin, rfl⟩
      rw [← hcommits.good.entries, hempty] at hidx
      cases hidx
  · next h =>
    obtain ⟨hgood, hblock, hge, hlt, hgrows, hents, hadded⟩ := padBlock_good hj.length hcommits.good
    obtain ⟨t, ht, hwrapped⟩ := hcommits.wrapped
    have hbound : j.next ≤ r.1.position ∧ r.1.position ≤ j.next + room + largest + minEntryBytes := by
      rcases hwrapped with hpos | ⟨turn, -, hbase, hturn, -, hpos⟩
      · omega
      · omega
    refine ⟨rfl, fun _ => hgood.ring, fun _ => hblock, fun _ => ?_, fun _ => ?_, fun himage => ?_,
      hgood.entries, fun es ps hmem pe hpe => ?_, fun s hs e he => ?_⟩
    · change j.next ≤ (j.padBlock r.1).position
      omega
    · change (j.padBlock r.1).position ≤ _
      unfold reserve
      omega
    · -- An image that is empty neither pads nor holds an entry.
      have hstop := hgood.ring.tiles
      change (j.padBlock r.1).image = [] at himage
      rw [himage] at hstop
      have heq : j.written = (j.padBlock r.1).position := hstop
      rcases hj.range with h | h
      · exact h
      · omega
    · exact hgrows.subset (hcommits.positions es ps hmem pe hpe)
    · rcases hadded s hs with hs | ⟨k, hk⟩
      · exact hfenced s hs e he
      · rw [hk] at he
        cases he

theorem place_nil (hj : j.Spaced) (hlt : j.written < j.next) : (j.place []).stop = j.next := by
  obtain ⟨-, hnext, -⟩ := padded_good hj
  have hblock : j.next % blockBytes = 0 := by
    rcases hj.range with h | h
    · omega
    · exact h.1
  have hgap : ¬ (blockBytes - j.next % blockBytes) % blockBytes > 0 := by
    unfold blockBytes at hblock ⊢
    omega
  unfold Journal.place
  rw [if_neg fun h => h.2 hlt]
  change (j.padBlock (j.padOver (j.next - j.written) { position := j.written })).position = _
  unfold Journal.padBlock
  rw [hnext, if_neg hgap, hnext]

end Place

/-! ## Which commits a batch takes -/

theorem fittingFrom_spec {j : Journal} (q : List Commit) (room largest n : Nat) :
    ∃ k ≤ q.length, j.fittingFrom room largest n q = n + k ∧
      (0 < k → j.next + reserve (room + batchRoom (q.take k)) (max largest (batchLargest (q.take k))) ≤
        j.header.tail + j.ringLength) := by
  induction q generalizing room largest n with
  | nil => exact ⟨0, Nat.le_refl _, rfl, fun h => absurd h (Nat.lt_irrefl 0)⟩
  | cons c rest ih =>
    unfold Journal.fittingFrom
    split
    · exact ⟨0, Nat.zero_le _, rfl, fun h => absurd h (Nat.lt_irrefl 0)⟩
    · split
      · exact ⟨0, Nat.zero_le _, rfl, fun h => absurd h (Nat.lt_irrefl 0)⟩
      · next hroom =>
        obtain ⟨k, hk, heq, hfit⟩ := ih (room + c.room) (max largest c.room) (n + 1)
        refine ⟨k + 1, by simpa using hk, by omega, fun _ => ?_⟩
        have hroom' : batchRoom ((c :: rest).take (k + 1)) = c.room + batchRoom (rest.take k) := by
          simp [batchRoom]
        have hlargest : batchLargest ((c :: rest).take (k + 1)) =
            max c.room (batchLargest (rest.take k)) := by
          simp [batchLargest]
        rw [hroom', hlargest, ← Nat.add_assoc, ← Nat.max_assoc]
        rcases Nat.eq_zero_or_pos k with rfl | hpos
        · simpa [batchRoom, batchLargest] using hroom
        · exact hfit hpos

/-- The ring has room, before the durable tail, for the commits a batch takes. -/
theorem fitting_spec {j : Journal} (h : 0 < j.fitting) :
    j.next + reserve (batchRoom (j.queue.take j.fitting)) (batchLargest (j.queue.take j.fitting)) ≤
      j.header.tail + j.ringLength := by
  obtain ⟨k, -, heq, hfit⟩ := fittingFrom_spec (j := j) j.queue 0 0 0
  have hk : j.fitting = k := by
    unfold Journal.fitting
    omega
  rw [hk] at h ⊢
  simpa using hfit h

theorem capture_spec {c : Commit} {made : Option (List Entry)} (h : capture c made = some es) :
    (∀ e ∈ es, e.check) ∧ (es.map (·.size)).sum ≤ c.room := by
  obtain ⟨-, hes⟩ := Option.filter_eq_some_iff.mp h
  rw [Bool.and_eq_true, all_eq_true, decide_eq_true_eq] at hes
  exact hes

theorem captured_spec {batch : List Commit} {made : List (Option (List Entry))} :
    (∀ e ∈ allEntries (batch.zipWith capture made), e.check) ∧
    (∀ e ∈ allEntries (batch.zipWith capture made), e.size ≤ batchLargest batch) ∧
    ((allEntries (batch.zipWith capture made)).map (·.size)).sum ≤ batchRoom batch := by
  induction batch generalizing made with
  | nil => simp [allEntries, batchRoom]
  | cons c batch ih =>
    cases made with
    | nil => simp [allEntries]
    | cons m made =>
      obtain ⟨h1, h2, h3⟩ := @ih made
      have hsplit : allEntries ((c :: batch).zipWith capture (m :: made)) =
          (capture c m).getD [] ++ allEntries (batch.zipWith capture made) := rfl
      have hhead : (∀ e ∈ (capture c m).getD [], e.check) ∧
          (((capture c m).getD []).map (·.size)).sum ≤ c.room := by
        cases hc : capture c m with
        | none => simp
        | some es => exact capture_spec hc
      have hroom : batchRoom (c :: batch) = c.room + batchRoom batch := by simp [batchRoom]
      have hlargest : batchLargest (c :: batch) = max c.room (batchLargest batch) := rfl
      rw [hsplit]
      refine ⟨fun e he => ?_, fun e he => ?_, ?_⟩
      · rcases mem_append.mp he with he | he
        · exact hhead.1 e he
        · exact h1 e he
      · rw [hlargest]
        rcases mem_append.mp he with he | he
        · have hsum : e.size ≤ (((capture c m).getD []).map (·.size)).sum :=
            le_sum_of_mem (mem_map_of_mem he)
          omega
        · have := h2 e he
          omega
      · rw [map_append, sum_append, hroom]
        omega

end Sproutfs.JournalDisk

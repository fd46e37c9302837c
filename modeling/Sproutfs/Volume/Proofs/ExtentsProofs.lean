import Sproutfs.Lib.Cutting
import Sproutfs.Volume.Extents

/-!
# The extent index is the writes it was given

A cut keeps of every extent the part on its side, so what an index holds at a position is a statement about
the list of its extents; replacing a run and retaining generations follow from it.
-/

namespace Sproutfs.Volume

open List Option ByteCodec

namespace Extent

variable {e : Extent} {p b : Nat}

theorem before_byte (h : e.start < p) (h' : p < e.stop) (hb : b < p) :
    (e.before p h h').byte b = e.byte b := by
  cases hd : e.data with
  | none => simp [byte, before, hd]
  | some d =>
    simp only [byte, before, hd, map_some, getD_eq_getElem?_getD, getElem?_take]
    rw [if_pos (by omega)]

theorem after_byte (h : e.start < p) (h' : p < e.stop) (hb : p ≤ b) :
    (e.after p h h').byte b = e.byte b := by
  cases hd : e.data with
  | none => simp [byte, after, hd]
  | some d =>
    simp only [byte, after, hd, map_some, getD_eq_getElem?_getD, getElem?_drop]
    rw [show p - e.start + (b - p) = b - e.start by omega]

end Extent

/-- The byte the extents give a position, with its generation. -/
def contentOf (items : List Extent) (b : Nat) : Option (UInt8 × Nat) :=
  (items.find? fun e => decide (e.covers b)).map fun e => (e.byte b, e.generation)

/-- In order, and apart. -/
abbrev Ordered (items : List Extent) : Prop := items.Pairwise fun a b => a.stop ≤ b.start

/-- The runs of an overlay, as they are cut. -/
def extents : Cutting Extent where
  start := Extent.start
  stop := Extent.stop
  before := Extent.before
  after := Extent.after
  nonempty := Extent.nonempty
  start_before _ _ _ _ := rfl
  stop_before _ _ _ _ := rfl
  start_after _ _ _ _ := rfl
  stop_after _ _ _ _ := rfl

theorem extents_keeps : extents.Keeps fun e b => (e.byte b, e.generation) where
  before _ _ h h' _ hb := congrArg (·, _) (Extent.before_byte h h' hb)
  after _ _ h h' _ hb := congrArg (·, _) (Extent.after_byte h h' hb)

section Content

variable {items l m : List Extent} {e : Extent} {b : Nat}

@[simp] theorem contentOf_nil : contentOf [] b = none := rfl

theorem contentOf_eq : contentOf = extents.held fun e b => (e.byte b, e.generation) := rfl

theorem contentOf_cons : contentOf (e :: items) b =
    if e.covers b then some (e.byte b, e.generation) else contentOf items b := by
  rw [contentOf_eq]
  exact Cutting.held_cons

theorem contentOf_none (h : ∀ e ∈ items, ¬ e.covers b) : contentOf items b = none := by
  rw [contentOf_eq]
  exact Cutting.held_none h

theorem ordered_append_cons : Ordered (l ++ e :: m) ↔
    Ordered l ∧ Ordered m ∧ (∀ a ∈ l, a.stop ≤ e.start) ∧ ∀ a ∈ m, e.stop ≤ a.start :=
  Cutting.ordered_append_cons (c := extents)

theorem Ordered.not_covers (h : Ordered (e :: items)) (hc : e.covers b) : ∀ c ∈ items, ¬ c.covers b := by
  intro c hmem hcb
  have hle := (pairwise_cons.mp h).1 c hmem
  omega

/-- Extents kept by a rule on their generation hold what the rule keeps. -/
theorem Ordered.contentOf_filter (h : Ordered items) (keep : Nat → Bool) :
    contentOf (items.filter fun e => keep e.generation) b = (contentOf items b).filter fun x => keep x.2 := by
  induction items with
  | nil => rfl
  | cons e items ih =>
    have hrest := ih (pairwise_cons.mp h).2
    rw [contentOf_cons, filter_cons]
    by_cases hc : e.covers b
    · rw [if_pos hc, filter_some]
      by_cases hk : keep e.generation
      · rw [if_pos hk, if_pos hk, contentOf_cons, if_pos hc]
      · rw [if_neg hk, if_neg hk]
        exact contentOf_none fun c hmem => h.not_covers hc c (mem_filter.mp hmem).1
    · rw [if_neg hc]
      by_cases hk : keep e.generation
      · rw [if_pos hk, contentOf_cons, if_neg hc, hrest]
      · rw [if_neg hk, hrest]

end Content

namespace ExtentIndex

variable {t : ExtentIndex} {p : Nat}

theorem split_eq (t : ExtentIndex) (p : Nat) : split t p = extents.split t p := by
  induction t with
  | nil => rfl
  | node l item r h n ihl ihr =>
    rw [split, Cutting.split, ihl, ihr]
    rfl

structure Valid (t : ExtentIndex) : Prop where
  ordered : Ordered t.toList
  balanced : t.Balanced

theorem Valid.nil : Valid .nil := ⟨.nil, trivial⟩

variable {next : Extent} {b start stop : Nat}

theorem Valid.toList_replace (h : Valid t) (next : Extent) : (replace t next).toList =
    t.toList.filterMap (extents.below next.start) ++
      next :: (t.toList.filterMap (extents.above next.start)).filterMap (extents.above next.stop) := by
  have hcut := Cutting.toList_split (c := extents) h.ordered next.start
  have hright : Ordered (extents.split t next.start).2.toList := by
    rw [hcut.2]
    exact Cutting.Ordered.above (c := extents) h.ordered _
  rw [replace, split_eq, split_eq, JoinTree.toList_join, (Cutting.toList_split (c := extents) hright next.stop).2,
    hcut.1, hcut.2]

theorem Valid.replace (h : Valid t) (next : Extent) : Valid (replace t next) where
  ordered := by
    rw [h.toList_replace]
    have hordered : extents.Ordered t.toList := h.ordered
    refine ordered_append_cons.mpr ⟨hordered.below _, (hordered.above _).above _, fun a ha => ?_, fun a ha => ?_⟩
    · obtain ⟨e, _, he⟩ := List.mem_filterMap.mp ha
      exact Nat.le_trans (Nat.le_of_eq (Cutting.below_bounds he).2.1) (Nat.min_le_right ..)
    · obtain ⟨e, _, he⟩ := List.mem_filterMap.mp ha
      exact Nat.le_trans (Nat.le_max_right ..) (Nat.le_of_eq (Cutting.above_bounds he).1.symm)
  balanced := by
    have hcut := Cutting.split_balanced (c := extents) h.balanced next.start
    rw [ExtentIndex.replace, split_eq, split_eq]
    exact (JoinTree.join_balanced _ _ _ hcut.1 (Cutting.split_balanced hcut.2 next.stop).2).1

/-- The run replaces what the index held in its range, and nothing else. -/
theorem Valid.contentOf_replace (h : Valid t) (next : Extent) (b : Nat) :
    contentOf (ExtentIndex.replace t next).toList b =
      if next.covers b then some (next.byte b, next.generation) else contentOf t.toList b := by
  have hne := next.nonempty
  rw [h.toList_replace, contentOf_eq]
  refine Cutting.held_around (Cutting.held_below extents_keeps) ?_
  rw [Cutting.held_above extents_keeps, Cutting.held_above extents_keeps]
  by_cases hb : next.stop ≤ b
  · rw [if_pos hb, if_pos (by omega)]
    exact (if_pos hb).symm
  · rw [if_neg hb]
    exact (if_neg hb).symm

theorem visit_eq (ho : Ordered t.toList) :
    visit start stop t = t.toList.filter fun e => decide (e.start < stop ∧ start < e.stop) := by
  induction t with
  | nil => rfl
  | node l item r h n ihl ihr =>
    rw [JoinTree.toList] at ho ⊢
    obtain ⟨hol, hor, hlb, hrb⟩ := ordered_append_cons.mp ho
    have hne := item.nonempty
    rw [visit, filter_append]
    by_cases hhi : stop ≤ item.start
    · have hright : r.toList.filter (fun e => decide (e.start < stop ∧ start < e.stop)) = [] := by
        refine filter_eq_nil_iff.mpr fun c hc hov => ?_
        have hov := of_decide_eq_true hov
        have := hrb c hc
        omega
      rw [if_pos hhi, filter_cons_of_neg (by simp; omega), hright, append_nil, ihl hol]
    · rw [if_neg hhi]
      by_cases hlo : item.stop ≤ start
      · have hleft : l.toList.filter (fun e => decide (e.start < stop ∧ start < e.stop)) = [] := by
          refine filter_eq_nil_iff.mpr fun c hc hov => ?_
          have hov := of_decide_eq_true hov
          have := hlb c hc
          omega
        rw [if_pos hlo, filter_cons_of_neg (by simp; omega), hleft, nil_append, ihr hor]
      · rw [if_neg hlo, filter_cons_of_pos (by simp; omega), ihl hol, ihr hor]

theorem Valid.between (h : Valid t) (start stop : Nat) : between t start stop =
    if start < stop then t.toList.filter fun e => decide (e.start < stop ∧ start < e.stop) else [] := by
  rw [ExtentIndex.between]
  by_cases hlt : start < stop
  · rw [if_pos hlt, if_pos hlt, visit_eq h.ordered]
  · rw [if_neg hlt, if_neg hlt]

theorem Valid.all (h : Valid t) : all t = t.toList := by
  rw [ExtentIndex.all, h.between, if_pos (by omega), filter_eq_self]
  intro e _
  have hne := e.nonempty
  have hb := e.bounded
  exact decide_eq_true ⟨by omega, by omega⟩

theorem retain_fold (through : Nat) (items : List Extent) (kept : ExtentIndex) (hk : kept.Balanced) :
    (items.foldl (fun kept item => if item.generation > through then kept.join item .nil else kept) kept).Balanced ∧
      (items.foldl (fun kept item => if item.generation > through then kept.join item .nil else kept) kept).toList =
        kept.toList ++ items.filter fun e => decide (through < e.generation) := by
  induction items generalizing kept with
  | nil => exact ⟨hk, by simp⟩
  | cons e items ih =>
    rw [foldl_cons]
    by_cases hg : e.generation > through
    · rw [if_pos hg, filter_cons_of_pos (by simpa using hg)]
      obtain ⟨hb, hl⟩ := ih (kept.join e .nil) (JoinTree.join_balanced kept e .nil hk trivial).1
      refine ⟨hb, ?_⟩
      rw [hl, JoinTree.toList_join, JoinTree.toList_nil, append_assoc, singleton_append]
    · rw [if_neg hg, filter_cons_of_neg (by simpa using hg)]
      exact ih kept hk

theorem Valid.toList_retain (h : Valid t) (through : Nat) :
    (retain t through).toList = t.toList.filter fun e => decide (through < e.generation) := by
  rw [retain, h.all]
  exact (retain_fold through t.toList .nil trivial).2

theorem Valid.retain (h : Valid t) (through : Nat) : Valid (retain t through) where
  ordered := by
    rw [h.toList_retain]
    exact h.ordered.filter _
  balanced := by
    rw [ExtentIndex.retain, h.all]
    exact (retain_fold through t.toList .nil trivial).1

theorem Valid.contentOf_retain (h : Valid t) (through b : Nat) : contentOf (ExtentIndex.retain t through).toList b =
    (contentOf t.toList b).filter fun x => decide (through < x.2) := by
  rw [h.toList_retain]
  exact h.ordered.contentOf_filter fun g => decide (through < g)

end ExtentIndex

end Sproutfs.Volume

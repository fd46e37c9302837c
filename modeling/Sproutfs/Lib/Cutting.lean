import Sproutfs.Lib.JoinTree

/-!
# Runs of positions that are cut

A run covers the positions from its start to its stop. A cut at a position keeps of every run the part on
its side: `below` and `above` are what is left of one run, and `split` cuts a tree of runs in order.
-/

structure Cutting (α : Type*) where
  start : α → Nat
  stop : α → Nat
  before : ∀ a p, start a < p → p < stop a → α
  after : ∀ a p, start a < p → p < stop a → α
  nonempty : ∀ a, start a < stop a
  start_before : ∀ a p h h', start (before a p h h') = start a
  stop_before : ∀ a p h h', stop (before a p h h') = p
  start_after : ∀ a p h h', start (after a p h h') = p
  stop_after : ∀ a p h h', stop (after a p h h') = stop a

namespace Cutting

variable {α β : Type*} (c : Cutting α)

abbrev Covers (a : α) (b : Nat) : Prop := c.start a ≤ b ∧ b < c.stop a

/-- In order, and apart. -/
abbrev Ordered (items : List α) : Prop := items.Pairwise fun a b => c.stop a ≤ c.start b

/-- What is left of a run below a position. -/
def below (p : Nat) (a : α) : Option α :=
  if h : p ≤ c.start a then none
  else if h' : c.stop a ≤ p then some a
  else some (c.before a p (Nat.lt_of_not_le h) (Nat.lt_of_not_le h'))

/-- What is left of a run from a position on. -/
def above (p : Nat) (a : α) : Option α :=
  if h : p ≤ c.start a then some a
  else if h' : c.stop a ≤ p then none
  else some (c.after a p (Nat.lt_of_not_le h) (Nat.lt_of_not_le h'))

/-- Cut a tree of runs at a position, and the run the position lies in with it. -/
def split : JoinTree α → Nat → JoinTree α × JoinTree α
  | .nil, _ => (.nil, .nil)
  | .node l a r _ _, p =>
    if h : p ≤ c.start a then ((split l p).1, (split l p).2.join a r)
    else if h' : c.stop a ≤ p then (l.join a (split r p).1, (split r p).2)
    else
      (l.join (c.before a p (Nat.lt_of_not_le h) (Nat.lt_of_not_le h')) .nil,
        JoinTree.nil.join (c.after a p (Nat.lt_of_not_le h) (Nat.lt_of_not_le h')) r)

/-- What the runs give a position, by what each gives it. -/
def held (value : α → Nat → β) (items : List α) (b : Nat) : Option β :=
  (items.find? fun a => decide (c.Covers a b)).map (value · b)

/-- Cutting a run changes nothing of what it gives the positions it keeps. -/
structure Keeps (value : α → Nat → β) : Prop where
  before : ∀ a p h h' b, b < p → value (c.before a p h h') b = value a b
  after : ∀ a p h h' b, p ≤ b → value (c.after a p h h') b = value a b

variable {c} {a a' : α} {items l m : List α} {p b : Nat} {value : α → Nat → β}

/-! ## One run -/

theorem below_of_le (h : p ≤ c.start a) : c.below p a = none := dif_pos h

theorem below_of_ge (h : c.stop a ≤ p) : c.below p a = some a := by
  have := c.nonempty a
  rw [below, dif_neg (by omega), dif_pos h]

theorem above_of_le (h : p ≤ c.start a) : c.above p a = some a := dif_pos h

theorem above_of_ge (h : c.stop a ≤ p) : c.above p a = none := by
  have := c.nonempty a
  rw [above, dif_neg (by omega), dif_pos h]

theorem below_bounds (h : c.below p a = some a') :
    c.start a' = c.start a ∧ c.stop a' = min (c.stop a) p ∧ c.start a < p := by
  unfold below at h
  split at h
  · cases h
  · split at h <;> cases h
    · omega
    · rw [c.start_before, c.stop_before]
      omega

theorem above_bounds (h : c.above p a = some a') :
    c.start a' = max (c.start a) p ∧ c.stop a' = c.stop a ∧ p < c.stop a := by
  have := c.nonempty a
  unfold above at h
  split at h
  · cases h
    omega
  · split at h <;> cases h
    rw [c.start_after, c.stop_after]
    omega

theorem Keeps.below (hv : c.Keeps value) (h : c.below p a = some a') (hb : b < p) : value a' b = value a b := by
  unfold Cutting.below at h
  split at h
  · cases h
  · split at h <;> cases h
    · rfl
    · exact hv.before _ _ _ _ _ hb

theorem Keeps.above (hv : c.Keeps value) (h : c.above p a = some a') (hb : p ≤ b) : value a' b = value a b := by
  unfold Cutting.above at h
  split at h
  · cases h
    rfl
  · split at h <;> cases h
    exact hv.after _ _ _ _ _ hb

/-! ## What runs hold -/

@[simp] theorem held_nil : c.held value [] b = none := rfl

theorem held_cons : c.held value (a :: items) b = if c.Covers a b then some (value a b) else c.held value items b := by
  by_cases h : c.Covers a b
  · simp [held, h.1, h.2]
  · rw [if_neg h, held, List.find?_cons_of_neg (by simpa using h), held]

theorem held_append : c.held value (l ++ m) b = (c.held value l b).or (c.held value m b) := by
  rw [held, List.find?_append, held, held]
  cases l.find? fun a => decide (c.Covers a b) <;> rfl

theorem held_none (h : ∀ a ∈ items, ¬ c.Covers a b) : c.held value items b = none := by
  rw [held, Option.map_eq_none_iff, List.find?_eq_none]
  intro a ha
  simpa using h a ha

/-- Runs that are each cut to where `keep` holds, or left out where nothing is kept of them. -/
theorem held_filterMap {f : α → Option α} {keep : Prop} [Decidable keep]
    (hnone : ∀ a, f a = none → keep → ¬ c.Covers a b)
    (hsome : ∀ a a', f a = some a' → (c.Covers a' b ↔ keep ∧ c.Covers a b) ∧ (keep → value a' b = value a b)) :
    c.held value (items.filterMap f) b = if keep then c.held value items b else none := by
  induction items with
  | nil => simp
  | cons a items ih =>
    rw [held_cons]
    cases hf : f a with
    | none =>
      rw [List.filterMap_cons_none hf, ih]
      by_cases hk : keep
      · rw [if_pos hk, if_pos hk, if_neg (hnone a hf hk)]
      · rw [if_neg hk, if_neg hk]
    | some a' =>
      obtain ⟨hcovers, hvalue⟩ := hsome a a' hf
      rw [List.filterMap_cons_some hf, held_cons, ih]
      by_cases hk : keep
      · simp only [hcovers, hk, true_and, if_true, hvalue hk]
      · simp only [hcovers, hk, false_and, if_false]

theorem held_below (hv : c.Keeps value) :
    c.held value (items.filterMap (c.below p)) b = if b < p then c.held value items b else none := by
  refine held_filterMap (fun a hnone hb => ?_) fun a a' ha => ⟨?_, hv.below ha⟩
  · by_contra hc
    rcases Nat.lt_or_ge (c.start a) p with hlt | hge
    · unfold below at hnone
      rw [dif_neg (Nat.not_le.mpr hlt)] at hnone
      split at hnone <;> cases hnone
    · omega
  · obtain ⟨h1, h2, -⟩ := below_bounds ha
    omega

theorem held_above (hv : c.Keeps value) :
    c.held value (items.filterMap (c.above p)) b = if p ≤ b then c.held value items b else none := by
  refine held_filterMap (fun a hnone hb => ?_) fun a a' ha => ⟨?_, hv.above ha⟩
  · by_contra hc
    unfold above at hnone
    rw [dif_neg (fun h => by rw [dif_pos h] at hnone; cases hnone), dif_neg (by omega)] at hnone
    cases hnone
  · obtain ⟨h1, h2, -⟩ := above_bounds ha
    omega

/-- A run between what is left of others holds its range, and they what is outside it. -/
theorem held_around {x : Option β} (hl : c.held value l b = if b < c.start a then x else none)
    (hm : c.held value m b = if c.stop a ≤ b then x else none) :
    c.held value (l ++ a :: m) b = if c.Covers a b then some (value a b) else x := by
  have := c.nonempty a
  rw [held_append, held_cons, hl, hm]
  by_cases hc : c.Covers a b
  · rw [if_pos hc, if_pos hc, if_neg (by omega), Option.none_or]
  · rw [if_neg hc, if_neg hc]
    by_cases hb : b < c.start a
    · rw [if_pos hb, if_neg (by omega), Option.or_none]
    · rw [if_neg hb, if_pos (by omega), Option.none_or]

/-! ## Runs in order -/

theorem ordered_append_cons : c.Ordered (l ++ a :: m) ↔
    c.Ordered l ∧ c.Ordered m ∧ (∀ x ∈ l, c.stop x ≤ c.start a) ∧ ∀ x ∈ m, c.stop a ≤ c.start x := by
  rw [Ordered, List.pairwise_append, List.pairwise_cons]
  constructor
  · rintro ⟨hl, ⟨ham, hm⟩, hlm⟩
    exact ⟨hl, hm, fun x hx => hlm x hx a List.mem_cons_self, ham⟩
  · rintro ⟨hl, hm, hla, ham⟩
    refine ⟨hl, ⟨ham, hm⟩, fun x hx y hy => ?_⟩
    have hx := hla x hx
    rcases List.mem_cons.mp hy with rfl | hy
    · exact hx
    · have hy := ham y hy
      have := c.nonempty a
      omega

theorem Ordered.below (h : c.Ordered items) (p : Nat) : c.Ordered (items.filterMap (c.below p)) := by
  refine List.Pairwise.filterMap _ (fun a b hab a' ha' b' hb' => ?_) h
  have ha := below_bounds ha'
  have hb := below_bounds hb'
  omega

theorem Ordered.above (h : c.Ordered items) (p : Nat) : c.Ordered (items.filterMap (c.above p)) := by
  refine List.Pairwise.filterMap _ (fun a b hab a' ha' b' hb' => ?_) h
  have ha := above_bounds ha'
  have hb := above_bounds hb'
  omega

theorem filterMap_all {f : α → Option α} (h : ∀ a ∈ items, f a = some a) : items.filterMap f = items := by
  rw [List.filterMap_congr h, List.filterMap_some]

theorem filterMap_none {f : α → Option α} (h : ∀ a ∈ items, f a = none) : items.filterMap f = [] :=
  List.filterMap_eq_nil_iff.mpr h

theorem toList_split {t : JoinTree α} (ho : c.Ordered t.toList) (p : Nat) :
    (c.split t p).1.toList = t.toList.filterMap (c.below p) ∧
      (c.split t p).2.toList = t.toList.filterMap (c.above p) := by
  induction t with
  | nil => exact ⟨rfl, rfl⟩
  | node l a r h n ihl ihr =>
    rw [JoinTree.toList] at ho ⊢
    obtain ⟨hol, hor, hlb, hrb⟩ := ordered_append_cons.mp ho
    have hne := c.nonempty a
    rw [List.filterMap_append, List.filterMap_append, split]
    -- One side of the item is whole on its own side of the cut.
    have hleft : c.start a < p → l.toList.filterMap (c.below p) = l.toList ∧ l.toList.filterMap (c.above p) = [] :=
      fun hlt => ⟨filterMap_all fun x hx => below_of_ge (by have := hlb x hx; omega),
        filterMap_none fun x hx => above_of_ge (by have := hlb x hx; omega)⟩
    have hright : p < c.stop a → r.toList.filterMap (c.below p) = [] ∧ r.toList.filterMap (c.above p) = r.toList :=
      fun hlt => ⟨filterMap_none fun x hx => below_of_le (by have := hrb x hx; omega),
        filterMap_all fun x hx => above_of_le (by have := hrb x hx; omega)⟩
    by_cases hlo : p ≤ c.start a
    · obtain ⟨h1, h2⟩ := ihl hol
      obtain ⟨hr1, hr2⟩ := hright (by omega)
      rw [dif_pos hlo, List.filterMap_cons_none (below_of_le hlo), hr1, List.filterMap_cons_some (above_of_le hlo), hr2]
      exact ⟨by rw [h1, List.append_nil], by rw [JoinTree.toList_join, h2]⟩
    · obtain ⟨hl1, hl2⟩ := hleft (by omega)
      rw [dif_neg hlo, hl1, hl2, List.nil_append]
      by_cases hhi : c.stop a ≤ p
      · obtain ⟨h1, h2⟩ := ihr hor
        rw [dif_pos hhi, List.filterMap_cons_some (below_of_ge hhi), List.filterMap_cons_none (above_of_ge hhi)]
        exact ⟨by rw [JoinTree.toList_join, h1], h2⟩
      · obtain ⟨hr1, hr2⟩ := hright (by omega)
        rw [dif_neg hhi, List.filterMap_cons_some (by rw [below, dif_neg hlo, dif_neg hhi]), hr1,
          List.filterMap_cons_some (by rw [above, dif_neg hlo, dif_neg hhi]), hr2]
        exact ⟨by rw [JoinTree.toList_join, JoinTree.toList_nil], by rw [JoinTree.toList_join, JoinTree.toList_nil]; rfl⟩

theorem split_balanced {t : JoinTree α} (hb : t.Balanced) (p : Nat) :
    (c.split t p).1.Balanced ∧ (c.split t p).2.Balanced := by
  induction t with
  | nil => exact ⟨hb, hb⟩
  | node l a r h n ihl ihr =>
    obtain ⟨hl, hr, -⟩ := hb
    rw [split]
    by_cases hlo : p ≤ c.start a
    · rw [dif_pos hlo]
      exact ⟨(ihl hl).1, (JoinTree.join_balanced _ _ _ (ihl hl).2 hr).1⟩
    · rw [dif_neg hlo]
      by_cases hhi : c.stop a ≤ p
      · rw [dif_pos hhi]
        exact ⟨(JoinTree.join_balanced _ _ _ hl (ihr hr).1).1, (ihr hr).2⟩
      · rw [dif_neg hhi]
        exact ⟨(JoinTree.join_balanced l _ .nil hl trivial).1, (JoinTree.join_balanced .nil _ r trivial hr).1⟩

end Cutting

import Mathlib.Data.Finset.Card
import Mathlib.Data.Finset.Range
import Sproutfs.Lib.Cutting

/-!
# Maximal runs of one value

A value for each position, kept as runs in order of which no two side by side hold the same. A run that
replaces a range joins the neighbours that hold its value, and so the runs stay maximal.
-/

structure Run (β : Type*) where
  start : Nat
  stop : Nat
  value : β
  nonempty : start < stop

namespace Run

variable {β : Type*}

def cuts : Cutting (Run β) where
  start := Run.start
  stop := Run.stop
  before r p h _ := { r with stop := p, nonempty := h }
  after r p _ h := { r with start := p, nonempty := h }
  nonempty := Run.nonempty
  start_before _ _ _ _ := rfl
  stop_before _ _ _ _ := rfl
  start_after _ _ _ _ := rfl
  stop_after _ _ _ _ := rfl

abbrev Covers (r : Run β) (p : Nat) : Prop := r.start ≤ p ∧ p < r.stop

/-- Apart, or side by side with different values. -/
def Apart (a b : Run β) : Prop := a.stop < b.start ∨ a.stop = b.start ∧ a.value ≠ b.value

abbrev Maximal (rs : List (Run β)) : Prop := rs.Pairwise Apart

def below (p : Nat) (rs : List (Run β)) : List (Run β) := rs.filterMap (cuts.below p)

def above (p : Nat) (rs : List (Run β)) : List (Run β) := rs.filterMap (cuts.above p)

/-- The value of a position, if a run covers it. -/
def held (rs : List (Run β)) (p : Nat) : Option β := cuts.held (fun r _ => r.value) rs p

variable {rs l l' r r' : List (Run β)} {a b m m' : Run β} {p q : Nat}

theorem keeps : cuts.Keeps fun (r : Run β) _ => r.value := ⟨fun _ _ _ _ _ _ => rfl, fun _ _ _ _ _ _ => rfl⟩

theorem held_cons : held (a :: rs) p = if a.Covers p then some a.value else held rs p := Cutting.held_cons

theorem held_append : held (l ++ r) p = (held l p).or (held r p) := Cutting.held_append

theorem held_below : held (below p rs) q = if q < p then held rs q else none := Cutting.held_below keeps

theorem held_above : held (above p rs) q = if p ≤ q then held rs q else none := Cutting.held_above keeps

theorem Apart.le (h : Apart a b) : a.stop ≤ b.start := h.elim Nat.le_of_lt fun h => Nat.le_of_eq h.1

theorem Apart.mono {a' b' : Run β} (h : Apart a b) (ha : a'.stop ≤ a.stop) (hb : b.start ≤ b'.start)
    (hva : a'.value = a.value) (hvb : b'.value = b.value) : Apart a' b' := by
  rcases h with h | ⟨h, hne⟩
  · exact .inl (by omega)
  · rcases Nat.lt_or_ge a'.stop b'.start with hlt | hge
    · exact .inl hlt
    · exact .inr ⟨by omega, by rwa [hva, hvb]⟩

theorem Maximal.ordered (h : Maximal rs) : cuts.Ordered rs := h.imp Apart.le

/-- A position that a maximal run covers has its value. -/
theorem Maximal.held_of_mem (h : Maximal rs) (ha : a ∈ rs) (hc : a.Covers p) : held rs p = some a.value := by
  induction rs with
  | nil => cases ha
  | cons b rs ih =>
    obtain ⟨hb, h⟩ := List.pairwise_cons.mp h
    rw [held_cons]
    rcases List.mem_cons.mp ha with rfl | ha
    · rw [if_pos hc]
    · have hle := (hb a ha).le
      rw [if_neg (by omega), ih h ha]

theorem mem_of_held {v : β} (h : held rs p = some v) : ∃ a ∈ rs, a.Covers p ∧ a.value = v := by
  obtain ⟨a, ha, hv⟩ := Option.map_eq_some_iff.mp h
  have hc := List.find?_some ha
  exact ⟨a, List.mem_of_find?_eq_some ha, of_decide_eq_true hc, hv⟩

theorem Maximal.below (h : Maximal rs) (p : Nat) : Maximal (below p rs) := by
  refine List.Pairwise.filterMap _ (fun a b hab a' ha b' hb => ?_) h
  have h1 := Cutting.below_bounds ha
  have h2 := Cutting.below_bounds hb
  exact hab.mono (Nat.le_trans (Nat.le_of_eq h1.2.1) (Nat.min_le_left ..)) (Nat.le_of_eq h2.1.symm)
    (keeps.below ha h1.2.2) (keeps.below hb h2.2.2)

theorem Maximal.above (h : Maximal rs) (p : Nat) : Maximal (above p rs) := by
  refine List.Pairwise.filterMap _ (fun a b hab a' ha b' hb => ?_) h
  have h1 := Cutting.above_bounds ha
  have h2 := Cutting.above_bounds hb
  exact hab.mono (Nat.le_of_eq h1.2.1) (Nat.le_trans (Nat.le_max_left ..) (Nat.le_of_eq h2.1.symm))
    (keeps.above ha (Nat.le_refl p)) (keeps.above hb (Nat.le_refl p))

theorem stop_le_of_below (ha : a ∈ below p rs) : a.stop ≤ p := by
  obtain ⟨b, -, hb⟩ := List.mem_filterMap.mp ha
  exact Nat.le_trans (Nat.le_of_eq (Cutting.below_bounds hb).2.1) (Nat.min_le_right ..)

theorem le_start_of_above (ha : a ∈ above p rs) : p ≤ a.start := by
  obtain ⟨b, -, hb⟩ := List.mem_filterMap.mp ha
  exact Nat.le_trans (Nat.le_max_right ..) (Nat.le_of_eq (Cutting.above_bounds hb).1.symm)

/-! ## A run between others -/

/-- Room for a run: what is on its two sides is maximal and outside it. -/
structure Room (l : List (Run β)) (m : Run β) (r : List (Run β)) : Prop where
  left : Maximal l
  right : Maximal r
  before : ∀ a ∈ l, a.stop ≤ m.start
  after : ∀ a ∈ r, m.stop ≤ a.start

/-- The run takes in the last one before it where that touches it and holds its value. -/
inductive JoinsLeft (l : List (Run β)) (m : Run β) : List (Run β) → Run β → Prop where
  | apart (h : ∀ t, l.getLast? = some t → t.stop = m.start → t.value ≠ m.value) : JoinsLeft l m l m
  | joins (l' : List (Run β)) (t m' : Run β) (hl : l = l' ++ [t]) (ht : t.stop = m.start) (hv : t.value = m.value)
    (hstart : m'.start = t.start) (hstop : m'.stop = m.stop) (hvalue : m'.value = m.value) : JoinsLeft l m l' m'

inductive JoinsRight (m : Run β) (r : List (Run β)) : Run β → List (Run β) → Prop where
  | apart (h : ∀ t, r.head? = some t → m.stop = t.start → t.value ≠ m.value) : JoinsRight m r m r
  | joins (t m' : Run β) (r' : List (Run β)) (hr : r = t :: r') (ht : m.stop = t.start) (hv : t.value = m.value)
    (hstart : m'.start = m.start) (hstop : m'.stop = t.stop) (hvalue : m'.value = m.value) : JoinsRight m r m' r'

/-- Two runs of one value that touch hold what one run over both does. -/
theorem held_touching (ht : a.stop = b.start) (hstart : m.start = a.start) (hstop : m.stop = b.stop)
    (ha : a.value = m.value) (hb : b.value = m.value) : held (a :: b :: rs) p = held (m :: rs) p := by
  have := a.nonempty
  have := b.nonempty
  rw [held_cons, held_cons, held_cons, ha, hb]
  by_cases hm : m.Covers p
  · rw [if_pos hm]
    by_cases hp : a.Covers p
    · rw [if_pos hp]
    · rw [if_neg hp, if_pos (by omega)]
  · rw [if_neg hm, if_neg (by omega), if_neg (by omega)]

theorem JoinsLeft.spec (h : JoinsLeft l m l' m') (hroom : Room l m r) :
    Room l' m' r ∧ (∀ a ∈ l', Apart a m') ∧ l'.length ≤ l.length ∧ m'.value = m.value ∧
      ∀ p, held (l' ++ m' :: r) p = held (l ++ m :: r) p := by
  cases h with
  | apart h =>
    refine ⟨hroom, fun a ha => ?_, Nat.le_refl _, rfl, fun _ => rfl⟩
    obtain ⟨l₁, l₂, rfl⟩ := List.append_of_mem ha
    have hle := hroom.before a ha
    by_cases heq : a.stop = m.start
    · -- No run lies between this one and the new one, so it is the last.
      cases l₂ with
      | nil => exact .inr ⟨heq, h a (by simp) heq⟩
      | cons b l₂ =>
        have hb := hroom.before b (by simp)
        have hab := (List.pairwise_cons.mp (List.pairwise_append.mp hroom.left).2.1).1 b List.mem_cons_self
        have := hab.le
        have := b.nonempty
        omega
    · exact .inl (by omega)
  | joins l' t m' hl ht hv hstart hstop hvalue =>
    subst hl
    obtain ⟨hl', -, hlt⟩ := List.pairwise_append.mp hroom.left
    have hlt := fun a ha => hlt a ha t List.mem_cons_self
    refine ⟨⟨hl', hroom.right, fun a ha => hstart ▸ (hlt a ha).le, fun a ha => hstop ▸ hroom.after a ha⟩, fun a ha => ?_,
      by simp, hvalue, fun p => ?_⟩
    · exact (hlt a ha).mono (Nat.le_refl _) (Nat.le_of_eq hstart.symm) rfl (hvalue.trans hv.symm)
    · rw [List.append_assoc, List.singleton_append, held_append, held_append,
        held_touching ht hstart hstop (hv.trans hvalue.symm) hvalue.symm]

theorem JoinsRight.spec (h : JoinsRight m r m' r') (hroom : Room l m r) (hl : ∀ a ∈ l, Apart a m) :
    Room l m' r' ∧ (∀ a ∈ l, Apart a m') ∧ (∀ a ∈ r', Apart m' a) ∧ r'.length ≤ r.length ∧ m'.value = m.value ∧
      ∀ p, held (l ++ m' :: r') p = held (l ++ m :: r) p := by
  cases h with
  | apart h =>
    refine ⟨hroom, hl, fun a ha => ?_, Nat.le_refl _, rfl, fun _ => rfl⟩
    have hle := hroom.after a ha
    cases r with
    | nil => cases ha
    | cons t r =>
      rcases List.mem_cons.mp ha with rfl | ha
      · by_cases heq : m.stop = a.start
        · exact .inr ⟨heq, (h a rfl heq).symm⟩
        · exact .inl (by omega)
      · have ht := hroom.after t List.mem_cons_self
        have hta := ((List.pairwise_cons.mp hroom.right).1 a ha).le
        have := t.nonempty
        exact .inl (by omega)
  | joins t m' r' hr ht hv hstart hstop hvalue =>
    subst hr
    obtain ⟨htr, hr'⟩ := List.pairwise_cons.mp hroom.right
    refine ⟨⟨hroom.left, hr', fun a ha => hstart ▸ hroom.before a ha, fun a ha => hstop ▸ (htr a ha).le⟩, fun a ha => ?_,
      fun a ha => ?_, by simp, hvalue, fun p => ?_⟩
    · exact (hl a ha).mono (Nat.le_refl _) (Nat.le_of_eq hstart.symm) rfl hvalue
    · exact (htr a ha).mono (Nat.le_of_eq hstop) (Nat.le_refl _) (hvalue.trans hv.symm) rfl
    · rw [held_append, held_append, held_touching ht hstart hstop hvalue.symm (hv.trans hvalue.symm)]

/-- A run with room, joined to its neighbours. -/
theorem Room.joined {m₁ m₂ : Run β} {l₁ r₁ : List (Run β)} (hroom : Room l m r) (hleft : JoinsLeft l m l₁ m₁)
    (hright : JoinsRight m₁ r m₂ r₁) : Maximal (l₁ ++ m₂ :: r₁) ∧ (∀ p, held (l₁ ++ m₂ :: r₁) p = held (l ++ m :: r) p) ∧
      m₂.value = m.value ∧ l₁.length + r₁.length ≤ l.length + r.length := by
  obtain ⟨hroom, hl, hlen, hvalue, hheld⟩ := hleft.spec hroom
  obtain ⟨hroom, hl, hr, hlen', hvalue', hheld'⟩ := hright.spec hroom hl
  refine ⟨List.pairwise_append.mpr ⟨hroom.left, List.pairwise_cons.mpr ⟨hr, hroom.right⟩, fun a ha b hb => ?_⟩,
    fun p => (hheld' p).trans (hheld p), hvalue'.trans hvalue, by omega⟩
  rcases List.mem_cons.mp hb with rfl | hb
  · exact hl a ha
  · have h1 := hroom.before a ha
    have h2 := hroom.after b hb
    have := m₂.nonempty
    exact .inl (by omega)

theorem below_concat (h : Maximal (l ++ [a])) : below a.start (l ++ [a]) = l := by
  obtain ⟨-, -, hla⟩ := List.pairwise_append.mp h
  rw [below, List.filterMap_append, Cutting.filterMap_all, Cutting.filterMap_none, List.append_nil]
  · intro b hb
    cases List.mem_singleton.mp hb
    exact Cutting.below_of_le (Nat.le_refl _)
  · exact fun b hb => Cutting.below_of_ge (hla b hb a List.mem_cons_self).le

theorem above_cons (h : Maximal (a :: r)) : above a.stop (a :: r) = r := by
  obtain ⟨har, -⟩ := List.pairwise_cons.mp h
  have hnone : cuts.above a.stop a = none := Cutting.above_of_ge (Nat.le_refl _)
  rw [above, List.filterMap_cons_none hnone, Cutting.filterMap_all]
  exact fun b hb => Cutting.above_of_le (har b hb).le

/-- The position after a maximal run does not have its value. -/
theorem Maximal.held_stop (h : Maximal rs) (ha : a ∈ rs) : held rs a.stop ≠ some a.value := by
  induction rs with
  | nil => cases ha
  | cons b rs ih =>
    obtain ⟨hb, h⟩ := List.pairwise_cons.mp h
    rw [held_cons]
    rcases List.mem_cons.mp ha with rfl | ha
    · rw [if_neg (by omega)]
      intro heq
      obtain ⟨c, hc, hcovers, hvalue⟩ := mem_of_held heq
      rcases hb c hc with hlt | ⟨-, hne⟩
      · omega
      · exact hne hvalue.symm
    · have hle := (hb a ha).le
      have := a.nonempty
      rw [if_neg (by omega)]
      exact ih h ha

end Run

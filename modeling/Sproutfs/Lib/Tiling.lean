import Mathlib.Data.List.Basic
import Mathlib.Order.Basic

/-!
# Runs of intervals laid end to end on a ring

`Tiles first stop l a b`: the intervals of `l` are laid end to end from `a` to `b`, with no gap and
no overlap. On a ring of length `n` a position lies at its remainder, and two positions less than a
turn apart lie on different bytes.
-/

namespace Tiling

variable {α : Type*} (first stop : α → Nat) {a c b n p : Nat} {l : List α}

/-- The intervals of `l`, from `first x` to `stop x` each, lie end to end from `a` to `b`. -/
def Tiles : List α → Nat → Nat → Prop
  | [], a, b => a = b
  | x :: l, a, b => first x = a ∧ Tiles l (stop x) b

variable {first stop}

theorem tiles_append {m : List α} :
    Tiles first stop (l ++ m) a c ↔ ∃ b, Tiles first stop l a b ∧ Tiles first stop m b c := by
  induction l generalizing a with
  | nil => simp [Tiles]
  | cons x l ih => simp [Tiles, ih, and_assoc]

theorem tiles_concat {x : α} (h : Tiles first stop l a (first x)) (hc : stop x = c) :
    Tiles first stop (l ++ [x]) a c :=
  tiles_append.mpr ⟨first x, h, rfl, hc⟩

theorem Tiles.stop_unique (hb : Tiles first stop l a b) (hc : Tiles first stop l a c) : b = c := by
  induction l generalizing a with
  | nil => exact hb.symm.trans hc
  | cons x l ih => exact ih hb.2 hc.2

section Positive

variable (hpos : ∀ x, first x ≤ stop x)

include hpos

theorem Tiles.le (h : Tiles first stop l a b) : a ≤ b := by
  induction l generalizing a with
  | nil => exact Nat.le_of_eq h
  | cons x l ih =>
    have := ih h.2
    have := hpos x
    have := h.1
    omega

theorem Tiles.mem_bounds (h : Tiles first stop l a b) {x : α} (hx : x ∈ l) : a ≤ first x ∧ stop x ≤ b := by
  induction l generalizing a with
  | nil => simp at hx
  | cons y l ih =>
    have hy := hpos y
    have hle := Tiles.le hpos h.2
    have ha := h.1
    rcases List.mem_cons.mp hx with rfl | hx
    · omega
    · have := ih h.2 hx
      omega

theorem Tiles.pairwise (h : Tiles first stop l a b) (hlt : ∀ x ∈ l, first x < stop x) :
    l.Pairwise fun x y => first x < first y := by
  induction l generalizing a with
  | nil => exact .nil
  | cons x l ih =>
    refine .cons (fun y hy => ?_) (ih h.2 fun y hy => hlt y (List.mem_cons_of_mem _ hy))
    have hx := hlt x List.mem_cons_self
    have hy := (Tiles.mem_bounds hpos h.2 hy).1
    omega

/-- A run cut at two places: the part after the earlier cut begins with what lies between. -/
theorem Tiles.cut {l₁ l₂ m₁ m₂ : List α} {t u : Nat} (hlt : ∀ x ∈ l₁, first x < stop x)
    (h₁ : Tiles first stop l₁ a t) (h₂ : Tiles first stop l₂ t b) (g₁ : Tiles first stop m₁ a u)
    (heq : l₁ ++ l₂ = m₁ ++ m₂) (htu : t ≤ u) : ∃ k, l₂ = k ++ m₂ ∧ Tiles first stop k t u := by
  rcases List.append_eq_append_iff.mp heq with ⟨k, rfl, rfl⟩ | ⟨k, rfl, rfl⟩
  · obtain ⟨t', h, hk⟩ := tiles_append.mp g₁
    obtain rfl := h₁.stop_unique h
    exact ⟨k, rfl, hk⟩
  · obtain ⟨u', h, hk⟩ := tiles_append.mp h₁
    obtain rfl := g₁.stop_unique h
    cases k with
    | nil =>
      obtain rfl : u = t := hk
      exact ⟨[], rfl, rfl⟩
    | cons x k =>
      -- What would lie between the cuts takes room, so the later cut is not the earlier one.
      have hx := hlt x (List.mem_append_right _ List.mem_cons_self)
      have hle := Tiles.le hpos hk.2
      have := hk.1
      omega

end Positive

/-- Two positions less than a turn apart that lie on one byte of the ring are one position. -/
theorem eq_of_mod_eq {q : Nat} (hpq : p ≤ q) (hq : q < p + n) (h : p % n = q % n) : p = q := by
  have hdvd : n ∣ q - p := Nat.dvd_of_mod_eq_zero (Nat.sub_mod_eq_zero_of_mod_eq h.symm)
  have := Nat.eq_zero_of_dvd_of_lt hdvd (by omega)
  omega

/-- A step that does not cross the ring's end moves on by its length, or to the ring's start. -/
theorem add_mod_of_le {k : Nat} (h : p % n + k ≤ n) :
    (p + k) % n = if p % n + k = n then 0 else p % n + k := by
  rw [← Nat.mod_add_mod]
  split
  · next h => rw [h, Nat.mod_self]
  · exact Nat.mod_eq_of_lt (by omega)

end Tiling

import Mathlib.Algebra.Order.Ring.Nat
import Mathlib.Tactic.Positivity
import Mathlib.Tactic.Ring

/-!
# Binary logarithms by squaring

A number is `2 ^ r` times a mantissa between one and two, held with `w` bits after its point. Squaring the
mantissa doubles what is left of the logarithm, so each squaring gives one more bit of it. What the
truncated squares lose is bounded by a power of `1 + 2 ^ -w`.
-/

namespace BinaryLog

variable (w : Nat)

/-- One more bit: the square is halved where it is two or more. -/
def step (s : Nat × Nat) : Nat × Nat :=
  if 2 ^ (2 * w + 1) ≤ s.2 * s.2 then (2 * s.1 + 1, s.2 * s.2 / 2 ^ (w + 1))
  else (2 * s.1, s.2 * s.2 / 2 ^ w)

def run : Nat → Nat × Nat → Nat × Nat
  | 0, s => s
  | n + 1, s => run n (step w s)

def Mantissa (x : Nat) : Prop := 2 ^ w ≤ x ∧ x < 2 ^ (w + 1)

/-- The `p`-th power of `m` is at least what the state says, and above it by `e` roundings at most. -/
structure Encloses (m p e : Nat) (s : Nat × Nat) : Prop where
  mantissa : Mantissa w s.2
  lower : s.2 * 2 ^ s.1 ≤ m ^ p * 2 ^ w
  upper : m ^ p * 2 ^ w * (2 ^ w) ^ e ≤ s.2 * 2 ^ s.1 * (2 ^ w + 1) ^ e

/-- By bits, then by mantissa. -/
def Le (s t : Nat × Nat) : Prop := s.1 < t.1 ∨ s.1 = t.1 ∧ s.2 ≤ t.2

variable {w} {s t : Nat × Nat} {m p e n x : Nat}

theorem Mantissa.square (h : Mantissa w x) : 2 ^ (2 * w) ≤ x * x ∧ x * x < 2 ^ (2 * w + 2) := by
  have hlo := Nat.mul_le_mul h.1 h.1
  have hhi := Nat.mul_lt_mul'' h.2 h.2
  rw [← Nat.pow_add] at hlo hhi
  exact ⟨by rwa [Nat.two_mul], by rwa [show 2 * w + 2 = w + 1 + (w + 1) by omega]⟩

theorem step_mantissa (h : Mantissa w s.2) : Mantissa w (step w s).2 := by
  obtain ⟨hlo, hhi⟩ := h.square
  unfold step
  split
  case isTrue hcarry =>
    refine ⟨(Nat.le_div_iff_mul_le (Nat.two_pow_pos _)).mpr ?_, (Nat.div_lt_iff_lt_mul (Nat.two_pow_pos _)).mpr ?_⟩
    · rwa [← Nat.pow_add, show w + (w + 1) = 2 * w + 1 by omega]
    · rwa [← Nat.pow_add, show w + 1 + (w + 1) = 2 * w + 2 by omega]
  case isFalse hcarry =>
    refine ⟨(Nat.le_div_iff_mul_le (Nat.two_pow_pos _)).mpr ?_, (Nat.div_lt_iff_lt_mul (Nat.two_pow_pos _)).mpr ?_⟩
    · rwa [← Nat.pow_add, ← Nat.two_mul]
    · rw [← Nat.pow_add, show w + 1 + w = 2 * w + 1 by omega]
      exact Nat.not_le.mp hcarry

/-- A step squares what the state stands for, and truncates it. -/
theorem step_bounds (w : Nat) (s : Nat × Nat) :
    (step w s).2 * 2 ^ (step w s).1 * 2 ^ w ≤ (s.2 * 2 ^ s.1) ^ 2 ∧
      (s.2 * 2 ^ s.1) ^ 2 ≤ ((step w s).2 + 1) * 2 ^ (step w s).1 * 2 ^ w := by
  obtain ⟨d, hd, hx, hr⟩ : ∃ d, 0 < d ∧ (step w s).2 = s.2 * s.2 / d ∧
      2 ^ (step w s).1 * 2 ^ w = d * (2 ^ s.1) ^ 2 := by
    unfold step
    split
    · exact ⟨2 ^ (w + 1), Nat.two_pow_pos _, rfl, by ring⟩
    · exact ⟨2 ^ w, Nat.two_pow_pos _, rfl, by ring⟩
  rw [Nat.mul_assoc, Nat.mul_assoc, hr, hx, ← Nat.mul_assoc, ← Nat.mul_assoc, Nat.mul_pow, Nat.pow_two s.2]
  constructor
  · exact Nat.mul_le_mul_right _ (Nat.div_mul_le_self _ _)
  · rw [Nat.mul_comm (_ + 1)]
    exact Nat.mul_le_mul_right _ (Nat.lt_mul_div_succ _ hd).le

theorem Encloses.step (h : Encloses w m p e s) : Encloses w m (2 * p) (2 * e + 1) (step w s) := by
  have hx := step_mantissa h.mantissa
  obtain ⟨hlo, hhi⟩ := step_bounds w s
  have hround : ((BinaryLog.step w s).2 + 1) * 2 ^ w ≤ (BinaryLog.step w s).2 * (2 ^ w + 1) := by
    have := hx.1
    rw [Nat.add_mul, Nat.mul_add]
    omega
  refine ⟨hx, ?_, ?_⟩
  · refine Nat.le_of_mul_le_mul_right ?_ (Nat.two_pow_pos w)
    calc
      _ ≤ (s.2 * 2 ^ s.1) ^ 2 := hlo
      _ ≤ (m ^ p * 2 ^ w) ^ 2 := Nat.pow_le_pow_left h.lower 2
      _ = m ^ (2 * p) * 2 ^ w * 2 ^ w := by ring
  · calc
      m ^ (2 * p) * 2 ^ w * (2 ^ w) ^ (2 * e + 1) = (m ^ p * 2 ^ w * (2 ^ w) ^ e) ^ 2 := by ring
      _ ≤ (s.2 * 2 ^ s.1 * (2 ^ w + 1) ^ e) ^ 2 := Nat.pow_le_pow_left h.upper 2
      _ = (s.2 * 2 ^ s.1) ^ 2 * (2 ^ w + 1) ^ (2 * e) := by ring
      _ ≤ ((BinaryLog.step w s).2 + 1) * 2 ^ (BinaryLog.step w s).1 * 2 ^ w * (2 ^ w + 1) ^ (2 * e) :=
        Nat.mul_le_mul_right _ hhi
      _ = ((BinaryLog.step w s).2 + 1) * 2 ^ w * 2 ^ (BinaryLog.step w s).1 * (2 ^ w + 1) ^ (2 * e) := by ring
      _ ≤ (BinaryLog.step w s).2 * (2 ^ w + 1) * 2 ^ (BinaryLog.step w s).1 * (2 ^ w + 1) ^ (2 * e) :=
        Nat.mul_le_mul_right _ (Nat.mul_le_mul_right _ hround)
      _ = _ := by ring

theorem Encloses.run (h : Encloses w m p e s) (n : Nat) :
    Encloses w m (2 ^ n * p) (2 ^ n * (e + 1) - 1) (run w n s) := by
  induction n generalizing s p e with
  | zero => simpa [BinaryLog.run] using h
  | succ n ih =>
    have := ih h.step
    rwa [show 2 ^ n * (2 * p) = 2 ^ (n + 1) * p by ring,
      show 2 ^ n * (2 * e + 1 + 1) = 2 ^ (n + 1) * (e + 1) by ring] at this

/-- Few roundings less than double a number. -/
theorem succ_pow_le {N : Nat} (h : 2 * e ≤ N + 1) : (N + 1) ^ e ≤ 2 * N ^ e := by
  have hbernoulli : ∀ e, e ≤ N + 1 → (N + 1) ^ e * (N + 1 - e) ≤ N ^ e * (N + 1) := by
    intro e
    induction e with
    | zero => simp
    | succ e ih =>
      intro he
      obtain ⟨k, rfl⟩ : ∃ k, N = e + k := ⟨N - e, by omega⟩
      have ih := ih (by omega)
      rw [show e + k + 1 - e = k + 1 by omega] at ih
      rw [show e + k + 1 - (e + 1) = k by omega]
      calc
        (e + k + 1) ^ (e + 1) * k = (e + k + 1) ^ e * ((e + k + 1) * k) := by ring
        _ ≤ (e + k + 1) ^ e * ((e + k) * (k + 1)) := Nat.mul_le_mul_left _ (by ring_nf; omega)
        _ = (e + k) * ((e + k + 1) ^ e * (k + 1)) := by ring
        _ ≤ (e + k) * ((e + k) ^ e * (e + k + 1)) := Nat.mul_le_mul_left _ ih
        _ = _ := by ring
  refine Nat.le_of_mul_le_mul_right ?_ (show 0 < N + 1 by omega)
  calc
    (N + 1) ^ e * (N + 1) ≤ (N + 1) ^ e * (2 * (N + 1 - e)) := Nat.mul_le_mul_left _ (by omega)
    _ = 2 * ((N + 1) ^ e * (N + 1 - e)) := by ring
    _ ≤ 2 * (N ^ e * (N + 1)) := Nat.mul_le_mul_left _ (hbernoulli e (by omega))
    _ = _ := by ring

/-- The bits are the logarithm of the power, or one less. -/
theorem Encloses.bits (h : Encloses w m p e s) (he : 2 * e ≤ 2 ^ w + 1) :
    2 ^ s.1 ≤ m ^ p ∧ m ^ p < 2 ^ (s.1 + 2) := by
  constructor
  · refine Nat.le_of_mul_le_mul_right ?_ (Nat.two_pow_pos w)
    calc
      2 ^ s.1 * 2 ^ w ≤ 2 ^ s.1 * s.2 := Nat.mul_le_mul_left _ h.mantissa.1
      _ = s.2 * 2 ^ s.1 := Nat.mul_comm ..
      _ ≤ m ^ p * 2 ^ w := h.lower
  · refine Nat.lt_of_mul_lt_mul_right (a := 2 ^ w * (2 ^ w) ^ e) ?_
    calc
      m ^ p * (2 ^ w * (2 ^ w) ^ e) ≤ s.2 * 2 ^ s.1 * (2 ^ w + 1) ^ e := by
        rw [← Nat.mul_assoc]
        exact h.upper
      _ ≤ s.2 * 2 ^ s.1 * (2 * (2 ^ w) ^ e) := Nat.mul_le_mul_left _ (succ_pow_le he)
      _ = s.2 * (2 ^ s.1 * 2 * (2 ^ w) ^ e) := by ring
      _ < 2 ^ (w + 1) * (2 ^ s.1 * 2 * (2 ^ w) ^ e) :=
        Nat.mul_lt_mul_of_pos_right h.mantissa.2 (by positivity)
      _ = 2 ^ (s.1 + 2) * (2 ^ w * (2 ^ w) ^ e) := by ring

theorem Le.step (h : Le s t) : Le (step w s) (step w t) := by
  have hsmall : ∀ u, (BinaryLog.step w u).1 = 2 * u.1 ∨ (BinaryLog.step w u).1 = 2 * u.1 + 1 := by
    intro u
    unfold BinaryLog.step
    split
    · exact .inr rfl
    · exact .inl rfl
  rcases h with hlt | ⟨heq, hle⟩
  · have := hsmall s
    have := hsmall t
    exact .inl (by omega)
  · have hsq : s.2 * s.2 ≤ t.2 * t.2 := Nat.mul_le_mul hle hle
    unfold BinaryLog.step
    split
    · rw [if_pos (by omega)]
      exact .inr ⟨by rw [heq], Nat.div_le_div_right hsq⟩
    · split
      · exact .inl (by simp [heq])
      · exact .inr ⟨by rw [heq], Nat.div_le_div_right hsq⟩

theorem Le.run (h : Le s t) (n : Nat) : Le (run w n s) (run w n t) := by
  induction n generalizing s t with
  | zero => exact h
  | succ n ih => exact ih h.step

theorem run_two_pow (w n r : Nat) : run w n (r, 2 ^ w) = (2 ^ n * r, 2 ^ w) := by
  have hstep : ∀ r, step w (r, 2 ^ w) = (2 * r, 2 ^ w) := by
    intro r
    have hsq : 2 ^ w * 2 ^ w = 2 ^ (2 * w) := by ring
    rw [step, hsq, if_neg (Nat.not_le.mpr (Nat.pow_lt_pow_right (by decide) (by omega))), ← hsq,
      Nat.mul_div_cancel _ (Nat.two_pow_pos w)]
  induction n generalizing r with
  | zero => simp [run]
  | succ n ih =>
    rw [run, hstep, ih]
    congr 1
    ring

end BinaryLog

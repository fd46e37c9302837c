import Sproutfs.Cluster.Distance
import Sproutfs.Lib.BinaryLog

/-!
# The integer logarithm

`log2` gives the bits of the binary logarithm by squaring, with a mantissa of 63 bits after its point.
-/

namespace Sproutfs.Cluster

open BinaryLog

variable {m m' x : Nat}

theorem log2Bits_eq (n : Nat) (hx : Mantissa 63 x) (r : Nat) :
    log2Bits n x (2 ^ n * r) = (run 63 n (r, x)).1 := by
  induction n generalizing x r with
  | zero => simp [log2Bits, run]
  | succ n ih =>
    have hnext := step_mantissa (s := (r, x)) hx
    have hcarry : 2 ^ 63 ≤ x * x / 2 ^ 64 ↔ 2 ^ (2 * 63 + 1) ≤ x * x := by omega
    rw [run, log2Bits, mul64, step]
    rw [step] at hnext
    dsimp only at hnext ⊢
    by_cases hc : 2 ^ (2 * 63 + 1) ≤ x * x
    · rw [if_pos hc] at hnext ⊢
      rw [if_pos (hcarry.mpr hc), ← ih hnext]
      congr 1
      rw [← Nat.two_pow_add_eq_or_of_lt (Nat.pow_lt_pow_right (by decide) (show n < n + 1 by omega))]
      ring
    · rw [if_neg hc] at hnext ⊢
      have hor : ((x * x / 2 ^ 64) <<< 1) % 2 ^ 64 ||| (x * x % 2 ^ 64) >>> 63 = x * x / 2 ^ 63 := by
        rw [Nat.shiftLeft_eq, Nat.shiftRight_eq_div_pow, Nat.mod_eq_of_lt (by omega), Nat.mul_comm,
          ← Nat.two_pow_add_eq_or_of_lt (by omega)]
        omega
      rw [if_neg (by omega), hor, ← ih hnext]
      congr 1
      ring

/-- The top bit of a word, and its mantissa. -/
theorem start_encloses (h1 : 1 ≤ m) (h : m < 2 ^ 64) :
    m.log2 < 64 ∧ Encloses 63 m 1 0 (m.log2, m * 2 ^ (63 - m.log2)) := by
  have hne : m ≠ 0 := by omega
  have htop : m.log2 < 64 := (Nat.log2_lt hne).mpr h
  have hlo := Nat.log2_self_le hne
  have hhi := Nat.lt_log2_self (n := m)
  have hscale : m * 2 ^ (63 - m.log2) * 2 ^ m.log2 = m ^ 1 * 2 ^ 63 := by
    rw [Nat.mul_assoc, ← Nat.pow_add, Nat.sub_add_cancel (by omega), Nat.pow_one]
  have hpow : ∀ k, 2 ^ (m.log2 + k) * 2 ^ (63 - m.log2) = 2 ^ (63 + k) := fun k => by
    rw [← Nat.pow_add]
    congr 1
    omega
  refine ⟨htop, ⟨?_, ?_⟩, hscale.le, by simpa using hscale.ge⟩
  · exact hpow 0 ▸ Nat.mul_le_mul_right _ hlo
  · exact hpow 1 ▸ Nat.mul_lt_mul_of_pos_right hhi (Nat.two_pow_pos _)

theorem log2_eq (h1 : 1 ≤ m) (h : m < 2 ^ 64) :
    log2 m = (run 63 fractionBits (m.log2, m * 2 ^ (63 - m.log2))).1 := by
  obtain ⟨htop, hstart⟩ := start_encloses h1 h
  have hx : m * 2 ^ (63 - m.log2) < 2 ^ 64 := hstart.mantissa.2
  have hr : 2 ^ fractionBits * m.log2 < 2 ^ 64 := by
    rw [fractionBits]
    omega
  rw [log2, Nat.shiftLeft_eq, Nat.shiftLeft_eq, Nat.mod_eq_of_lt hx, Nat.mul_comm m.log2, Nat.mod_eq_of_lt hr]
  exact log2Bits_eq _ hstart.mantissa _

theorem log2_bounds (h1 : 1 ≤ m) (h : m < 2 ^ 64) :
    2 ^ log2 m ≤ m ^ 2 ^ fractionBits ∧ m ^ 2 ^ fractionBits < 2 ^ (log2 m + 2) := by
  have hrun := (start_encloses h1 h).2.run fractionBits
  rw [Nat.mul_one] at hrun
  rw [log2_eq h1 h]
  exact hrun.bits (by decide)

theorem log2_two_pow {k : Nat} (hk : k < 64) : log2 (2 ^ k) = k * 2 ^ fractionBits := by
  have hlt : 2 ^ k < 2 ^ 64 := Nat.pow_lt_pow_right (by decide) hk
  rw [log2_eq (Nat.two_pow_pos k) hlt, Nat.log2_two_pow, ← Nat.pow_add, Nat.add_sub_cancel' (by omega),
    run_two_pow, Nat.mul_comm]

theorem log2_mono (h1 : 1 ≤ m) (hle : m ≤ m') (h : m' < 2 ^ 64) : log2 m ≤ log2 m' := by
  have hstart : Le (m.log2, m * 2 ^ (63 - m.log2)) (m'.log2, m' * 2 ^ (63 - m'.log2)) := by
    have htop : m.log2 ≤ m'.log2 := (Nat.le_log2 (by omega)).mpr ((Nat.log2_self_le (by omega)).trans hle)
    rcases htop.lt_or_eq with hlt | heq
    · exact .inl hlt
    · exact .inr ⟨heq, heq ▸ Nat.mul_le_mul_right _ hle⟩
  rw [log2_eq h1 (by omega), log2_eq (by omega) h]
  rcases hstart.run fractionBits with hlt | ⟨heq, -⟩
  · exact hlt.le
  · exact heq.le

theorem log2_lt (h1 : 1 ≤ m) (h : m < 2 ^ 64) : log2 m < 64 <<< fractionBits := by
  have hlo := (log2_bounds h1 h).1
  have hne : 2 ^ fractionBits ≠ 0 := (Nat.two_pow_pos _).ne'
  rw [Nat.shiftLeft_eq, ← Nat.pow_lt_pow_iff_right (show 1 < 2 by decide), Nat.pow_mul]
  generalize 2 ^ fractionBits = p at *
  exact hlo.trans_lt (Nat.pow_lt_pow_left h hne)

/-- The logarithm of a word is right but for the last bit and below, exact on powers of two and monotone.
A distance so is at least one and falls as its hash grows, and its product with a weight fits in two
words. -/
theorem log2_distance :
    (∀ m, 1 ≤ m → m < 2 ^ 64 →
      2 ^ log2 m ≤ m ^ 2 ^ fractionBits ∧ m ^ 2 ^ fractionBits < 2 ^ (log2 m + 2)) ∧
    (∀ k < 64, log2 (2 ^ k) = k * 2 ^ fractionBits) ∧
    (∀ m m', 1 ≤ m → m ≤ m' → m' < 2 ^ 64 → log2 m ≤ log2 m') ∧
    (∀ h, 1 ≤ distance h) ∧ (∀ h h' : UInt64, h ||| 1 ≤ h' ||| 1 → distance h' ≤ distance h) ∧
    ∀ (weight : UInt64) h, (mul64 weight.toNat (distance h)).1 < 2 ^ 64 ∧
      (mul64 weight.toNat (distance h)).1 * 2 ^ 64 + (mul64 weight.toNat (distance h)).2 =
        weight.toNat * distance h := by
  have hodd : ∀ h : UInt64, 1 ≤ (h ||| 1).toNat := fun h => by
    refine Nat.pos_of_ne_zero fun h0 => ?_
    have hone : (h ||| 1).toNat.testBit 0 = true := by simp
    rw [h0] at hone
    cases hone
  refine ⟨fun m h1 h => log2_bounds h1 h, fun k hk => log2_two_pow hk, fun m m' h1 hle h => log2_mono h1 hle h,
    fun h => ?_, fun h h' hle => ?_, fun weight h => ⟨?_, Nat.div_add_mod' ..⟩⟩
  · have := log2_lt (hodd h) (h ||| 1).toNat_lt
    rw [distance]
    omega
  · have := log2_mono (hodd h) (UInt64.le_iff_toNat_le.mp hle) (h' ||| 1).toNat_lt
    rw [distance, distance]
    omega
  · refine Nat.div_lt_of_lt_mul (Nat.mul_lt_mul'' weight.toNat_lt ?_)
    exact (Nat.sub_le ..).trans_lt (by decide)

end Sproutfs.Cluster

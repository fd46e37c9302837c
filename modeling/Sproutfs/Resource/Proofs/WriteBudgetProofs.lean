import Sproutfs.Lib.TokenBucket
import Sproutfs.Resource.WriteBudget

/-!
# What the write budget admits

The tokens and the carry are one level of a bucket, counted in byte-nanoseconds over a day, and
`refillLocked` fills it. From that: filling in steps is filling at once, and what is admitted over a
stretch of time is bounded by the burst and the rate.
-/

namespace Sproutfs.Resource

open Machine TokenBucket

variable {x since elapsed t n priority amount t₀ : Int} {c : Call} {r : DiskLimiter}

theorem int64_some (hlo : -2 ^ 63 ≤ x) (hhi : x < 2 ^ 63) : int64 x = some x :=
  if_pos ⟨hlo, hhi⟩

theorem uint64_some {x : Nat} (h : x < 2 ^ 64) : uint64 x = some x := if_pos h

theorem timeSub_eq {now : Int} (hlo : 0 ≤ now - since) (hhi : now - since < 2 ^ 63) :
    timeSub now since = now - since := by
  unfold timeSub
  omega

theorem timeSub_le {now : Int} (h : 0 < timeSub now since) : timeSub now since ≤ now - since := by
  unfold timeSub at h ⊢
  omega

theorem timeSub_nonpos {now : Int} : timeSub now since ≤ 0 ↔ now ≤ since := by
  unfold timeSub
  omega

theorem day_pos : 0 < day := by decide

/-- The two words of a quotient by `bits.Div64` give the quotient of the number they stand for. -/
theorem div64_eq {x y : Nat} (hi lo : Nat) (hx : hi * 2 ^ 64 + lo = x) (hlo : lo < 2 ^ 64)
    (hy : x < y * 2 ^ 64) : div64 hi lo y = some (x / y, x % y) := by
  have hlt : hi < y := by omega
  simp only [div64, if_pos hlt, hx]

theorem fraction_eq {value k : Int} (hv : 0 ≤ value) (hmax : value ≤ maxDiskBytes) (hk : 0 ≤ k)
    (hk4 : k < 4) : fraction value k diskWritePriorities = some (value * k / 4) := by
  obtain ⟨v, rfl⟩ := Int.eq_ofNat_of_zero_le hv
  obtain ⟨n, rfl⟩ := Int.eq_ofNat_of_zero_le hk
  have hmax' : v ≤ 2 ^ 60 := by simpa [maxDiskBytes] using hmax
  have hprod : v * n < 2 ^ 62 := by nlinarith
  have hdiv := div64_eq (y := 4) (v * n / 2 ^ 64) (v * n % 2 ^ 64) (x := v * n) (by omega) (by omega)
    (by omega)
  have hfit : int64 ((v * n / 4 : Nat) : Int) = some ((v * n / 4 : Nat) : Int) :=
    int64_some (by omega) (by omega)
  simp only [fraction, mul64, Int.toNat_natCast, diskWritePriorities]
  rw [show (4 : Int).toNat = 4 from rfl, hdiv, Option.bind_some, hfit]
  push_cast
  rfl

theorem credit_eq {perDay rest : Int} {carry : Nat} (hp : 0 ≤ perDay) (hmax : perDay ≤ maxDiskBytes)
    (hr : 0 ≤ rest) (hrest : rest < day) (hc : (carry : Int) < day) :
    credit perDay rest carry = some (((perDay * rest + carry) / day).toNat,
      ((perDay * rest + carry) % day).toNat) := by
  obtain ⟨p, rfl⟩ := Int.eq_ofNat_of_zero_le hp
  obtain ⟨r, rfl⟩ := Int.eq_ofNat_of_zero_le hr
  have hday : day = (86400000000000 : Nat) := by decide
  rw [hday] at hrest hc ⊢
  have hp' : p ≤ 2 ^ 60 := by simpa [maxDiskBytes] using hmax
  have hprod : p * r ≤ 2 ^ 60 * 86399999999999 := Nat.mul_le_mul hp' (by omega)
  -- the words of the sum are those of `p * r + carry`
  have hwords : (p * r / 2 ^ 64 + (p * r % 2 ^ 64 + carry) / 2 ^ 64) * 2 ^ 64 +
      (p * r % 2 ^ 64 + carry) % 2 ^ 64 = p * r + carry := by omega
  have hfit : p * r / 2 ^ 64 + (p * r % 2 ^ 64 + carry) / 2 ^ 64 < 2 ^ 64 := by omega
  have hdiv := div64_eq (y := 86400000000000) _ _ hwords (by omega) (by omega)
  have hcast : (p : Int) * r + carry = ((p * r + carry : Nat) : Int) := by push_cast; rfl
  simp only [credit, mul64, add64, Int.toNat_natCast]
  rw [hcast, uint64_some hfit, Option.bind_some, hday, Int.toNat_natCast, hdiv]
  simp only [← Int.natCast_ediv, ← Int.natCast_emod, Int.toNat_natCast]

/-! ## The level -/

/-- What the budget has left, in byte-nanoseconds over a day. -/
def DiskLimiter.level (l : DiskLimiter) : Int := l.tokens * day + l.carry

/-- A limiter credited up to a level at a reading. -/
def DiskLimiter.atLevel (l : DiskLimiter) (now x : Int) : DiskLimiter :=
  { l with refilledAt := now, tokens := x / day, carry := (x % day).toNat }

theorem level_atLevel {l : DiskLimiter} {now : Int} : (l.atLevel now x).level = x := by
  have hmod := Int.emod_nonneg x (ne_of_gt day_pos)
  simp only [DiskLimiter.level, DiskLimiter.atLevel, Int.toNat_of_nonneg hmod]
  have := Int.mul_ediv_add_emod x day
  linarith [mul_comm (x / day) day]

def WriteBudget.Limits (b : WriteBudget) : Prop := b.Valid ∧ b ≠ .zero

theorem WriteBudget.Limits.bounds {b : WriteBudget} (h : b.Limits) :
    (0 < b.bytesPerDay ∧ b.bytesPerDay ≤ 2 ^ 60) ∧ 0 < b.burstBytes ∧ b.burstBytes ≤ 2 ^ 60 :=
  h.1.resolve_left h.2

/-- What holds of a limiter between calls. -/
structure Inv (b : WriteBudget) (l : DiskLimiter) : Prop where
  debt : -b.burstBytes ≤ l.tokens
  carry : (l.carry : Int) < day
  full : l.level ≤ b.burstBytes * day
  pending : 0 ≤ l.pending ∧ l.pending < 2 ^ 63

variable {b : WriteBudget} {l l' : DiskLimiter} {now : Int}

theorem Inv.le_burst (h : Inv b l) : l.tokens ≤ b.burstBytes := by
  have hle : l.tokens * day ≤ b.burstBytes * day := by
    have := h.full
    simp only [DiskLimiter.level] at this
    omega
  exact le_of_mul_le_mul_right hle day_pos

theorem Inv.new (hb : b.Limits) : Inv b (newDiskLimiter b now) := by
  have := hb.bounds
  refine ⟨?_, ?_, ?_, ?_⟩
  · show -b.burstBytes ≤ b.burstBytes
    omega
  · exact day_pos
  · simp [DiskLimiter.level, newDiskLimiter]
  · simp [newDiskLimiter]

theorem creditTime_eq (hb : b.Limits) (h : Inv b l) (he : 0 < elapsed)
    (hdays : elapsed / day ≤ (b.burstBytes - l.tokens) / b.bytesPerDay) :
    l.creditTime b elapsed =
      some (l.atLevel l.refilledAt (fill (b.burstBytes * day) b.bytesPerDay l.level elapsed)) := by
  obtain ⟨⟨hrate, hrateMax⟩, hburst, hburstMax⟩ := hb.bounds
  have hdebt := h.debt
  have hcarry := h.carry
  unfold DiskLimiter.creditTime
  set days := elapsed / day with hdaysDef
  set rest := elapsed % day with hrestDef
  have hrest0 : 0 ≤ rest := Int.emod_nonneg _ (ne_of_gt day_pos)
  have hrest : rest < day := Int.emod_lt_of_pos _ day_pos
  have hdays0 : 0 ≤ days := Int.ediv_nonneg he.le day_pos.le
  have hsplit : elapsed = days * day + rest := by
    have := Int.mul_ediv_add_emod elapsed day
    linarith [mul_comm (elapsed / day) day]
  have hwhole : days * b.bytesPerDay ≤ b.burstBytes - l.tokens := by
    calc days * b.bytesPerDay ≤ (b.burstBytes - l.tokens) / b.bytesPerDay * b.bytesPerDay :=
          mul_le_mul_of_nonneg_right hdays hrate.le
      _ ≤ b.burstBytes - l.tokens := Int.ediv_mul_le _ (ne_of_gt hrate)
  have hwhole0 : 0 ≤ days * b.bytesPerDay := mul_nonneg hdays0 hrate.le
  set whole := days * b.bytesPerDay with hwholeDef
  -- the part of a day gives at most a day's bytes
  have hpart0 : 0 ≤ b.bytesPerDay * rest + l.carry := by
    have := mul_nonneg hrate.le hrest0
    omega
  have hpart : b.bytesPerDay * rest + l.carry < (b.bytesPerDay + 1) * day := by
    have : b.bytesPerDay * rest ≤ b.bytesPerDay * day := mul_le_mul_of_nonneg_left hrest.le hrate.le
    linarith [add_mul b.bytesPerDay 1 day]
  set part := b.bytesPerDay * rest + l.carry with hpartDef
  have hbytes0 : 0 ≤ part / day := Int.ediv_nonneg hpart0 day_pos.le
  have hbytes : part / day < b.bytesPerDay + 1 := Int.ediv_lt_of_lt_mul day_pos hpart
  -- the level after the time, before it is cut at the burst
  have hlevel : l.level + b.bytesPerDay * elapsed = (l.tokens + whole) * day + part := by
    rw [hsplit, DiskLimiter.level, hpartDef, hwholeDef]
    ring
  have hdiv : (l.level + b.bytesPerDay * elapsed) / day = l.tokens + whole + part / day := by
    rw [hlevel, add_comm, Int.add_mul_ediv_right _ _ (ne_of_gt day_pos), add_comm]
  have hmod : (l.level + b.bytesPerDay * elapsed) % day = part % day := by
    rw [hlevel, add_comm, Int.add_mul_emod_self_right]
  rw [int64_some (by omega) (by omega), Option.bind_some, int64_some (by omega) (by omega),
    Option.bind_some, credit_eq hrate.le hrateMax hrest0 hrest hcarry, Option.bind_some]
  rw [Int.toNat_of_nonneg hbytes0, int64_some (by omega) (by omega), Option.bind_some,
    int64_some (by omega) (by omega), Option.bind_some]
  by_cases hfull : b.burstBytes ≤ l.tokens + whole + part / day
  · have hcap : b.burstBytes * day ≤ l.level + b.bytesPerDay * elapsed := by
      rw [← hdiv] at hfull
      exact (Int.le_ediv_iff_mul_le day_pos).mp hfull
    rw [if_pos hfull, fill, min_eq_left hcap, DiskLimiter.atLevel,
      Int.mul_ediv_cancel _ (ne_of_gt day_pos), Int.mul_emod_left]
    rfl
  · have hcap : l.level + b.bytesPerDay * elapsed ≤ b.burstBytes * day := by
      rw [← hdiv, Int.le_ediv_iff_mul_le day_pos] at hfull
      omega
    rw [if_neg hfull, fill, min_eq_right hcap, DiskLimiter.atLevel, hdiv, hmod]

theorem full_of_days (hb : b.Limits) (hdays : (b.burstBytes - l.tokens) / b.bytesPerDay < elapsed / day) :
    b.burstBytes * day ≤ l.level + b.bytesPerDay * elapsed := by
  obtain ⟨⟨hrate, -⟩, -, -⟩ := hb.bounds
  have hneed : b.burstBytes - l.tokens < elapsed / day * b.bytesPerDay := by
    calc b.burstBytes - l.tokens
        < ((b.burstBytes - l.tokens) / b.bytesPerDay + 1) * b.bytesPerDay :=
          Int.lt_ediv_add_one_mul_self _ hrate
      _ ≤ elapsed / day * b.bytesPerDay := mul_le_mul_of_nonneg_right (by omega) hrate.le
  have hdays' : elapsed / day * day ≤ elapsed := Int.ediv_mul_le _ (ne_of_gt day_pos)
  unfold DiskLimiter.level
  nlinarith [mul_le_mul_of_nonneg_left hdays' hrate.le, mul_lt_mul_of_pos_right hneed day_pos]

/-- The limiter credited up to a reading, as the bucket's rule says. -/
def DiskLimiter.refilled (b : WriteBudget) (l : DiskLimiter) (now : Int) : DiskLimiter :=
  if now ≤ l.refilledAt then l
  else l.atLevel now
    (fill (b.burstBytes * day) b.bytesPerDay l.level (timeSub now l.refilledAt))

theorem refill_eq (hb : b.Limits) (h : Inv b l) (now : Int) :
    l.refill b now = some (l.refilled b now) := by
  obtain ⟨⟨hrate, hrateMax⟩, hburst, hburstMax⟩ := hb.bounds
  have hle := h.le_burst
  have hdebt := h.debt
  unfold DiskLimiter.refill DiskLimiter.refilled
  by_cases hlate : now ≤ l.refilledAt
  · rw [if_pos (Or.inr (timeSub_nonpos.mpr hlate)), if_pos hlate]
  · have helapsed : 0 < timeSub now l.refilledAt := by
      rw [← timeSub_nonpos] at hlate
      omega
    have hpos : 0 ≤ b.bytesPerDay * timeSub now l.refilledAt := mul_nonneg hrate.le helapsed.le
    rw [if_neg (by simp only [hb.2, false_or]; omega), if_neg hlate, int64_some (by omega) (by omega),
      Option.bind_some]
    by_cases hneed : b.burstBytes - l.tokens ≤ 0
    · -- the bucket is full: only the carry goes
      have htok : l.tokens = b.burstBytes := by omega
      have hcap : b.burstBytes * day ≤ l.level + b.bytesPerDay * timeSub now l.refilledAt := by
        rw [DiskLimiter.level, htok]
        omega
      rw [if_pos hneed, fill, min_eq_left hcap, DiskLimiter.atLevel,
        Int.mul_ediv_cancel _ (ne_of_gt day_pos), Int.mul_emod_left, htok]
      rfl
    · rw [if_neg hneed]
      by_cases hdays : (b.burstBytes - l.tokens) / b.bytesPerDay < timeSub now l.refilledAt / day
      · have hcap : b.burstBytes * day ≤ l.level + b.bytesPerDay * timeSub now l.refilledAt :=
          full_of_days hb hdays
        rw [if_pos hdays, fill, min_eq_left hcap, DiskLimiter.atLevel,
          Int.mul_ediv_cancel _ (ne_of_gt day_pos), Int.mul_emod_left]
        rfl
      · rw [if_neg hdays]
        exact creditTime_eq (l := { l with refilledAt := now }) hb { h with } helapsed
          (Int.not_lt.mp hdays)

section Refilled

@[simp] theorem pending_refilled : (l.refilled b now).pending = l.pending := by
  unfold DiskLimiter.refilled
  split <;> rfl

@[simp] theorem counted_refilled : (l.refilled b now).counted = l.counted := by
  unfold DiskLimiter.refilled
  split <;> rfl

@[simp] theorem counting_refilled : (l.refilled b now).counting = l.counting := by
  unfold DiskLimiter.refilled
  split <;> rfl

@[simp] theorem writtenBytes_refilled : (l.refilled b now).writtenBytes = l.writtenBytes := by
  unfold DiskLimiter.refilled
  split <;> rfl

@[simp] theorem admittedBytes_refilled : (l.refilled b now).admittedBytes = l.admittedBytes := by
  unfold DiskLimiter.refilled
  split <;> rfl

@[simp] theorem refused_refilled : (l.refilled b now).refused = l.refused := by
  unfold DiskLimiter.refilled
  split <;> rfl

end Refilled

theorem refilledAt_refilled (b : WriteBudget) (l : DiskLimiter) (now : Int) :
    (l.refilled b now).refilledAt = max now l.refilledAt := by
  unfold DiskLimiter.refilled
  by_cases hlate : now ≤ l.refilledAt
  · rw [if_pos hlate, max_eq_right hlate]
  · rw [if_neg hlate, max_eq_left (by omega)]
    rfl

/-- The level rises by at most the rate for the time the reading moves on. -/
theorem level_refilled_le (hb : b.Limits) (l : DiskLimiter) (now : Int) :
    (l.refilled b now).level ≤
      l.level + b.bytesPerDay * ((l.refilled b now).refilledAt - l.refilledAt) := by
  obtain ⟨⟨hrate, -⟩, -, -⟩ := hb.bounds
  rw [refilledAt_refilled]
  unfold DiskLimiter.refilled
  by_cases hlate : now ≤ l.refilledAt
  · rw [if_pos hlate, max_eq_right hlate]
    simp
  · have hsub : timeSub now l.refilledAt ≤ now - l.refilledAt := by
      refine timeSub_le ?_
      have := mt timeSub_nonpos.mp hlate
      omega
    rw [if_neg hlate, max_eq_left (by omega), level_atLevel]
    calc fill (b.burstBytes * day) b.bytesPerDay l.level (timeSub now l.refilledAt)
        ≤ l.level + b.bytesPerDay * timeSub now l.refilledAt := fill_le
      _ ≤ l.level + b.bytesPerDay * (now - l.refilledAt) := by
          linarith [mul_le_mul_of_nonneg_left hsub hrate.le]

theorem Inv.refilled (hb : b.Limits) (h : Inv b l) (now : Int) : Inv b (l.refilled b now) := by
  obtain ⟨⟨hrate, -⟩, -, -⟩ := hb.bounds
  unfold DiskLimiter.refilled
  by_cases hlate : now ≤ l.refilledAt
  · rw [if_pos hlate]
    exact h
  · rw [if_neg hlate]
    have helapsed : 0 ≤ timeSub now l.refilledAt := by
      have := mt timeSub_nonpos.mp hlate
      omega
    have hrise : l.level ≤ fill (b.burstBytes * day) b.bytesPerDay l.level (timeSub now l.refilledAt) :=
      le_fill h.full hrate.le helapsed
    refine ⟨?_, ?_, ?_, h.pending⟩
    · show -b.burstBytes ≤ fill _ _ _ _ / day
      refine (Int.le_ediv_iff_mul_le day_pos).mpr (le_trans ?_ hrise)
      have : -b.burstBytes * day ≤ l.tokens * day := mul_le_mul_of_nonneg_right h.debt day_pos.le
      unfold DiskLimiter.level
      omega
    · show ((fill _ _ _ _ % day).toNat : Int) < day
      rw [Int.toNat_of_nonneg (Int.emod_nonneg _ (ne_of_gt day_pos))]
      exact Int.emod_lt_of_pos _ day_pos
    · rw [level_atLevel]
      exact fill_le_cap

/-- Crediting at a reading and again at a later one is crediting at the later one, as long as the
whole time is a duration. -/
theorem refilled_refilled (hb : b.Limits) {u : Int} (hu : u ≤ t) (ht : t - l.refilledAt < 2 ^ 63) :
    (l.refilled b u).refilled b t = l.refilled b t := by
  obtain ⟨⟨hrate, -⟩, -, -⟩ := hb.bounds
  by_cases hearly : u ≤ l.refilledAt
  · rw [DiskLimiter.refilled.eq_def b l u, if_pos hearly]
  · have hfirst : l.refilled b u = l.atLevel u (fill (b.burstBytes * day) b.bytesPerDay l.level
        (u - l.refilledAt)) := by
      rw [DiskLimiter.refilled, if_neg hearly, timeSub_eq (by omega) (by omega)]
    have hlast : l.refilled b t = l.atLevel t (fill (b.burstBytes * day) b.bytesPerDay l.level
        (t - l.refilledAt)) := by
      rw [DiskLimiter.refilled, if_neg (by omega), timeSub_eq (by omega) (by omega)]
    rw [hfirst, hlast]
    unfold DiskLimiter.refilled
    rw [level_atLevel]
    show (if t ≤ u then _ else DiskLimiter.atLevel _ t (fill _ _ _ (timeSub t u))) = _
    by_cases heq : t ≤ u
    · have : u = t := by omega
      subst this
      rw [if_pos heq]
    · rw [if_neg heq, timeSub_eq (by omega) (by omega), fill_fill hrate.le (by omega),
        show u - l.refilledAt + (t - u) = t - l.refilledAt by ring]
      rfl

/-! ## The calls -/

/-- What a write at a priority leaves in the budget. -/
def reserve (b : WriteBudget) (priority : Int) : Int :=
  b.burstBytes * (diskWritePriorities - 1 - (clampPriority priority).val) / 4

theorem reserve_nonneg (hb : b.Limits) (priority : Int) : 0 ≤ reserve b priority := by
  have := hb.bounds
  refine Int.ediv_nonneg (mul_nonneg (by omega) ?_) (by omega)
  unfold diskWritePriorities
  omega

theorem reserve_anti (hb : b.Limits) {p q : Int} (h : p ≤ q) : reserve b q ≤ reserve b p := by
  have := hb.bounds
  have hclamp : (clampPriority p).val ≤ (clampPriority q).val := by
    simp only [clampPriority, diskWritePriorities]
    omega
  refine Int.ediv_le_ediv (by omega) (mul_le_mul_of_nonneg_left ?_ (by omega))
  omega

/-- The limiter after an admitted write. -/
def DiskLimiter.spend (l : DiskLimiter) (n : Int) : DiskLimiter :=
  { l with tokens := l.tokens - n, pending := l.pending + n, admittedBytes := l.admittedBytes + n.toNat }

/-- The limiter after a refused write. -/
def DiskLimiter.refuse (l : DiskLimiter) (priority : Int) : DiskLimiter :=
  { l with
    refused := Function.update l.refused (clampPriority priority)
      (l.refused (clampPriority priority) + 1) }

/-- `Admit` under a budget: a write of a possible size is admitted where it leaves the reserve. -/
theorem admitWrite_eq (hb : b.Limits) (h : Inv b l) (hn : 0 ≤ n) (hmax : n ≤ maxDiskBytes) :
    l.admitWrite b now n priority =
      if (l.refilled b now).tokens - n < reserve b priority then
        (uint64 (l.refused (clampPriority priority) + 1)).map fun _ =>
          (false, (l.refilled b now).refuse priority)
      else
        (int64 (l.pending + n)).bind fun _ => (uint64 (l.admittedBytes + n.toNat)).map fun _ =>
          (true, (l.refilled b now).spend n) := by
  have hbounds := hb.bounds
  have hr := h.refilled hb now
  have hdebt := hr.debt
  have hle := hr.le_burst
  unfold DiskLimiter.admitWrite
  rw [if_neg (by omega), if_neg hb.2, refill_eq hb h, Option.bind_some]
  dsimp only
  rw [fraction_eq (by omega) hbounds.2.2 (by unfold diskWritePriorities; omega)
    (by unfold diskWritePriorities; omega), Option.bind_some,
    int64_some (by unfold maxDiskBytes at hmax; omega) (by omega), Option.bind_some]
  simp only [refused_refilled, pending_refilled, admittedBytes_refilled]
  refine if_congr Iff.rfl ?_ ?_
  · unfold uint64
    split
    · simp [DiskLimiter.refuse]
    · rfl
  · unfold int64 uint64
    split
    · split
      · simp [DiskLimiter.spend]
      · rfl
    · rfl

/-- What a call of `Admit` did, where no total left its type. -/
theorem admitWrite_some (hb : b.Limits) (h : Inv b l) {admitted : Bool}
    (hs : l.admitWrite b now n priority = some (admitted, l')) :
    (¬(0 ≤ n ∧ n ≤ maxDiskBytes) ∧ admitted = false ∧ l' = l) ∨
    (admitted = false ∧ l' = (l.refilled b now).refuse priority) ∨
    ((0 ≤ n ∧ n ≤ maxDiskBytes) ∧ reserve b priority ≤ (l.refilled b now).tokens - n ∧
      l.pending + n < 2 ^ 63 ∧ admitted = true ∧ l' = (l.refilled b now).spend n) := by
  by_cases hn : 0 ≤ n ∧ n ≤ maxDiskBytes
  · rw [admitWrite_eq hb h hn.1 hn.2] at hs
    by_cases hleft : (l.refilled b now).tokens - n < reserve b priority
    · rw [if_pos hleft] at hs
      obtain ⟨_, -, hs⟩ := Option.map_eq_some_iff.mp hs
      obtain ⟨rfl, rfl⟩ := Prod.mk.inj hs
      exact .inr (.inl ⟨rfl, rfl⟩)
    · rw [if_neg hleft] at hs
      obtain ⟨_, hfit, hs⟩ := Option.bind_eq_some_iff.mp hs
      obtain ⟨_, -, hs⟩ := Option.map_eq_some_iff.mp hs
      obtain ⟨rfl, rfl⟩ := Prod.mk.inj hs
      have hfit' : l.pending + n < 2 ^ 63 := by
        unfold int64 at hfit
        split at hfit
        · omega
        · cases hfit
      exact .inr (.inr ⟨hn, Int.not_lt.mp hleft, hfit', rfl, rfl⟩)
  · unfold DiskLimiter.admitWrite at hs
    rw [if_pos (by omega)] at hs
    obtain ⟨rfl, rfl⟩ := Prod.mk.inj (Option.some.inj hs)
    exact .inl ⟨hn, rfl, rfl⟩

/-- The limiter after a count that charges. -/
def DiskLimiter.countTo (b : WriteBudget) (l : DiskLimiter) (written : Nat) (seen : Int) : DiskLimiter :=
  { l with
    counted := written
    writtenBytes := l.writtenBytes + (written - l.counted)
    pending := max (l.pending - seen) 0
    tokens := if 0 < seen - l.pending then max (l.tokens - (seen - l.pending)) (-b.burstBytes)
      else l.tokens }

/-- `countLocked` under a budget: the first count and one that went back only set where the next
starts. -/
theorem count_eq (hb : b.Limits) (h : Inv b l) {written : Nat} :
    l.count b now written =
      if written < l.counted then some { l.refilled b now with counted := written }
      else if l.counting = false then
        some { l.refilled b now with counting := true, counted := written }
      else (uint64 (l.writtenBytes + (written - l.counted))).map fun _ =>
        (l.refilled b now).countTo b written (min ((written - l.counted : Nat) : Int) maxDiskBytes) := by
  have hbounds := hb.bounds
  have hr := h.refilled hb now
  have hdebt := hr.debt
  have hle := hr.le_burst
  have hpending := h.pending
  unfold DiskLimiter.count
  rw [if_neg hb.2, refill_eq hb h, Option.bind_some]
  simp only [counted_refilled, counting_refilled, writtenBytes_refilled, pending_refilled]
  refine if_congr Iff.rfl rfl (if_congr Iff.rfl rfl ?_)
  have hseen0 : 0 ≤ min ((written - l.counted : Nat) : Int) maxDiskBytes := by
    unfold maxDiskBytes
    omega
  have hseen : min ((written - l.counted : Nat) : Int) maxDiskBytes ≤ 2 ^ 60 := min_le_right ..
  set seen := min ((written - l.counted : Nat) : Int) maxDiskBytes with hseenDef
  unfold uint64
  split
  · rw [Option.bind_some, int64_some (by omega) (by omega), Option.bind_some,
      int64_some (by omega) (by omega), Option.bind_some, Option.map_some]
    simp only [DiskLimiter.countTo, counted_refilled, counting_refilled, writtenBytes_refilled,
      pending_refilled]
    by_cases hcharge : 0 < seen - l.pending
    · rw [if_pos hcharge, if_pos hcharge, int64_some (by omega) (by omega), Option.map_some]
    · rw [if_neg hcharge, if_neg hcharge]
  · rfl

/-! ## One call -/

/-- What a call does to a limiter that was credited to `r`: the tokens fall by what it admits or
charges, down to a burst of debt, and what the device counted is charged less what was pending. -/
structure Called (b : WriteBudget) (l r : DiskLimiter) (c : Call) (l' : DiskLimiter) : Prop where
  tokens : l'.tokens =
    max (r.tokens - (l'.admittedBytes - l.admittedBytes : Int) - l.charge c) (-b.burstBytes)
  carry : l'.carry = r.carry
  refilledAt : l'.refilledAt = r.refilledAt
  counted : l.charge c + (l'.admittedBytes - l.admittedBytes : Int) =
    l.seen c + (l'.pending - l.pending)
  pending : 0 ≤ l'.pending ∧ l'.pending < 2 ^ 63
  spent : l'.admittedBytes = l.admittedBytes ∨
    l.admittedBytes < l'.admittedBytes ∧ l.charge c = 0 ∧ 0 ≤ l'.tokens

theorem Called.quiet (hr : Inv b r) (htok : l'.tokens = r.tokens) (hcarry : l'.carry = r.carry)
    (hat : l'.refilledAt = r.refilledAt) (hpending : l'.pending = l.pending)
    (hp : 0 ≤ l.pending ∧ l.pending < 2 ^ 63) (hadm : l'.admittedBytes = l.admittedBytes)
    (hseen : l.seen c = 0) : Called b l r c l' := by
  have hcharge : l.charge c = 0 := by
    rw [DiskLimiter.charge, hseen]
    omega
  have hdebt := hr.debt
  refine ⟨?_, hcarry, hat, ?_, by omega, .inl hadm⟩
  · rw [hcharge, hadm, htok]
    omega
  · rw [hcharge, hseen, hadm, hpending]
    omega

theorem Called.of_admitWrite (hb : b.Limits) (h : Inv b l) {admitted : Bool}
    (hs : l.admitWrite b now n priority = some (admitted, l')) :
    ∃ r, (r = l ∧ l'.admittedBytes = l.admittedBytes ∨ r = l.refilled b now) ∧
      Called b l r (.admitWrite now n priority) l' := by
  have hr := h.refilled hb now
  rcases admitWrite_some hb h hs with ⟨-, -, rfl⟩ | ⟨-, rfl⟩ | ⟨hn, hleft, hfit, -, rfl⟩
  · exact ⟨l', .inl ⟨rfl, rfl⟩, .quiet h rfl rfl rfl rfl h.pending rfl rfl⟩
  · refine ⟨_, .inr rfl, .quiet hr rfl rfl rfl ?_ h.pending ?_ rfl⟩
    · exact pending_refilled
    · exact admittedBytes_refilled
  · have hbounds := hb.bounds
    have hkeep := reserve_nonneg hb priority
    have hpending := h.pending
    have hcharge : l.charge (.admitWrite now n priority) = 0 := by
      simp only [DiskLimiter.charge, DiskLimiter.seen]
      omega
    have hadm : ((l.refilled b now).spend n).admittedBytes = l.admittedBytes + n.toNat := by
      simp [DiskLimiter.spend]
    have hpend : ((l.refilled b now).spend n).pending = l.pending + n := by simp [DiskLimiter.spend]
    have htok : ((l.refilled b now).spend n).tokens = (l.refilled b now).tokens - n := rfl
    refine ⟨_, .inr rfl, ?_, rfl, rfl, ?_, by omega, ?_⟩
    · rw [hcharge, hadm, htok]
      omega
    · rw [hcharge, hadm, hpend]
      simp only [DiskLimiter.seen]
      omega
    · by_cases hzero : n = 0
      · exact .inl (by rw [hadm]; omega)
      · exact .inr ⟨by rw [hadm]; omega, hcharge, by rw [htok]; omega⟩

theorem Called.of_count (hb : b.Limits) (h : Inv b l) {written : Nat}
    (hs : l.count b now written = some l') :
    Called b l (l.refilled b now) (.count now written) l' := by
  have hr := h.refilled hb now
  have hpending := h.pending
  rw [count_eq hb h] at hs
  by_cases hback : written < l.counted
  · rw [if_pos hback] at hs
    cases hs
    refine .quiet hr rfl rfl rfl pending_refilled hpending admittedBytes_refilled ?_
    simp only [DiskLimiter.seen]
    rw [if_neg (by omega)]
  · rw [if_neg hback] at hs
    by_cases hfirst : l.counting = false
    · rw [if_pos hfirst] at hs
      cases hs
      refine .quiet hr rfl rfl rfl pending_refilled hpending admittedBytes_refilled ?_
      simp only [DiskLimiter.seen, hfirst]
      rw [if_neg (by simp)]
    · rw [if_neg hfirst] at hs
      obtain ⟨_, -, rfl⟩ := Option.map_eq_some_iff.mp hs
      have hseen : l.seen (.count now written) =
          min ((written - l.counted : Nat) : Int) maxDiskBytes := by
        simp only [DiskLimiter.seen]
        rw [if_pos ⟨by simpa using hfirst, by omega⟩]
      have hseen0 : 0 ≤ min ((written - l.counted : Nat) : Int) maxDiskBytes := by
        unfold maxDiskBytes
        omega
      have hdebt := hr.debt
      have hcharge : l.charge (.count now written) = max (min ((written - l.counted : Nat) : Int)
          maxDiskBytes - l.pending) 0 := by rw [DiskLimiter.charge, hseen]
      set seen := min ((written - l.counted : Nat) : Int) maxDiskBytes with hseenDef
      have hadm : ((l.refilled b now).countTo b written seen).admittedBytes = l.admittedBytes :=
        admittedBytes_refilled
      have hpend : ((l.refilled b now).countTo b written seen).pending = max (l.pending - seen) 0 := by
        simp [DiskLimiter.countTo]
      refine ⟨?_, rfl, rfl, ?_, by omega, .inl hadm⟩
      · rw [hcharge, hadm]
        simp only [DiskLimiter.countTo, pending_refilled]
        by_cases hpos : 0 < seen - l.pending
        · rw [if_pos hpos]
          omega
        · rw [if_neg hpos]
          omega
      · rw [hcharge, hseen, hadm, hpend]
        omega

/-- Every call credits the budget up to its reading, and then admits or charges. A call that admits
nothing may leave the credit to the next. -/
theorem step_called (hb : b.Limits) (h : Inv b l) (hs : l.step b c = some l') :
    ∃ r, (r = l ∧ l'.admittedBytes = l.admittedBytes ∨ r = l.refilled b c.now) ∧
      Called b l r c l' := by
  cases c with
  | admitWrite now n priority =>
    obtain ⟨⟨admitted, _⟩, hadmit, rfl⟩ := Option.map_eq_some_iff.mp hs
    exact Called.of_admitWrite hb h hadmit
  | count now written => exact ⟨_, .inr rfl, Called.of_count hb h hs⟩
  | status now =>
    have hs' : l.refill b now = some l' := hs
    rw [refill_eq hb h] at hs'
    cases hs'
    exact ⟨_, .inr rfl, .quiet (h.refilled hb _) rfl rfl rfl pending_refilled h.pending
      admittedBytes_refilled rfl⟩

theorem Called.level_le (hr : Inv b r) (hb : b.Limits) (h : Called b l r c l') :
    (l'.admittedBytes - l.admittedBytes : Int) * day + l'.level ≤ r.level := by
  have hbounds := hb.bounds
  have hcharge : 0 ≤ l.charge c := le_max_right ..
  have htok : (l'.admittedBytes - l.admittedBytes : Int) + l'.tokens ≤ r.tokens := by
    have htok := h.tokens
    have hdebt := hr.debt
    rcases h.spent with hsame | ⟨hmore, hno, hleft⟩
    · omega
    · omega
  have := mul_le_mul_of_nonneg_right htok day_pos.le
  rw [DiskLimiter.level, DiskLimiter.level, h.carry]
  linarith [add_mul (l'.admittedBytes - l.admittedBytes : Int) l'.tokens day]

theorem Inv.called (hb : b.Limits) (hr : Inv b r) (h : Called b l r c l') : Inv b l' := by
  refine ⟨?_, ?_, ?_, h.pending⟩
  · rw [h.tokens]
    exact le_max_right ..
  · rw [h.carry]
    exact hr.carry
  · have hlevel := h.level_le hr hb
    have hmore : 0 ≤ (l'.admittedBytes - l.admittedBytes : Int) * day := by
      refine mul_nonneg ?_ day_pos.le
      rcases h.spent with hsame | ⟨hmore, -⟩ <;> omega
    have := hr.full
    omega

theorem Inv.step (hb : b.Limits) (h : Inv b l) (hs : l.step b c = some l') : Inv b l' := by
  obtain ⟨r, hr, hcalled⟩ := step_called hb h hs
  rcases hr with ⟨rfl, -⟩ | rfl
  · exact h.called hb hcalled
  · exact (h.refilled hb _).called hb hcalled

theorem Inv.runs (hb : b.Limits) {ok : DiskLimiter → Call → Prop} (h : Inv b l)
    (hr : Runs (DiskLimiter.step b) ok l l') : Inv b l' :=
  hr.invariant (fun _ _ _ hi _ hs => hi.step hb hs) h

/-- Where the totals fit, no sum, product or division leaves its type. -/
theorem step_isSome (hb : b.Limits) (h : Inv b l) (hroom : Room l c) : (l.step b c).isSome := by
  cases c with
  | admitWrite now n priority =>
    obtain ⟨hpend, hadm, href⟩ := hroom
    show (Option.map Prod.snd _).isSome
    rw [Option.isSome_map]
    by_cases hn : 0 ≤ n ∧ n ≤ maxDiskBytes
    · have hpending := h.pending
      rw [admitWrite_eq hb h hn.1 hn.2, uint64_some href, int64_some (by omega) (by omega),
        uint64_some (by omega)]
      split <;> rfl
    · unfold DiskLimiter.admitWrite
      rw [if_pos (by omega)]
      rfl
  | count now written =>
    have hfit : l.writtenBytes + (written - l.counted) < 2 ^ 64 := hroom
    show (DiskLimiter.count b l now written).isSome
    rw [count_eq hb h, uint64_some hfit]
    split
    · rfl
    · split <;> rfl
  | status now =>
    show (DiskLimiter.refill b l now).isSome
    rw [refill_eq hb h]
    rfl

/-! ## Stretches of calls -/

/-- The calls read the clock within a time. -/
def Within (t₀ t : Int) (_ : DiskLimiter) (c : Call) : Prop := t₀ ≤ c.now ∧ c.now ≤ t

/-- An amount with what is left of the budget, and without it, is within the burst and the rate for the
time from `t₀` to the last credit before `t`. -/
def Covered (b : WriteBudget) (amount t₀ t : Int) (l : DiskLimiter) : Prop :=
  t₀ ≤ l.refilledAt ∧
    amount * day + max l.level 0 ≤ b.burstBytes * day + b.bytesPerDay * (min l.refilledAt t - t₀)

theorem Covered.refilled (hb : b.Limits) (h : Covered b amount t₀ t l) (hnow : now ≤ t) :
    Covered b amount t₀ t (l.refilled b now) := by
  obtain ⟨⟨hrate, -⟩, -, -⟩ := hb.bounds
  obtain ⟨hat, hle⟩ := h
  have hlevel := level_refilled_le hb l now
  have hat' := refilledAt_refilled b l now
  refine ⟨by omega, ?_⟩
  -- the credit is for the time the last credit moves on, which `t` does not cut
  have hmoves : min (l.refilled b now).refilledAt t =
      min l.refilledAt t + ((l.refilled b now).refilledAt - l.refilledAt) := by omega
  have hrise : 0 ≤ b.bytesPerDay * ((l.refilled b now).refilledAt - l.refilledAt) :=
    mul_nonneg hrate.le (by omega)
  rw [hmoves, show min l.refilledAt t + ((l.refilled b now).refilledAt - l.refilledAt) - t₀ =
    (min l.refilledAt t - t₀) + ((l.refilled b now).refilledAt - l.refilledAt) by ring, mul_add]
  omega

/-- What is covered with the budget credited is covered after a call that admits more. -/
theorem Covered.called (hb : b.Limits) (hr : Inv b r) (h : Covered b amount t₀ t r)
    (hcalled : Called b l r c l') : Covered b (amount + (l'.admittedBytes - l.admittedBytes)) t₀ t l' := by
  obtain ⟨hat, hle⟩ := h
  have hlevel := hcalled.level_le hr hb
  refine ⟨by rw [hcalled.refilledAt]; exact hat, ?_⟩
  rw [hcalled.refilledAt, add_mul]
  rcases hcalled.spent with hsame | ⟨-, -, hleft⟩
  · rw [hsame] at hlevel ⊢
    omega
  · have : 0 ≤ l'.level := by
      have := mul_nonneg hleft day_pos.le
      unfold DiskLimiter.level
      omega
    omega

/-- Nothing was admitted since `l`, or what was is covered. -/
def Spent (b : WriteBudget) (l : DiskLimiter) (t₀ t : Int) (l' : DiskLimiter) : Prop :=
  l'.admittedBytes = l.admittedBytes ∨ Covered b (l'.admittedBytes - l.admittedBytes) t₀ t l'

theorem Spent.step (hb : b.Limits) {m m' : DiskLimiter} (h : Inv b m) (hm : Spent b l t₀ t m)
    (hc : Within t₀ t m c) (hs : m.step b c = some m') : Spent b l t₀ t m' := by
  obtain ⟨⟨hrate, -⟩, hburst, -⟩ := hb.bounds
  obtain ⟨r, hr, hcalled⟩ := step_called hb h hs
  have hsum : (m'.admittedBytes - l.admittedBytes : Int) =
      (m.admittedBytes - l.admittedBytes) + (m'.admittedBytes - m.admittedBytes) := by ring
  rcases hm with hnone | hcovered
  · by_cases hsame : m'.admittedBytes = m.admittedBytes
    · exact .inl (hsame.trans hnone)
    · -- the first bytes of the stretch come out of a budget that is at most full
      rcases hr with ⟨-, hno⟩ | rfl
      · exact absurd hno hsame
      · have hfull := (h.refilled hb c.now).full
        have hat' := refilledAt_refilled b m c.now
        obtain ⟨hlo, hhi⟩ := hc
        have hrise : 0 ≤ b.bytesPerDay * (min (m.refilled b c.now).refilledAt t - t₀) :=
          mul_nonneg hrate.le (by omega)
        have hcap : 0 ≤ b.burstBytes * day := mul_nonneg hburst.le day_pos.le
        have hstart : Covered b 0 t₀ t (m.refilled b c.now) := ⟨by omega, by omega⟩
        have := hstart.called hb (h.refilled hb _) hcalled
        rw [zero_add] at this
        refine .inr ?_
        rw [hsum, hnone, sub_self, zero_add]
        exact hnone ▸ this
  · refine .inr ?_
    rw [hsum]
    rcases hr with ⟨rfl, -⟩ | rfl
    · exact hcovered.called hb h hcalled
    · exact (hcovered.refilled hb hc.2).called hb (h.refilled hb _) hcalled

/-- The bytes admitted between two moments are within the burst and the rate for the time between
them. -/
theorem admitted_le (hb : b.Limits) (h : Inv b l) (ht : t₀ ≤ t)
    (hr : Runs (DiskLimiter.step b) (Within t₀ t) l l') :
    (l'.admittedBytes - l.admittedBytes : Int) * day ≤
      b.burstBytes * day + b.bytesPerDay * (t - t₀) := by
  obtain ⟨⟨hrate, -⟩, hburst, -⟩ := hb.bounds
  have hspent : Inv b l' ∧ Spent b l t₀ t l' :=
    Runs.invariant (I := fun m => Inv b m ∧ Spent b l t₀ t m)
      (fun _ _ _ hi hc hs => ⟨hi.1.step hb hs, hi.2.step hb hi.1 hc hs⟩) ⟨h, .inl rfl⟩ hr
  rcases hspent.2 with hnone | ⟨-, hle⟩
  · have hcap : 0 ≤ b.burstBytes * day := mul_nonneg hburst.le day_pos.le
    have hrise : 0 ≤ b.bytesPerDay * (t - t₀) := mul_nonneg hrate.le (by omega)
    rw [hnone, sub_self, zero_mul]
    omega
  · have : b.bytesPerDay * (min l'.refilledAt t - t₀) ≤ b.bytesPerDay * (t - t₀) :=
      mul_le_mul_of_nonneg_left (by omega) hrate.le
    omega

theorem refill_readings (hb : b.Limits) (h : Inv b l) (ht : t - l.refilledAt < 2 ^ 63)
    {readings : List Int} (hle : ∀ u ∈ readings, u ≤ t) :
    (readings.foldlM (DiskLimiter.refill b) l).bind (fun x => x.refill b t) = l.refill b t := by
  induction readings generalizing l with
  | nil => rfl
  | cons u rest ih =>
    have hu : u ≤ t := hle u (by simp)
    have hat := refilledAt_refilled b l u
    have hfirst : (u :: rest).foldlM (DiskLimiter.refill b) l =
        rest.foldlM (DiskLimiter.refill b) (l.refilled b u) := by
      rw [List.foldlM_cons, refill_eq hb h]
      rfl
    rw [hfirst, ih (h.refilled hb _) (by omega) fun v hv => hle v (by simp [hv]),
      refill_eq hb (h.refilled hb _), refill_eq hb h, refilled_refilled hb hu ht]

/-- What was counted is what was charged and what was admitted and is not pending. -/
theorem sum_charge (hb : b.Limits) (h : Inv b l) {calls : List Call}
    (hs : exec (DiskLimiter.step b) (fun _ _ => true) l calls = some l') :
    l.sum b DiskLimiter.charge calls + (l'.admittedBytes - l.admittedBytes : Int) =
      l.sum b DiskLimiter.seen calls + (l'.pending - l.pending) := by
  induction calls generalizing l with
  | nil =>
    cases hs
    simp [DiskLimiter.sum]
  | cons c rest ih =>
    obtain ⟨m, hm, hrest⟩ := Option.bind_eq_some_iff.mp hs
    have hih := ih (h.step hb hm) hrest
    obtain ⟨r, -, hcalled⟩ := step_called hb h hm
    have hcount := hcalled.counted
    simp only [DiskLimiter.sum, hm, Option.map_some, Option.getD_some]
    omega

/-! ## The budget as a whole -/

/-- Under a valid budget other than the zero one, in every state that calls reach:

* the bytes admitted between any two moments are at most the burst and the rate for the time between
  them;
* the tokens stay within a burst either way, and no sum, product or division leaves its type at any
  reading of the clock, as long as the running totals fit theirs;
* crediting a time no longer than a `time.Duration` in steps gives what crediting it at once gives;
* over any calls, what the counts charge is what the device counted less what was admitted and has been
  counted, and each call takes from the tokens what it admits or charges and nothing else;
* a refused write leaves the tokens as credited and nothing pending;
* a write admitted at one priority is admitted at every higher one. -/
theorem writes_within_budget {start : Int} (hb : b.Valid) (hz : b ≠ .zero)
    (hr : Machine.Runs (DiskLimiter.step b) (fun _ _ => True) (newDiskLimiter b start) l) :
    (∀ t₀ t l', t₀ ≤ t → Machine.Runs (DiskLimiter.step b) (Within t₀ t) l l' →
      (l'.admittedBytes - l.admittedBytes : Int) * day ≤
        b.burstBytes * day + b.bytesPerDay * (t - t₀)) ∧
    (-b.burstBytes ≤ l.tokens ∧ l.tokens ≤ b.burstBytes) ∧
    (∀ c, Room l c → (l.step b c).isSome) ∧
    (∀ (readings : List Int) t, (∀ u ∈ readings, u ≤ t) → t - l.refilledAt < 2 ^ 63 →
      (readings.foldlM (DiskLimiter.refill b) l).bind (fun x => x.refill b t) = l.refill b t) ∧
    (∀ calls l', Machine.exec (DiskLimiter.step b) (fun _ _ => true) l calls = some l' →
      0 ≤ l'.pending ∧ l.sum b DiskLimiter.charge calls + (l'.admittedBytes - l.admittedBytes : Int) =
        l.sum b DiskLimiter.seen calls + (l'.pending - l.pending)) ∧
    (∀ c l', l.step b c = some l' → ∃ r, (r = l ∨ l.refill b c.now = some r) ∧
      l'.tokens = max (r.tokens - (l'.admittedBytes - l.admittedBytes : Int) - l.charge c)
        (-b.burstBytes)) ∧
    (∀ now n priority l', l.admitWrite b now n priority = some (false, l') →
      l'.pending = l.pending ∧ l'.admittedBytes = l.admittedBytes ∧
        ∃ r, (r = l ∨ l.refill b now = some r) ∧ l'.tokens = r.tokens ∧ l'.carry = r.carry) ∧
    (∀ now n p q l', p ≤ q → l.admitWrite b now n p = some (true, l') →
      ∃ l'', l.admitWrite b now n q = some (true, l'')) := by
  have hlim : b.Limits := ⟨hb, hz⟩
  have h : Inv b l := (Inv.new hlim).runs hlim hr
  refine ⟨fun t₀ t l' ht hw => admitted_le hlim h ht hw, ⟨h.debt, h.le_burst⟩,
    fun c hc => step_isSome hlim h hc, fun readings t hle ht => refill_readings hlim h ht hle,
    fun calls l' hs => ⟨?_, sum_charge hlim h hs⟩, fun c l' hs => ?_, fun now n p l' hs => ?_,
    fun now n p q l' hpq hs => ?_⟩
  · have hruns : Runs (DiskLimiter.step b) (fun _ _ => True) l l' :=
      exec_runs (fun _ _ _ => trivial) hs
    exact (h.runs hlim hruns).pending.1
  · obtain ⟨r, hr, hcalled⟩ := step_called hlim h hs
    refine ⟨r, ?_, hcalled.tokens⟩
    rcases hr with ⟨rfl, -⟩ | rfl
    · exact .inl rfl
    · exact .inr (refill_eq hlim h _)
  · rcases admitWrite_some hlim h hs with ⟨-, -, rfl⟩ | ⟨-, rfl⟩ | ⟨-, -, -, hno, -⟩
    · exact ⟨rfl, rfl, l', .inl rfl, rfl, rfl⟩
    · exact ⟨pending_refilled, admittedBytes_refilled, l.refilled b now,
        .inr (refill_eq hlim h _), rfl, rfl⟩
    · cases hno
  · rcases admitWrite_some hlim h hs with ⟨-, hno, -⟩ | ⟨hno, -⟩ | ⟨hn, hleft, -, -, -⟩
    · cases hno
    · cases hno
    · -- the same totals are added, and less is kept in reserve
      have hkeep := reserve_anti hlim hpq
      rw [admitWrite_eq hlim h hn.1 hn.2, if_neg (by omega)] at hs
      rw [admitWrite_eq hlim h hn.1 hn.2, if_neg (by omega)]
      exact ⟨l', hs⟩

def gibibyte : WriteBudget := ⟨2 ^ 30, 2 ^ 20⟩

/-- An hour after the burst was spent. -/
def spent : Option DiskLimiter :=
  Machine.exec (DiskLimiter.step gibibyte) (fun _ _ => true) (newDiskLimiter gibibyte 0)
    [.count 0 7, .admitWrite 5 (2 ^ 20) 3, .status (3600 * 10 ^ 9)]

theorem spent_isSome : spent.isSome := by decide +kernel

theorem spent_runs : Runs (DiskLimiter.step gibibyte) (fun _ _ => True)
    (newDiskLimiter gibibyte 0) (spent.get spent_isSome) :=
  exec_runs (fun _ _ _ => trivial) (Option.some_get spent_isSome).symm

theorem writes_within_budget_gibibyte :
    gibibyte.Valid ∧ gibibyte ≠ .zero ∧ (spent.get spent_isSome).tokens ≤ gibibyte.burstBytes :=
  ⟨by decide +kernel, by decide +kernel,
    (writes_within_budget (by decide +kernel) (by decide +kernel) spent_runs).2.1.2⟩

/-! ### Where the bound, the totals and the durations end -/

/-- The widest valid budget. -/
def widest : WriteBudget := ⟨2 ^ 60, 2 ^ 60⟩

/-- Seven bursts of it admitted a day apart, with no count of the device between them. -/
def uncounted : DiskLimiter :=
  { tokens := 0, refilledAt := 6 * day, pending := 7 * 2 ^ 60, admittedBytes := 7 * 2 ^ 60 }

/-- A byte a day. -/
def slowest : WriteBudget := ⟨1, 2 ^ 60⟩

/-- Its burst admitted at once. -/
def drained : DiskLimiter :=
  { tokens := 0, refilledAt := 0, pending := 2 ^ 60, admittedBytes := 2 ^ 60 }

/-- The zero budget is valid and admits past any burst and rate; an eighth burst takes what is pending
out of its type; and a time of more than 2^63 nanoseconds credited at once gives less than in two
steps. -/
theorem write_budget_limits :
    (WriteBudget.zero.Valid ∧ (newDiskLimiter .zero 0).admitWrite .zero 0 2 0 =
      some (true, { newDiskLimiter .zero 0 with admittedBytes := 2 })) ∧
    (widest.Valid ∧ Machine.exec (DiskLimiter.step widest) (fun _ _ => true) (newDiskLimiter widest 0)
        ((List.range 7).map fun i => .admitWrite (i * day) (2 ^ 60) 3) = some uncounted ∧
      uncounted.step widest (.admitWrite (7 * day) (2 ^ 60) 3) = none) ∧
    (slowest.Valid ∧
      (newDiskLimiter slowest 0).admitWrite slowest 0 (2 ^ 60) 3 = some (true, drained) ∧
      (drained.refill slowest (2 ^ 62)).bind (fun x => x.refill slowest (2 ^ 63 + day)) ≠
        drained.refill slowest (2 ^ 63 + day)) := by
  refine ⟨⟨by decide, ?_⟩, ⟨by decide +kernel, ?_, ?_⟩, by decide +kernel, ?_, ?_⟩ <;> decide +kernel

end Sproutfs.Resource

import Sproutfs.Resource.Proofs.BudgetStepProofs

/-!
# Who the budget charges next

A lease is made or grows only where no one waits, or it is that of the waiter granted next; a closed
lease stays as it is. With the books this is what holds in every state that calls reach.
-/

namespace Sproutfs.Resource.Memory

open Option Function

variable {s s' : Budget} {i : Nat} {c : Call}

/-- The lease is charged and not closed. -/
def Outstanding (lease : Option Lease) : Prop := ∃ l, lease = some l ∧ l.closed = false

/-- A lease of call `j` is made, or grows. -/
def Gains (s s' : Budget) (j : Nat) : Prop :=
  charge (s.leases j) < charge (s'.leases j) ∨
    ¬Outstanding (s.leases j) ∧ Outstanding (s'.leases j)

/-- Closed leases stay as they are. -/
def KeepsClosed (s s' : Budget) : Prop :=
  ∀ j l, s.leases j = some l → l.closed = true → s'.leases j = some l

/-- A lease gains where the queue is empty, or it is that of a waiter that is granted. -/
structure Fair (s s' : Budget) : Prop where
  gains : ∀ j, Gains s s' j → s.queue = [] ∨ j ∈ s.waiting ∧ j ∈ s'.granted
  closed : KeepsClosed s s'

theorem not_gains_of_same {j : Nat} (h : s'.leases j = s.leases j) : ¬Gains s s' j := by
  rintro (hlt | ⟨hno, hyes⟩)
  · rw [h] at hlt
    exact lt_irrefl _ hlt
  · rw [h] at hyes
    exact hno hyes

theorem fair_of_same (h : s'.leases = s.leases) : Fair s s' := by
  refine ⟨fun j hj => absurd hj (not_gains_of_same (by rw [h])), ?_⟩
  intro j l hl _
  rw [h]
  exact hl

theorem Fair.setPhase (h : Fair s s') (p : Phase) : Fair s (s'.setPhase i c p) := ⟨h.gains, h.closed⟩

theorem keepsClosed_update {l : Lease} (hleases : s'.leases = update s.leases i (some l))
    (hopen : ∀ m, s.leases i = some m → m.closed = false) : KeepsClosed s s' := by
  intro j m hm hclosed
  have hj : j ≠ i := by
    rintro rfl
    rw [hopen m hm] at hclosed
    cases hclosed
  rw [hleases, update_of_ne hj]
  exact hm

theorem not_gains_of_update {j : Nat} {l : Lease}
    (hleases : s'.leases = update s.leases i (some l))
    (hle : l.amount ≤ charge (s.leases i)) (hopen : l.closed = false → Outstanding (s.leases i)) :
    ¬Gains s s' j := by
  by_cases hj : j = i
  · subst hj
    rintro (hlt | ⟨hno, hyes⟩)
    · rw [hleases, update_self] at hlt
      exact absurd hle (not_le.mpr hlt)
    · rw [hleases, update_self] at hyes
      obtain ⟨m, hm, hclosed⟩ := hyes
      cases hm
      exact hno (hopen hclosed)
  · exact not_gains_of_same (by rw [hleases, update_of_ne hj])

theorem Books.waiting_none (h : Books s) {j : Nat} (hj : j ∈ s.waiting) : s.leases j = none := by
  obtain ⟨w, hw, rfl⟩ := List.mem_map.mp hj
  obtain ⟨-, c, hc, hkind, -⟩ := h.calls.waiter w hw
  have hfits := h.fits hc
  rw [hkind] at hfits
  rcases hfits with ⟨-, hnone, -⟩ | ⟨hno, -⟩
  · exact hnone
  · exact absurd hj hno

theorem fair_grantLocked (h : Books s) {s₁ : Budget} (hno : ∀ j, ¬Gains s s₁ j)
    (hclosed : KeepsClosed s s₁) (hsub : ∀ j ∈ s₁.waiting, j ∈ s.waiting) :
    Fair s s₁.grantLocked := by
  refine ⟨?_, ?_⟩
  · intro j hj
    rcases leases_grantLoop (s := s₁) s₁.queue.length j with hsame | ⟨hin, hgranted⟩
    · refine absurd ?_ (hno j)
      unfold Gains at hj ⊢
      rwa [Budget.grantLocked, hsame] at hj
    · exact .inr ⟨hsub j hin, hgranted⟩
  · intro j l hl hcl
    rcases leases_grantLoop (s := s₁) s₁.queue.length j with hsame | ⟨hin, -⟩
    · rw [Budget.grantLocked, hsame]
      exact hclosed j l hl hcl
    · rw [h.waiting_none (hsub j hin)] at hl
      cases hl

theorem fair_attempt (h : Books s) {r : Option Reclaim} {task : Task} {q : Bool}
    (hc : s.calls i = some ⟨task, .attempt r, q⟩) (p : Phase) :
    Fair s ((s.attempt i ⟨task, .attempt r, q⟩).2.setPhase i ⟨task, .attempt r, q⟩ p) := by
  by_cases hq : q = true
  · subst hq
    exact fair_of_same rfl
  · have hq' : q = false := by simpa using hq
    subst hq'
    rcases attempt_cases (s := s) (i := i) (c := ⟨task, .attempt r, false⟩) rfl with
      ⟨-, hsame⟩ | ⟨hempty, -, ⟨-, heq⟩ | ⟨l, n, lease, -, hlease, hopen, heq⟩⟩
    · rw [hsame]
      exact fair_of_same rfl
    · rw [heq]
      have hfits := h.fits hc
      have hkind : Call.kind ⟨task, .attempt r, false⟩ = .idle := by simp [Call.kind]
      rw [hkind] at hfits
      refine ⟨fun _ _ => .inl hempty, keepsClosed_update (i := i) rfl ?_⟩
      intro m hm
      rw [hfits.2.1] at hm
      cases hm
    · rw [heq]
      refine ⟨fun _ _ => .inl hempty, keepsClosed_update (i := l) rfl ?_⟩
      intro m hm
      rw [hlease] at hm
      cases hm
      exact hopen

theorem fair_enqueue (h : Books s) (hc : s.calls i = some c) (hphase : c.phase = .enqueue) :
    Fair s (s.enqueue i c) := by
  have hsound := h.sound hc
  have hq : c.queued = false := by
    by_contra hq
    exact (hsound.queued (by simpa using hq)).2.2.2.2 hphase
  have hfits := h.fits hc
  have hkind : c.kind = .idle := by simp [Call.kind, hphase, hq]
  rw [hkind] at hfits
  unfold Budget.enqueue
  split
  · exact fair_of_same rfl
  · split
    case isTrue hroom =>
      refine ⟨fun _ _ => .inl hroom.1, keepsClosed_update (i := i) rfl ?_⟩
      intro m hm
      rw [hfits.2.1] at hm
      cases hm
    case isFalse => exact fair_of_same rfl

theorem fair_endLease (h : Books s) (s₀ : Budget) (amount : Int) (hleases : s₀.leases = s.leases)
    (hsub : ∀ j ∈ s₀.waiting, j ∈ s.waiting) (hopen : ∀ m, s.leases i = some m → m.closed = false) :
    Fair s (s₀.endLease i amount) := by
  have hupdate : update s₀.leases i (some { amount := 0, closed := true }) =
      update s.leases i (some { amount := 0, closed := true }) := by rw [hleases]
  refine fair_grantLocked h (fun j => not_gains_of_update hupdate ?_ ?_)
    (keepsClosed_update hupdate hopen) hsub
  · cases hl : s.leases i with
    | none => exact le_refl _
    | some l => exact (h.ledger.lease i l hl).1
  · intro hno
    cases hno

theorem fair_abandon (h : Books s) (hc : s.calls i = some c) (hphase : c.phase = .select) :
    Fair s (s.abandon i c) := by
  have hsound := h.sound hc
  have hq := hsound.select hphase
  obtain ⟨⟨n, htask⟩, -⟩ := hsound.queued hq
  have hfits := h.fits hc
  rw [Call.kind_of_queued (by rw [htask]; trivial) hq (by simp [hphase]) (by simp [hphase])] at hfits
  refine Fair.setPhase (fair_endLease h { s with queue := s.queue.filter (·.call ≠ i) } _ rfl ?_ ?_) _
  · intro j hj
    obtain ⟨w, hw, rfl⟩ := List.mem_map.mp hj
    exact mem_waiting (List.mem_filter.mp hw).1
  · intro m hm
    rcases hfits with ⟨-, hnone, -⟩ | ⟨-, hlease, -⟩
    · rw [hnone] at hm
      cases hm
    · rw [hlease] at hm
      cases hm
      rfl

theorem fair_close (h : Books s) : Fair s (s.close i) := by
  unfold Budget.close
  split
  · exact fair_of_same rfl
  · next l hlease =>
    split
    · exact fair_of_same rfl
    · next hopen =>
      refine fair_endLease h s _ rfl (fun _ hj => hj) ?_
      intro m hm
      rw [hlease] at hm
      cases hm
      simpa using hopen

theorem fair_release (h : Books s) (n : Int) : Fair s (s.release i n) := by
  unfold Budget.release
  split
  · exact fair_of_same rfl
  · next l hlease =>
    split
    · exact fair_of_same rfl
    · next hok =>
      have hopen : l.closed = false := by
        by_contra hno
        exact hok (.inr (.inl (by simpa using hno)))
      refine fair_grantLocked h (fun j => not_gains_of_update (i := i) rfl ?_ ?_)
        (keepsClosed_update (i := i) rfl ?_) fun _ hj => hj
      · rw [hlease]
        show l.amount - n ≤ l.amount
        omega
      · intro _
        exact ⟨l, hlease, hopen⟩
      · intro m hm
        rw [hlease] at hm
        cases hm
        exact hopen

/-! ## The step -/

/-- Every step keeps the books, and what it charges goes to waiters first. -/
theorem Inv.step {a : Action} (h : Inv s) (hs : s.step a = some s') : Inv s' ∧ Fair s s' := by
  revert hs
  fun_cases Budget.step s a <;> rintro ⟨⟩
  next task hmay => exact ⟨h.start task hmay, fair_of_same rfl⟩
  next => exact ⟨h.aside _ _ _, fair_of_same rfl⟩
  next hc => exact ⟨h.check hc rfl, fair_of_same rfl⟩
  next hc _ => exact ⟨h.attempt hc rfl, fair_attempt h.books hc _⟩
  next hc => exact ⟨(h.reclaims hc (.inl rfl) (.inl ⟨_, rfl⟩)).aside _ _ _, fair_of_same rfl⟩
  -- a cache has evicted or not, or the context has ended; then the round ends
  next hc _ _ => exact ⟨h.reclaims hc (.inr ⟨_, rfl⟩) (.inr (.inr rfl)), fair_of_same rfl⟩
  next hc _ _ => exact ⟨h.reclaims hc (.inr ⟨_, rfl⟩) (.inr (.inl ⟨_, rfl⟩)), fair_of_same rfl⟩
  next hc _ _ _ => exact ⟨h.reclaims hc (.inr ⟨_, rfl⟩) (.inl ⟨_, rfl⟩), fair_of_same rfl⟩
  next hc _ => exact ⟨h.reclaims hc (.inr ⟨_, rfl⟩) (.inl ⟨_, rfl⟩), fair_of_same rfl⟩
  next hc _ _ => exact ⟨h.reclaims hc (.inr ⟨_, rfl⟩) (.inr (.inl ⟨_, rfl⟩)), fair_of_same rfl⟩
  next hc => exact ⟨(h.uncount hc rfl).aside _ _ _, fair_of_same rfl⟩
  next hc => exact ⟨h.recheck hc rfl, fair_of_same rfl⟩
  next hc => exact ⟨h.enqueue hc rfl, fair_enqueue h.books hc rfl⟩
  next hc hgranted => exact ⟨h.takeGrant hc rfl hgranted, fair_of_same rfl⟩
  next hc _ => exact ⟨h.abandon hc rfl, fair_abandon h.books hc rfl⟩
  next hc => exact ⟨h.giveBack hc rfl, (fair_close h.books).setPhase _⟩
  next hd => exact ⟨h.close hd, fair_close h.books⟩
  next n hd => exact ⟨h.release hd n, fair_release h.books n⟩
  next => exact ⟨h.aside _ _ _, fair_of_same rfl⟩
  next => exact ⟨h.aside _ _ _, fair_of_same rfl⟩

theorem inv_new (limit : Nat) : Inv (Budget.new limit) := by
  refine ⟨⟨⟨rfl, Int.natCast_nonneg limit, ?_, fun _ _ => rfl⟩, ⟨fun _ _ => rfl, List.nodup_nil, ?_, ?_, ?_⟩,
    ⟨List.Pairwise.nil, List.Pairwise.nil, ?_, ?_, ?_⟩⟩, full_of_empty rfl, ?_⟩
  all_goals exact nofun

theorem Inv.runs (h : Inv s) (hr : Machine.Runs Budget.step (fun _ _ => True) s s') :
    Inv s' ∧ KeepsClosed s s' := by
  refine Machine.Runs.invariant (I := fun t => Inv t ∧ KeepsClosed s t) ?_ ⟨h, fun _ _ hl _ => hl⟩ hr
  rintro t a t' ⟨ht, hkeep⟩ - hs
  obtain ⟨ht', hfair⟩ := ht.step hs
  exact ⟨ht', fun j l hl hcl => hfair.closed j l (hkeep j l hl hcl) hcl⟩

end Sproutfs.Resource.Memory

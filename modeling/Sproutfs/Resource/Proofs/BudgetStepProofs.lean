import Sproutfs.Resource.Proofs.BudgetProofs

/-!
# Every step keeps the budget's books

One lemma for each way a step changes the budget: a call that only moves on, a lease charged where the
queue is empty, a waiter that queues, a lease that ends and the grants that follow.
-/

namespace Sproutfs.Resource.Memory

open Machine List Function Finset

variable {s s' : Budget} {i : Nat} {c : Call} {r : Option Reclaim} {l : Nat} {p : Phase}

theorem full_of_empty (h : s.queue = []) : Full s := by
  intro w hw
  rw [h] at hw
  cases hw

theorem Books.lend (h : Books s) (hc : s.calls i = some c) (hidle : Kind.Fits s i c.task.amount .idle)
    (hpos : 0 ≤ c.task.amount) (hfits : s.Fits c.task.amount) (hsound : Call.Sound { c with phase := p })
    (hkind : Call.kind { c with phase := p } = .holds ∨ Call.kind { c with phase := p } = .handed) :
    Books ((s.lend i c.task.amount).setPhase i c p) := by
  obtain ⟨hl, hcalls, ht⟩ := h
  obtain ⟨hnq, hnone, -⟩ := hidle
  have hleases : ((s.lend i c.task.amount).setPhase i c p).leases =
      update s.leases i (some { amount := c.task.amount }) := rfl
  refine ⟨?_, ?_, { ht with }⟩
  · refine hl.setLease (hcalls.lt_next hc) ?_ hleases rfl rfl ?_ hpos nofun
    · show s.used + c.task.amount = _
      rw [hnone]
      simp [charge]
    · show s.used + c.task.amount ≤ s.limit
      unfold Budget.Fits at hfits
      omega
  · refine hcalls.move hc { c with phase := p } rfl rfl rfl rfl ?_ hsound ?_ fun hi => absurd hi hnq
    · intro j hj
      rw [hleases, update_of_ne hj]
    · have hholds : Kind.Fits ((s.lend i c.task.amount).setPhase i c p) i c.task.amount .holds := by
        refine ⟨hnq, ?_⟩
        rw [hleases, update_self]
      exact hholds.lent hkind

theorem Books.grow (h : Books s) {lease : Lease} {n : Int} (hd : s.Handed l)
    (hlease : s.leases l = some lease) (hopen : lease.closed = false) (hpos : 0 ≤ n) (hfits : s.Fits n) :
    Books { s with
      used := s.used + n
      leases := update s.leases l (some { lease with amount := lease.amount + n }) } := by
  obtain ⟨hl, hcalls, ht⟩ := h
  obtain ⟨d, hd, hphase, hleases⟩ := hd
  have hkind : d.kind = .handed := by simp [Call.kind, hleases, hphase]
  have hnonneg := (hl.lease l lease hlease).1
  refine ⟨?_, hcalls.setLease hd hkind rfl rfl rfl rfl rfl, { ht with }⟩
  refine hl.setLease (hcalls.lt_next hd) ?_ rfl rfl rfl ?_ ?_ ?_
  · show s.used + n = s.used + (lease.amount + n - charge (s.leases l))
    rw [hlease]
    simp [charge]
  · show s.used + n ≤ s.limit
    unfold Budget.Fits at hfits
    omega
  · show 0 ≤ lease.amount + n
    omega
  · intro hcl
    rw [hopen] at hcl
    cases hcl

theorem Books.shrink (h : Books s) {lease : Lease} (lease' : Lease) (hd : s.Handed l)
    (hlease : s.leases l = some lease) (hle : lease'.amount ≤ lease.amount) (hpos : 0 ≤ lease'.amount)
    (hclosed : lease'.closed = true → lease'.amount = 0) :
    Books { s with
      used := s.used - (lease.amount - lease'.amount)
      leases := update s.leases l (some lease') } := by
  obtain ⟨hl, hcalls, ht⟩ := h
  obtain ⟨d, hd, hphase, hleases⟩ := hd
  have hkind : d.kind = .handed := by simp [Call.kind, hleases, hphase]
  have hused := hl.le
  refine ⟨?_, hcalls.setLease hd hkind rfl rfl rfl rfl rfl, { ht with }⟩
  refine hl.setLease (hcalls.lt_next hd) ?_ rfl rfl rfl ?_ hpos hclosed
  · show s.used - (lease.amount - lease'.amount) = s.used + (lease'.amount - charge (s.leases l))
    rw [hlease]
    simp only [charge]
    omega
  · show s.used - (lease.amount - lease'.amount) ≤ s.limit
    omega

theorem grantLoop_setPhase (n : Nat) (p : Phase) :
    (Budget.grantLoop n s).setPhase i c p = Budget.grantLoop n (s.setPhase i c p) := by
  induction n generalizing s with
  | zero => rfl
  | succ n ih =>
    have hqueue : (s.setPhase i c p).queue = s.queue := rfl
    rw [Budget.grantLoop, Budget.grantLoop, hqueue]
    cases s.queue with
    | nil => rfl
    | cons w rest =>
      show (if s.Fits w.amount then Budget.grantLoop n (s.grantTo w rest) else s).setPhase i c p =
        if s.Fits w.amount then _ else s.setPhase i c p
      by_cases hfits : s.Fits w.amount
      · rw [if_pos hfits, if_pos hfits, ih]
        rfl
      · rw [if_neg hfits, if_neg hfits]

/-- A call ends with its lease closed and its waiter, if it has one, out of the queue. -/
theorem Books.leave (h : Books s) (hc : s.calls i = some c) {amount : Int} {c' : Call}
    (hamount : amount = charge (s.leases i)) (hsound : c'.Sound) (hkind : c'.kind = .ended) :
    Books { s with
      used := s.used - amount
      queue := s.queue.filter (·.call ≠ i)
      calls := update s.calls i (some c')
      leases := update s.leases i (some { amount := 0, closed := true }) } := by
  obtain ⟨hl, hcalls, ht⟩ := h
  have hcharge : 0 ≤ charge (s.leases i) := by
    cases hli : s.leases i with
    | none => exact le_refl _
    | some l => exact (hl.lease i l hli).1
  have hwaiting : ∀ j, j ≠ i → (j ∈ (s.queue.filter (·.call ≠ i)).map Waiter.call ↔ j ∈ s.waiting) := by
    intro j hj
    simp only [Budget.waiting, List.mem_map, List.mem_filter]
    constructor
    · rintro ⟨w, ⟨hw, -⟩, rfl⟩
      exact ⟨w, hw, rfl⟩
    · rintro ⟨w, hw, rfl⟩
      exact ⟨w, ⟨hw, by simpa using hj⟩, rfl⟩
  have hne : ∀ w ∈ s.queue.filter (·.call ≠ i), w ∈ s.queue ∧ w.call ≠ i := fun w hw => by
    simpa using mem_filter.mp hw
  refine ⟨?_, hcalls.change (hcalls.lt_next hc) c' rfl rfl (hcalls.nodup.sublist (filter_sublist.map _))
    (fun w hw => .inl (hne w hw)) hwaiting (fun _ _ => .rfl) (fun _ hj => update_of_ne hj _ _) hsound ?_,
    ⟨?_, ht.granted, ?_, ?_, ht.issued.2⟩⟩
  · refine hl.setLease (hcalls.lt_next hc) ?_ rfl rfl rfl ?_ le_rfl fun _ => rfl
    · show s.used - amount = s.used + (0 - charge (s.leases i))
      omega
    · show s.used - amount ≤ s.limit
      have := hl.le
      omega
  · rw [hkind]
    refine ⟨fun hmem => ?_, fun l hl' => ?_⟩
    · obtain ⟨w, hw, hwi⟩ := mem_map.mp hmem
      exact (hne w hw).2 hwi
    · obtain rfl := Option.some.inj ((update_self i _ s.leases).symm.trans hl')
      exact ⟨rfl, rfl⟩
  · exact ht.queue.sublist filter_sublist
  · intro j hj w hw
    exact ht.before j hj w (hne w hw).1
  · intro w hw
    exact ht.issued.1 w (hne w hw).1

theorem Books.queues (h : Books s) (hc : s.calls i = some c)
    (hidle : Kind.Fits s i c.task.amount .idle) (hpos : 0 ≤ c.task.amount) {n : Int}
    (htask : c.task = .acquire n) :
    Books { s.setPhase i { c with queued := true } (.attempt none) with
      queue := s.queue ++ [⟨i, c.task.amount⟩]
      ticket := update s.ticket i s.tickets
      tickets := s.tickets + 1 } := by
  obtain ⟨hl, hcalls, ht⟩ := h
  obtain ⟨hnq, hnone, hng⟩ := hidle
  have hlt := hcalls.lt_next hc
  have hkind : Call.kind { task := c.task, phase := .attempt none, queued := true } = .waits :=
    Call.kind_of_queued (by rw [htask]; trivial) rfl (by simp) (by simp)
  -- the new waiter's ticket is above all others, and no other changes
  have hold : ∀ w ∈ s.queue, w.call ≠ i := fun w hw heq => hnq (heq ▸ mem_waiting hw)
  have hgold : ∀ j ∈ s.granted, j ≠ i := fun j hj heq => hng (heq ▸ hj)
  refine ⟨{ hl with }, hcalls.change hlt { task := c.task, phase := .attempt none, queued := true } rfl rfl ?_ ?_ ?_
    (fun _ _ => .rfl) (fun _ _ => rfl) ⟨fun _ => ⟨⟨n, htask⟩, hpos, by simp, by simp, by simp⟩, fun _ _ => hpos,
      by simp, by simp, by simp, by simp⟩ ?_, ⟨?_, ?_, ?_, ?_, ?_⟩⟩
  · show ((s.queue ++ [_]).map Waiter.call).Nodup
    rw [map_append, nodup_append]
    refine ⟨hcalls.nodup, by simp, ?_⟩
    intro j hj k hk
    obtain rfl : k = i := by simpa using hk
    exact fun heq => hnq (heq ▸ hj)
  · intro w hw
    rcases mem_append.mp hw with hw | hw
    · exact .inl ⟨hw, hold w hw⟩
    · obtain rfl := List.mem_singleton.mp hw
      exact .inr ⟨rfl, hpos, hkind, rfl⟩
  · intro j hj
    show j ∈ (s.queue ++ [_]).map Waiter.call ↔ j ∈ s.queue.map Waiter.call
    rw [map_append, mem_append]
    simp [hj]
  · rw [hkind]
    refine .inl ⟨?_, hnone, hng⟩
    show i ∈ (s.queue ++ [_]).map Waiter.call
    simp
  · show (s.queue ++ [_]).Pairwise fun (v w : Waiter) =>
      update s.ticket i s.tickets v.call < update s.ticket i s.tickets w.call
    rw [pairwise_append]
    refine ⟨ht.queue.imp_of_mem ?_, pairwise_singleton _ _, ?_⟩
    · intro v w hv hw hvw
      rw [update_of_ne (hold v hv), update_of_ne (hold w hw)]
      exact hvw
    · intro v hv w hw
      obtain rfl := List.mem_singleton.mp hw
      rw [update_of_ne (hold v hv), update_self]
      exact ht.issued.1 v hv
  · refine ht.granted.imp_of_mem ?_
    intro j k hj hk hjk
    show update s.ticket i s.tickets j < update s.ticket i s.tickets k
    rw [update_of_ne (hgold j hj), update_of_ne (hgold k hk)]
    exact hjk
  · intro j hj w hw
    show update s.ticket i s.tickets j < update s.ticket i s.tickets w.call
    rw [update_of_ne (hgold j hj)]
    rcases mem_append.mp hw with hw | hw
    · rw [update_of_ne (hold w hw)]
      exact ht.before j hj w hw
    · obtain rfl := List.mem_singleton.mp hw
      rw [update_self]
      exact ht.issued.2 j hj
  · intro w hw
    show update s.ticket i s.tickets w.call < s.tickets + 1
    rcases mem_append.mp hw with hw | hw
    · rw [update_of_ne (hold w hw)]
      have := ht.issued.1 w hw
      omega
    · obtain rfl := List.mem_singleton.mp hw
      rw [update_self]
      omega
  · intro j hj
    show update s.ticket i s.tickets j < s.tickets + 1
    rw [update_of_ne (hgold j hj)]
    have := ht.issued.2 j hj
    omega

/-! ## Steps -/

theorem Books.fits (h : Books s) (hc : s.calls i = some c) : c.kind.Fits s i c.task.amount :=
  (h.calls.call i c hc).2

theorem Books.sound (h : Books s) (hc : s.calls i = some c) : c.Sound := (h.calls.call i c hc).1

/-- A call that is not done moves on; its task stays. -/
structure Advances (s s' : Budget) (i : Nat) (c c' : Call) : Prop where
  call : s.calls i = some c
  calls : s'.calls = Function.update s.calls i (some c')
  phase : ∀ res, c.phase ≠ .done res
  task : c'.task = c.task

theorem Advances.handed {c' : Call} (h : Advances s s' i c c') (hl : s.Handed l) : s'.Handed l := by
  obtain ⟨d, hd, hphase, hleases⟩ := hl
  have hne : l ≠ i := by
    rintro rfl
    rw [Option.mem_def, h.call] at hd
    cases hd
    exact h.phase _ hphase
  refine ⟨d, ?_, hphase, hleases⟩
  rw [Option.mem_def, h.calls, update_of_ne hne]
  exact hd

/-- Calls grow leases that are in their callers' hands. -/
def Grows (s : Budget) : Prop :=
  ∀ i c l n, s.calls i = some c → c.task = .tryGrow l n → s.Handed l

theorem Grows.advances {c' : Call} (h : Grows s) (hadv : Advances s s' i c c') : Grows s' := by
  intro j d l n hd htask
  rw [hadv.calls] at hd
  rcases update_some hd with ⟨rfl, rfl⟩ | ⟨-, hd⟩
  · exact hadv.handed (h j c l n hadv.call (hadv.task ▸ htask))
  · exact hadv.handed (h j d l n hd htask)

theorem Grows.same (h : Grows s) (hcalls : s'.calls = s.calls) : Grows s' := by
  intro j d l n hd htask
  rw [hcalls] at hd
  obtain ⟨e, he, hphase, hl⟩ := h j d l n hd htask
  exact ⟨e, by rw [hcalls]; exact he, hphase, hl⟩

/-- The books are right, and the head of the queue does not fit. -/
structure Inv (s : Budget) : Prop where
  books : Books s
  full : Full s
  grows : Grows s

theorem Inv.setPhase (h : Inv s) (hc : s.calls i = some c) (hphase : ∀ res, c.phase ≠ .done res)
    (hsound : Call.Sound { c with phase := p })
    (hfits : Kind.Fits s i c.task.amount (Call.kind { c with phase := p })) : Inv (s.setPhase i c p) :=
  ⟨h.books.setPhase hc hsound hfits, h.full, h.grows.advances ⟨hc, rfl, hphase, rfl⟩⟩

theorem Inv.aside (h : Inv s) (cancelled : Nat → Bool) (caches : List Nat) (reclaiming : Nat) :
    Inv { s with cancelled := cancelled, caches := caches, reclaiming := reclaiming } :=
  ⟨⟨{ h.books.ledger with }, { h.books.calls with }, { h.books.tickets with }⟩, h.full, h.grows.same rfl⟩

theorem started (s : Budget) (task : Task) :
    Call.Sound { task, phase := s.startPhase task } ∧
      (Call.kind { task, phase := s.startPhase task } = .idle ∨
        Call.kind { task, phase := s.startPhase task } = .ended) := by
  have hcheck : Call.Sound { task, phase := .check none } := by
    constructor <;> simp
  fun_cases Budget.startPhase s task
  case case1 n _ => exact ⟨hcheck.plain trivial, kind_done (c := ⟨.tryAcquire n, .check none, false⟩) (by simp)⟩
  case case3 => exact ⟨by constructor <;> simp, .inl (by simp [Call.kind])⟩
  all_goals exact ⟨hcheck, .inl (by simp [Call.kind])⟩

theorem Inv.start (h : Inv s) (task : Task) (hmay : s.MayStart task) :
    Inv { s with
      calls := update s.calls s.next (some { task, phase := s.startPhase task })
      next := s.next + 1 } := by
  obtain ⟨⟨hl, hc, ht⟩, hfull, hgrows⟩ := h
  have hnone : s.leases s.next = none := hl.fresh _ le_rfl
  have hnq : s.next ∉ s.waiting := by
    intro hmem
    obtain ⟨w, hw, hwn⟩ := mem_map.mp hmem
    obtain ⟨-, d, hd, -⟩ := hc.waiter w hw
    have := hc.lt_next hd
    omega
  have hng : s.next ∉ s.granted := fun hmem => absurd (hc.granted _ hmem) (by omega)
  refine ⟨⟨⟨?_, hl.le, hl.lease, ?_⟩, ⟨?_, hc.nodup, ?_, ?_, ?_⟩, { ht with }⟩,
    hfull, ?_⟩
  · show s.used = ∑ j ∈ range (s.next + 1), charge (s.leases j)
    rw [Finset.sum_range_succ, hnone, hl.sum]
    simp [charge]
  · intro j hj
    exact hl.fresh j (le_trans (Nat.le_succ _) hj)
  · intro j hj
    have hj' : s.next + 1 ≤ j := hj
    show update s.calls s.next _ j = none
    rw [update_of_ne (by omega)]
    exact hc.fresh j (by omega)
  · intro w hw
    obtain ⟨hpos, d, hd, hk, ha⟩ := hc.waiter w hw
    have := hc.lt_next hd
    refine ⟨hpos, d, ?_, hk, ha⟩
    show update s.calls s.next _ w.call = some d
    rw [update_of_ne (by omega)]
    exact hd
  · intro j hj
    exact Nat.lt_succ_of_lt (hc.granted j hj)
  · intro j d hd
    rcases update_some hd with ⟨rfl, rfl⟩ | ⟨hne, hd⟩
    · have hidle : Kind.Fits s s.next task.amount .idle := ⟨hnq, hnone, hng⟩
      obtain ⟨hsound, hkind⟩ := started s task
      exact ⟨hsound, (hidle.refused hkind).congr Iff.rfl rfl Iff.rfl⟩
    · obtain ⟨hs, hf⟩ := hc.call j d hd
      exact ⟨hs, hf.congr Iff.rfl rfl Iff.rfl⟩
  · -- the leases in hand are those of earlier calls
    have hkeep : ∀ l, s.Handed l → ∃ d ∈ update s.calls s.next
        (some { task, phase := s.startPhase task }) l, d.phase = .done .ok ∧ d.task.Leases := by
      rintro l ⟨d, hd, hphase, hleases⟩
      have := hc.lt_next hd
      refine ⟨d, ?_, hphase, hleases⟩
      rw [Option.mem_def, update_of_ne (by omega)]
      exact hd
    intro j d l n hd htask
    rcases update_some hd with ⟨rfl, rfl⟩ | ⟨-, hd⟩
    · obtain rfl : task = .tryGrow l n := htask
      exact hkeep l hmay
    · exact hkeep l (hgrows j d l n hd htask)

/-- A check refuses the call, or lets it pass with an amount that is not negative. -/
theorem checked_cases (pass : Phase) (refused : Result → Phase) :
    (s.checked i c pass refused = pass ∧ 0 ≤ c.task.amount) ∨
      ∃ res, res ≠ .ok ∧ s.checked i c pass refused = refused res := by
  unfold Budget.checked
  by_cases hneg : c.task.amount < 0
  · rw [if_pos hneg]
    exact .inr ⟨.errInvalid, by simp, rfl⟩
  · rw [if_neg hneg]
    split
    · exact .inr ⟨.cancelled, by simp, rfl⟩
    · exact .inl ⟨rfl, by omega⟩

theorem Inv.idle (h : Inv s) (hc : s.calls i = some c) (hkind : c.kind = .idle) :
    Kind.Fits s i c.task.amount .idle :=
  hkind ▸ h.books.fits hc

theorem Inv.check (h : Inv s) (hc : s.calls i = some c) (hphase : c.phase = .check r) :
    Inv (s.setPhase i c (s.checked i c (.attempt r) (Budget.afterAttempt c r))) := by
  have hsound := h.books.sound hc
  have hq : c.queued = false := by
    by_contra hq
    exact (hsound.queued (by simpa using hq)).2.2.1 r hphase
  have hidle := h.idle hc (by simp [Call.kind, hphase, hq])
  rcases checked_cases (s := s) (i := i) (c := c) (.attempt r) (Budget.afterAttempt c r) with
    ⟨heq, hpos⟩ | ⟨res, hres, heq⟩
  · rw [heq]
    refine h.setPhase hc (by simp [hphase]) ?_ (hidle.refused (.inl (by simp [Call.kind, hq])))
    exact ⟨fun hq' => by simp [hq] at hq', fun _ _ => hpos, by simp, by simp, by simp, by simp⟩
  · rw [heq]
    exact h.setPhase hc (by simp [hphase]) (hsound.afterAttempt r res)
      (hidle.refused (kind_afterAttempt hq hres))

/-- An attempt by a call that does not wait is refused, or charges a lease or grows one where the queue
is empty and the amount fits. -/
theorem attempt_cases (hq : c.queued = false) :
    ((s.attempt i c).1 ≠ .ok ∧ (s.attempt i c).2 = s) ∨ s.queue = [] ∧ s.Fits c.task.amount ∧
      (c.task.Leases ∧ s.attempt i c = (.ok, s.lend i c.task.amount) ∨
        ∃ l n lease, c.task = .tryGrow l n ∧ s.leases l = some lease ∧ lease.closed = false ∧
          s.attempt i c = (.ok, { s with
            used := s.used + n
            leases := update s.leases l (some { lease with amount := lease.amount + n }) })) := by
  fun_cases Budget.attempt s i c
  case case1 hwaits => cases hq.symm.trans hwaits
  case case3 n htask hroom | case5 n htask hroom =>
    push Not at hroom
    exact .inr ⟨hroom.1, by rw [htask]; exact hroom.2, .inl ⟨by rw [htask]; trivial, by rw [htask]; rfl⟩⟩
  case case7 n htask hroom =>
    push Not at hroom
    exact .inr ⟨hroom.2.1, by rw [htask]; exact hroom.2.2, .inl ⟨by rw [htask]; trivial, by rw [htask]; rfl⟩⟩
  case case11 l n htask lease hlease hopen hroom =>
    push Not at hroom
    exact .inr ⟨hroom.1, by rw [htask]; exact hroom.2,
      .inr ⟨l, n, lease, htask, hlease, by simpa using hopen, rfl⟩⟩
  all_goals exact .inl ⟨by simp, rfl⟩

theorem Inv.attempt (h : Inv s) (hc : s.calls i = some c) (hphase : c.phase = .attempt r) :
    Inv ((s.attempt i c).2.setPhase i c (Budget.afterAttempt c r (s.attempt i c).1)) := by
  have hsound := h.books.sound hc
  have hdone : ∀ res, c.phase ≠ .done res := by simp [hphase]
  by_cases hq : c.queued = true
  · -- a waiter reads its channel
    obtain ⟨⟨n, htask⟩, -⟩ := hsound.queued hq
    have hwaits : c.kind = .waits :=
      Call.kind_of_queued (by rw [htask]; trivial) hq hdone (by simp [hphase])
    have hsame : (s.attempt i c).2 = s := by simp [Budget.attempt, hq]
    rw [hsame]
    refine h.setPhase hc hdone (hsound.afterAttempt r _) ?_
    rw [kind_afterAttempt_queued hsound hq, ← hwaits]
    exact h.books.fits hc
  · have hq' : c.queued = false := by simpa using hq
    have hidle := h.idle hc (by simp [Call.kind, hphase, hq'])
    rcases attempt_cases (s := s) (i := i) hq' with
      ⟨hres, hsame⟩ | ⟨hempty, hfits, ⟨hl, heq⟩ | ⟨l, n, lease, htask, hlease, hopen, heq⟩⟩
    · rw [hsame]
      exact h.setPhase hc hdone (hsound.afterAttempt r _) (hidle.refused (kind_afterAttempt hq' hres))
    · rw [heq]
      refine ⟨?_, full_of_empty hempty, h.grows.advances ⟨hc, rfl, hdone, rfl⟩⟩
      exact h.books.lend hc hidle (hsound.attempt r hphase) hfits (hsound.afterAttempt r _)
        (kind_afterAttempt_ok hq' hl)
    · rw [heq]
      have hl : ¬c.task.Leases := by rw [htask]; exact id
      have hpos := hsound.attempt r hphase
      rw [htask] at hpos hfits
      have hinv : Inv { s with
          used := s.used + n
          leases := update s.leases l (some { lease with amount := lease.amount + n }) } :=
        ⟨h.books.grow (h.grows i c l n hc htask) hlease hopen hpos hfits, full_of_empty hempty,
          h.grows.same rfl⟩
      refine hinv.setPhase hc hdone (hsound.afterAttempt r _) ?_
      have hidle := hinv.books.fits hc
      rw [Call.kind_of_not_leases hl] at hidle
      rwa [Call.kind_of_not_leases (by exact hl)]

theorem Inv.reclaims (h : Inv s) (hc : s.calls i = some c) {p : Phase}
    (hphase : c.phase = .count ∨ ∃ r, c.phase = .evict r)
    (hp : (∃ r, p = .evict r) ∨ (∃ r, p = Budget.retry c r) ∨ p = .uncount .cancelled) :
    Inv (s.setPhase i c p) := by
  have hsound := h.books.sound hc
  have hdone : ∀ res, c.phase ≠ .done res := by
    rcases hphase with hphase | ⟨r, hphase⟩ <;> simp [hphase]
  have hback : c.phase ≠ .giveBack := by
    rcases hphase with hphase | ⟨r, hphase⟩ <;> simp [hphase]
  by_cases hq : c.queued = true
  · obtain ⟨⟨n, htask⟩, hpos, -⟩ := hsound.queued hq
    have hl : c.task.Leases := by rw [htask]; trivial
    have hkind : ∀ p, (∀ res, p ≠ .done res) → p ≠ .giveBack →
        Kind.Fits s i c.task.amount (Call.kind { c with phase := p }) := by
      intro p hpd hpb
      rw [Call.kind_of_queued (c := { c with phase := p }) hl hq hpd hpb,
        ← Call.kind_of_queued hl hq hdone hback]
      exact h.books.fits hc
    rcases hp with ⟨r, rfl⟩ | ⟨r, rfl⟩ | rfl
    · exact h.setPhase hc hdone (hsound.plain trivial) (hkind _ (by simp) (by simp))
    · simp only [Budget.retry, hq, if_true]
      refine h.setPhase hc hdone ?_ (hkind _ (by simp) (by simp))
      exact ⟨fun _ => ⟨⟨n, htask⟩, hpos, by simp, by simp, by simp⟩, fun _ _ => hpos, by simp, by simp,
        by simp, by simp⟩
    · exact h.setPhase hc hdone (hsound.plain trivial) (hkind _ (by simp) (by simp))
  · have hq' : c.queued = false := by simpa using hq
    have hidle := h.idle hc (by rcases hphase with hphase | ⟨r, hphase⟩ <;> simp [Call.kind, hphase, hq'])
    rcases hp with ⟨r, rfl⟩ | ⟨r, rfl⟩ | rfl
    · exact h.setPhase hc hdone (hsound.plain trivial)
        (hidle.refused (.inl (by simp [Call.kind, hq'])))
    · simp only [Budget.retry, hq', Bool.false_eq_true, if_false]
      refine h.setPhase hc hdone ?_ (hidle.refused (.inl (by simp [Call.kind, hq'])))
      exact ⟨fun hno => by simp [hq'] at hno, by simp, by simp, by simp, by simp, by simp⟩
    · exact h.setPhase hc hdone (hsound.plain trivial)
        (hidle.refused (.inl (by simp [Call.kind, hq'])))

theorem Inv.uncount (h : Inv s) (hc : s.calls i = some c) {res : Result}
    (hphase : c.phase = .uncount res) : Inv (s.setPhase i c (Budget.finish c res)) := by
  have hsound := h.books.sound hc
  have hdone : ∀ res, c.phase ≠ .done res := by simp [hphase]
  refine h.setPhase hc hdone (hsound.finish res) ?_
  have hfits := h.books.fits hc
  by_cases hl : c.task.Leases
  · by_cases hq : c.queued = true
    · have hselect : Budget.finish c res = .select := if_pos hq
      rw [hselect, Call.kind_of_queued (c := { c with phase := .select }) hl hq (by simp) (by simp),
        ← Call.kind_of_queued hl hq hdone (by simp [hphase])]
      exact hfits
    · have hq' : c.queued = false := by simpa using hq
      by_cases hres : res = .ok
      · subst hres
        have hkind : c.kind = .holds := by simp [Call.kind, hl, hphase, hq']
        rw [hkind] at hfits
        exact hfits.lent (.inr (kind_finish_ok hq' hl))
      · have hkind : c.kind = .idle := by
          cases res with
          | ok => exact absurd rfl hres
          | _ => simp [Call.kind, hphase, hq']
        rw [hkind] at hfits
        exact hfits.refused (kind_finish hq' hres)
  · rw [Call.kind_of_not_leases hl] at hfits
    rw [Call.kind_of_not_leases (c := { c with phase := Budget.finish c res }) hl]
    exact hfits

theorem Inv.recheck (h : Inv s) (hc : s.calls i = some c) (hphase : c.phase = .recheck) :
    Inv (s.setPhase i c (s.checked i c .enqueue .done)) := by
  have hsound := h.books.sound hc
  have hdone : ∀ res, c.phase ≠ .done res := by simp [hphase]
  have hq : c.queued = false := by
    by_contra hq
    exact (hsound.queued (by simpa using hq)).2.2.2.1 hphase
  have hidle := h.idle hc (by simp [Call.kind, hphase, hq])
  rcases checked_cases (s := s) (i := i) (c := c) .enqueue .done with ⟨heq, hpos⟩ | ⟨res, hres, heq⟩
  · rw [heq]
    refine h.setPhase hc hdone ?_ (hidle.refused (.inl (by simp [Call.kind, hq])))
    exact ⟨fun hno => by simp [hq] at hno, by simp, by simp, fun _ => ⟨hsound.recheck hphase, hpos⟩,
      by simp, by simp⟩
  · rw [heq]
    exact h.setPhase hc hdone (hsound.plain trivial) (hidle.refused (kind_done hres))

theorem Inv.enqueue (h : Inv s) (hc : s.calls i = some c) (hphase : c.phase = .enqueue) :
    Inv (s.enqueue i c) := by
  have hsound := h.books.sound hc
  have hdone : ∀ res, c.phase ≠ .done res := by simp [hphase]
  obtain ⟨⟨n, htask⟩, hpos⟩ := hsound.enqueue hphase
  have hq : c.queued = false := by
    by_contra hq
    exact (hsound.queued (by simpa using hq)).2.2.2.2 hphase
  have hidle := h.idle hc (by simp [Call.kind, hphase, hq])
  unfold Budget.enqueue
  by_cases hbig : s.limit < c.task.amount
  · rw [if_pos hbig]
    exact h.setPhase hc hdone (hsound.plain trivial) (hidle.refused (kind_done (by simp)))
  · rw [if_neg hbig]
    by_cases hroom : s.queue = [] ∧ s.Fits c.task.amount
    · rw [if_pos hroom]
      have hl : c.task.Leases := by rw [htask]; trivial
      exact ⟨h.books.lend hc hidle hpos hroom.2 (hsound.plain trivial) (.inr (by simp [Call.kind, hl])),
        full_of_empty hroom.1, h.grows.advances ⟨hc, rfl, hdone, rfl⟩⟩
    · rw [if_neg hroom]
      refine ⟨h.books.queues hc hidle hpos htask, ?_, h.grows.advances ⟨hc, rfl, hdone, rfl⟩⟩
      -- the head of a queue that was not empty stays; a first waiter does not fit
      intro w hw
      have hw' : w ∈ (s.queue ++ [Waiter.mk i c.task.amount]).head? := hw
      cases hqueue : s.queue with
      | nil =>
        rw [hqueue] at hw'
        obtain rfl : Waiter.mk i c.task.amount = w := by simpa using hw'
        exact fun hfits => hroom ⟨hqueue, hfits⟩
      | cons v rest =>
        rw [hqueue] at hw'
        obtain rfl : v = w := by simpa using hw'
        exact h.full v (by rw [hqueue]; rfl)

theorem Inv.takeGrant (h : Inv s) (hc : s.calls i = some c) (hphase : c.phase = .select)
    (hgranted : i ∈ s.granted) :
    Inv (s.setPhase i c (if s.cancelled i then .giveBack else .done .ok)) := by
  have hsound := h.books.sound hc
  have hdone : ∀ res, c.phase ≠ .done res := by simp [hphase]
  have hq := hsound.select hphase
  obtain ⟨⟨n, htask⟩, -⟩ := hsound.queued hq
  have hl : c.task.Leases := by rw [htask]; trivial
  have hfits := h.books.fits hc
  rw [Call.kind_of_queued hl hq hdone (by simp [hphase])] at hfits
  have hholds : Kind.Fits s i c.task.amount .holds := by
    rcases hfits with ⟨-, -, hno⟩ | ⟨hnq, hlease, -⟩
    · exact absurd hgranted hno
    · exact ⟨hnq, hlease⟩
  split
  · refine h.setPhase hc hdone ?_ (hholds.lent (.inl (by simp [Call.kind, hl])))
    exact ⟨fun _ => ⟨⟨n, htask⟩, (hsound.queued hq).2.1, by simp, by simp, by simp⟩, by simp, by simp,
      by simp, by simp, fun _ => ⟨n, htask⟩⟩
  · exact h.setPhase hc hdone (hsound.plain trivial) (hholds.lent (.inr (by simp [Call.kind, hl])))

theorem calls_grantLoop (n : Nat) : (Budget.grantLoop n s).calls = s.calls :=
  grantLoop_keeps (P := fun t => t.calls = s.calls) n rfl fun _ _ _ _ _ h => h

theorem Inv.grantLocked (h : Books s) (hgrows : Grows s) : Inv s.grantLocked :=
  ⟨h.grantLocked.1, h.grantLocked.2, hgrows.same (calls_grantLoop _)⟩

theorem Inv.leave (h : Inv s) (hc : s.calls i = some c) (hdone : ∀ res, c.phase ≠ .done res)
    (hl : c.task.Leases) (amount : Int) (hamount : amount = charge (s.leases i)) :
    Inv ((Budget.endLease { s with queue := s.queue.filter (·.call ≠ i) } i amount).setPhase i c
      (.done .cancelled)) := by
  have hsound := h.books.sound hc
  have hbooks := h.books.leave hc hamount (hsound.plain (p := .done .cancelled) trivial)
    (by simp [Call.kind, hl])
  have hadv : Advances s { s with
      used := s.used - amount
      queue := s.queue.filter (·.call ≠ i)
      calls := update s.calls i (some { c with phase := .done .cancelled })
      leases := update s.leases i (some { amount := 0, closed := true }) } i c
      { c with phase := .done .cancelled } := ⟨hc, rfl, hdone, rfl⟩
  unfold Budget.endLease Budget.grantLocked
  rw [grantLoop_setPhase]
  exact Inv.grantLocked hbooks (h.grows.advances hadv)

theorem Inv.abandon (h : Inv s) (hc : s.calls i = some c) (hphase : c.phase = .select) :
    Inv (s.abandon i c) := by
  have hsound := h.books.sound hc
  have hdone : ∀ res, c.phase ≠ .done res := by simp [hphase]
  have hq := hsound.select hphase
  obtain ⟨⟨n, htask⟩, -⟩ := hsound.queued hq
  have hl : c.task.Leases := by rw [htask]; trivial
  have hfits := h.books.fits hc
  rw [Call.kind_of_queued hl hq hdone (by simp [hphase])] at hfits
  refine h.leave hc hdone hl _ ?_
  -- a waiter in the queue has charged nothing, and one that is not was granted
  rcases hfits with ⟨hin, hnone, -⟩ | ⟨hout, hlease, -⟩
  · unfold Budget.waiting at hin
    rw [if_pos hin, hnone]
    rfl
  · unfold Budget.waiting at hout
    rw [if_neg hout, hlease]
    rfl

theorem Inv.giveBack (h : Inv s) (hc : s.calls i = some c) (hphase : c.phase = .giveBack) :
    Inv ((s.close i).setPhase i c (.done .cancelled)) := by
  obtain ⟨n, htask⟩ := (h.books.sound hc).giveBack hphase
  have hl : c.task.Leases := by rw [htask]; trivial
  have hfits := h.books.fits hc
  have hkind : c.kind = .holds := by simp [Call.kind, hl, hphase]
  rw [hkind] at hfits
  obtain ⟨hnq, hlease⟩ := hfits
  have hqueue : s.queue.filter (·.call ≠ i) = s.queue := by
    rw [filter_eq_self]
    intro w hw
    have hne : w.call ≠ i := fun heq => hnq (heq ▸ mem_waiting hw)
    simpa using hne
  have hclose : s.close i = s.endLease i c.task.amount := by
    simp [Budget.close, hlease]
  have := h.leave hc (by simp [hphase]) hl c.task.amount (by rw [hlease]; rfl)
  rw [hqueue] at this
  rw [hclose]
  exact this

theorem Inv.close (h : Inv s) (hd : s.Handed i) : Inv (s.close i) := by
  unfold Budget.close
  cases hlease : s.leases i with
  | none => exact h
  | some l =>
    by_cases hclosed : l.closed = true
    · simpa [hclosed] using h
    · have hpos := (h.books.ledger.lease i l hlease).1
      have hbooks := h.books.shrink { amount := 0, closed := true } hd hlease hpos le_rfl
        fun _ => rfl
      simp only [hclosed, Bool.false_eq_true, if_false]
      refine Inv.grantLocked ?_ (h.grows.same rfl)
      simpa using hbooks

theorem Inv.release (h : Inv s) (hd : s.Handed i) (n : Int) : Inv (s.release i n) := by
  unfold Budget.release
  cases hlease : s.leases i with
  | none => exact h
  | some l =>
    by_cases hbad : n < 0 ∨ l.closed = true ∨ l.amount < n
    · simpa [hbad] using h
    · have hclosed : l.closed = false := by
        by_contra hno
        exact hbad (.inr (.inl (by simpa using hno)))
      have hbooks := h.books.shrink { l with amount := l.amount - n } hd hlease
        (show l.amount - n ≤ l.amount by omega) (show 0 ≤ l.amount - n by omega)
        (fun hno => by simp [hclosed] at hno)
      simp only [if_neg hbad]
      refine Inv.grantLocked ?_ (h.grows.same rfl)
      have heq : s.used - (l.amount - (l.amount - n)) = s.used - n := by omega
      rw [← heq]
      exact hbooks

end Sproutfs.Resource.Memory

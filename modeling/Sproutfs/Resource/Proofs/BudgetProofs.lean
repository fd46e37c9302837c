import Sproutfs.Lib.Tally
import Sproutfs.Resource.Budget

/-!
# The budget's books and its queue

Between steps the budget has charged what the leases hold, no more than its limit, and the waiter at
the head of the queue does not fit. Waiters carry the number they queued under, so the order of the
grants is the order of those numbers.
-/

namespace Sproutfs.Resource.Memory

open Function Finset

/-! ## Invariants -/

/-- What has been charged is what the leases hold. -/
structure Ledger (s : Budget) : Prop where
  sum : s.used = ∑ i ∈ range s.next, charge (s.leases i)
  le : s.used ≤ s.limit
  lease : ∀ i l, s.leases i = some l → 0 ≤ l.amount ∧ (l.closed = true → l.amount = 0)
  fresh : ∀ i, s.next ≤ i → s.leases i = none

/-- What a call has of the budget. -/
inductive Kind where
  | idle
  | waits
  /-- A lease no one but the call knows. -/
  | holds
  | handed
  | ended
  deriving DecidableEq

def Call.kind (c : Call) : Kind :=
  if c.task.Leases then
    match c.phase with
    | .done .ok => .handed
    | .done _ => .ended
    | .giveBack => .holds
    | .uncount .ok => if c.queued then .waits else .holds
    | _ => if c.queued then .waits else .idle
  else .idle

/-- The calls of the waiters. -/
def Budget.waiting (s : Budget) : List Nat := s.queue.map Waiter.call

/-- The queue and the lease of a call are those of its kind. -/
def Kind.Fits (s : Budget) (i : Nat) (n : Int) : Kind → Prop
  | .idle => i ∉ s.waiting ∧ s.leases i = none ∧ i ∉ s.granted
  | .waits => i ∈ s.waiting ∧ s.leases i = none ∧ i ∉ s.granted ∨
      i ∉ s.waiting ∧ s.leases i = some { amount := n } ∧ i ∈ s.granted
  | .holds => i ∉ s.waiting ∧ s.leases i = some { amount := n }
  | .handed => i ∉ s.waiting ∧ s.leases i ≠ none
  | .ended => i ∉ s.waiting ∧ ∀ l, s.leases i = some l → l.closed = true ∧ l.amount = 0

/-- What its phase says of a call. -/
structure Call.Sound (c : Call) : Prop where
  queued : c.queued = true → (∃ n, c.task = .acquire n) ∧ 0 ≤ c.task.amount ∧
    (∀ r, c.phase ≠ .check r) ∧ c.phase ≠ .recheck ∧ c.phase ≠ .enqueue
  attempt : ∀ r, c.phase = .attempt r → 0 ≤ c.task.amount
  recheck : c.phase = .recheck → ∃ n, c.task = .acquire n
  enqueue : c.phase = .enqueue → (∃ n, c.task = .acquire n) ∧ 0 ≤ c.task.amount
  select : c.phase = .select → c.queued = true
  giveBack : c.phase = .giveBack → ∃ n, c.task = .acquire n

structure Calls (s : Budget) : Prop where
  fresh : ∀ i, s.next ≤ i → s.calls i = none
  nodup : s.waiting.Nodup
  waiter : ∀ w ∈ s.queue, 0 ≤ w.amount ∧
    ∃ c, s.calls w.call = some c ∧ c.kind = .waits ∧ c.task.amount = w.amount
  granted : ∀ i ∈ s.granted, i < s.next
  call : ∀ i c, s.calls i = some c → c.Sound ∧ c.kind.Fits s i c.task.amount

/-- Waiters queue and are granted in the order of their tickets. -/
structure Tickets (s : Budget) : Prop where
  queue : s.queue.Pairwise fun v w => s.ticket v.call < s.ticket w.call
  granted : s.granted.Pairwise fun i j => s.ticket i < s.ticket j
  before : ∀ i ∈ s.granted, ∀ w ∈ s.queue, s.ticket i < s.ticket w.call
  issued : (∀ w ∈ s.queue, s.ticket w.call < s.tickets) ∧ ∀ i ∈ s.granted, s.ticket i < s.tickets

/-- The head of the queue does not fit. -/
def Full (s : Budget) : Prop := ∀ w ∈ s.queue.head?, ¬s.Fits w.amount

structure Books (s : Budget) : Prop where
  ledger : Ledger s
  calls : Calls s
  tickets : Tickets s

/-! ## The books of one change -/

variable {s s' : Budget} {i : Nat} {c : Call} {r : Option Reclaim} {res : Result} {k : Kind} {n : Int}

theorem Ledger.nonneg (h : Ledger s) : 0 ≤ s.used := by
  rw [h.sum]
  refine Finset.sum_nonneg fun i _ => ?_
  cases hl : s.leases i with
  | none => exact le_refl _
  | some l => exact (h.lease i l hl).1

theorem Ledger.setLease (h : Ledger s) (hi : i < s.next) {l : Lease}
    (hused : s'.used = s.used + (l.amount - charge (s.leases i)))
    (hleases : s'.leases = update s.leases i (some l)) (hnext : s'.next = s.next)
    (hlimit : s'.limit = s.limit) (hle : s'.used ≤ s.limit) (hl : 0 ≤ l.amount)
    (hclosed : l.closed = true → l.amount = 0) : Ledger s' := by
  refine ⟨?_, ?_, ?_, ?_⟩
  · rw [hused, hleases, hnext, h.sum]
    exact (Tally.tally_update (f := charge) (t := s.leases) hi (some l)).symm
  · rw [hlimit]
    exact hle
  · intro j m hj
    rw [hleases] at hj
    rcases Machine.update_some hj with ⟨-, rfl⟩ | ⟨-, hj⟩
    · exact ⟨hl, hclosed⟩
    · exact h.lease j m hj
  · intro j hj
    rw [hnext] at hj
    rw [hleases, update_of_ne (by omega)]
    exact h.fresh j hj

/-- A kind reads the queue, the lease and the grants at its own call only. -/
theorem Kind.Fits.congr (h : k.Fits s i n) (hwaiting : i ∈ s'.waiting ↔ i ∈ s.waiting)
    (hlease : s'.leases i = s.leases i) (hgranted : i ∈ s'.granted ↔ i ∈ s.granted) : k.Fits s' i n := by
  cases k with
  | idle => simpa only [Kind.Fits, hwaiting, hlease, hgranted] using h
  | waits => simpa only [Kind.Fits, hwaiting, hlease, hgranted] using h
  | holds => simpa only [Kind.Fits, hwaiting, hlease] using h
  | handed => simpa only [Kind.Fits, hwaiting, hlease] using h
  | ended => simpa only [Kind.Fits, hwaiting, hlease] using h

theorem Calls.lt_next (h : Calls s) (hc : s.calls i = some c) : i < s.next := by
  by_contra hge
  rw [h.fresh i (by omega)] at hc
  cases hc

theorem mem_waiting {w : Waiter} (hw : w ∈ s.queue) : w.call ∈ s.waiting := List.mem_map_of_mem hw

/-- One call moves on, and its waiter, its grant and its lease with it. -/
theorem Calls.change (h : Calls s) (hi : i < s.next) (c' : Call)
    (hcalls : s'.calls = update s.calls i (some c')) (hnext : s'.next = s.next) (hnodup : s'.waiting.Nodup)
    (hqueue : ∀ w ∈ s'.queue, w ∈ s.queue ∧ w.call ≠ i ∨
      w.call = i ∧ 0 ≤ w.amount ∧ c'.kind = .waits ∧ c'.task.amount = w.amount)
    (hwaiting : ∀ j, j ≠ i → (j ∈ s'.waiting ↔ j ∈ s.waiting))
    (hgranted : ∀ j, j ≠ i → (j ∈ s'.granted ↔ j ∈ s.granted))
    (hleases : ∀ j, j ≠ i → s'.leases j = s.leases j) (hsound : c'.Sound)
    (hfits : c'.kind.Fits s' i c'.task.amount) : Calls s' := by
  refine ⟨fun j hj => ?_, hnodup, fun w hw => ?_, fun j hj => ?_, fun j d hd => ?_⟩
  · rw [hnext] at hj
    rw [hcalls, update_of_ne (by omega)]
    exact h.fresh j hj
  · rcases hqueue w hw with ⟨hw, hne⟩ | ⟨hwi, hpos, hwaits⟩
    · obtain ⟨hpos, d, hd, hwaits⟩ := h.waiter w hw
      exact ⟨hpos, d, by rw [hcalls, update_of_ne hne]; exact hd, hwaits⟩
    · exact ⟨hpos, c', by rw [hcalls, hwi, update_self], hwaits⟩
  · rw [hnext]
    by_cases hji : j = i
    · exact hji ▸ hi
    · exact h.granted j ((hgranted j hji).mp hj)
  · rw [hcalls] at hd
    rcases Machine.update_some hd with ⟨rfl, rfl⟩ | ⟨hne, hd⟩
    · exact ⟨hsound, hfits⟩
    · obtain ⟨hs, hf⟩ := h.call j d hd
      exact ⟨hs, hf.congr (hwaiting j hne) (hleases j hne) (hgranted j hne)⟩

/-- The queue and the grants stay. -/
theorem Calls.move (h : Calls s) (hc : s.calls i = some c) (c' : Call)
    (hcalls : s'.calls = update s.calls i (some c')) (hnext : s'.next = s.next)
    (hqueue : s'.queue = s.queue) (hgranted : s'.granted = s.granted)
    (hleases : ∀ j, j ≠ i → s'.leases j = s.leases j) (hsound : c'.Sound)
    (hfits : c'.kind.Fits s' i c'.task.amount)
    (hwaits : i ∈ s.waiting → c'.kind = .waits ∧ c'.task.amount = c.task.amount) : Calls s' := by
  have hwaiting : s'.waiting = s.waiting := by rw [Budget.waiting, hqueue, Budget.waiting]
  refine h.change (h.lt_next hc) c' hcalls hnext (hwaiting ▸ h.nodup) (fun w hw => ?_)
    (fun j _ => by rw [hwaiting]) (fun j _ => by rw [hgranted]) hleases hsound hfits
  rw [hqueue] at hw
  by_cases hwi : w.call = i
  · subst hwi
    obtain ⟨hpos, d, hd, -, hamount⟩ := h.waiter w hw
    rw [hc] at hd
    cases hd
    obtain ⟨hk, ha⟩ := hwaits (mem_waiting hw)
    exact .inr ⟨rfl, hpos, hk, ha.trans hamount⟩
  · exact .inl ⟨hw, hwi⟩

theorem Calls.setLease (h : Calls s) (hc : s.calls i = some c) (hkind : c.kind = .handed)
    (hcalls : s'.calls = s.calls) (hnext : s'.next = s.next) (hqueue : s'.queue = s.queue)
    (hgranted : s'.granted = s.granted) {l : Lease}
    (hleases : s'.leases = update s.leases i (some l)) : Calls s' := by
  have hwaiting : s'.waiting = s.waiting := by rw [Budget.waiting, hqueue, Budget.waiting]
  obtain ⟨hsound, hfits⟩ := h.call i c hc
  rw [hkind] at hfits
  refine h.move hc c ?_ hnext hqueue hgranted ?_ hsound ?_ ?_
  · rw [hcalls, update_eq_self_iff.mpr hc.symm]
  · intro j hj
    rw [hleases, update_of_ne hj]
  · rw [hkind]
    refine ⟨by rw [hwaiting]; exact hfits.1, ?_⟩
    rw [hleases, update_self]
    exact Option.some_ne_none _
  · intro hi
    exact absurd hi hfits.1

/-! ## Granting -/

theorem Books.grantTo (h : Books s) {w : Waiter} {rest : List Waiter} (hq : s.queue = w :: rest)
    (hfits : s.Fits w.amount) : Books (s.grantTo w rest) := by
  obtain ⟨hl, hc, ht⟩ := h
  have hw : w ∈ s.queue := by rw [hq]; exact List.mem_cons_self
  obtain ⟨hpos, c, hcall, hkind, hamount⟩ := hc.waiter w hw
  have hwaiting : s.waiting = w.call :: rest.map Waiter.call := by rw [Budget.waiting, hq]; rfl
  have hnodup := hc.nodup
  rw [hwaiting, List.nodup_cons] at hnodup
  have hfit := (hc.call w.call c hcall).2
  rw [hkind] at hfit
  -- the waiter has no lease yet
  have hnone : s.leases w.call = none ∧ w.call ∉ s.granted := by
    rcases hfit with ⟨-, h1, h2⟩ | ⟨hno, -, -⟩
    · exact ⟨h1, h2⟩
    · exact absurd (mem_waiting hw) hno
  have hlt := hc.lt_next hcall
  have hwaiting' : (s.grantTo w rest).waiting = rest.map Waiter.call := rfl
  have hgranted' : (s.grantTo w rest).granted = s.granted ++ [w.call] := rfl
  have hleases' : (s.grantTo w rest).leases =
      update s.leases w.call (some { amount := w.amount }) := rfl
  refine ⟨?_, hc.change hlt c (update_eq_self_iff.mpr hcall.symm).symm rfl hnodup.2 ?_ ?_ ?_ ?_
    (hc.call w.call c hcall).1 ?_, ⟨?_, ?_, ?_, ?_, ?_⟩⟩
  · refine hl.setLease hlt ?_ hleases' rfl rfl ?_ hpos nofun
    · show s.used + w.amount = _
      rw [hnone.1]
      simp [charge]
    · show s.used + w.amount ≤ s.limit
      unfold Budget.Fits at hfits
      omega
  · intro v hv
    exact .inl ⟨by rw [hq]; exact List.mem_cons_of_mem _ hv, fun heq => hnodup.1 (heq ▸ List.mem_map_of_mem hv)⟩
  · intro j hj
    rw [hwaiting', hwaiting, List.mem_cons]
    simp [hj]
  · intro j hj
    rw [hgranted', List.mem_append, List.mem_singleton]
    simp [hj]
  · intro j hj
    rw [hleases', update_of_ne hj]
  · rw [hkind]
    refine .inr ⟨hnodup.1, ?_, List.mem_append_right _ List.mem_cons_self⟩
    rw [hleases', update_self, hamount]
  all_goals have hqt := ht.queue
  all_goals rw [hq, List.pairwise_cons] at hqt
  · exact hqt.2
  · rw [hgranted', List.pairwise_append]
    refine ⟨ht.granted, List.pairwise_singleton _ _, ?_⟩
    intro j hj k hk
    rw [List.mem_singleton] at hk
    subst hk
    exact ht.before j hj w hw
  · intro j hj v hv
    rw [hgranted', List.mem_append, List.mem_singleton] at hj
    rcases hj with hj | rfl
    · exact ht.before j hj v (by rw [hq]; exact List.mem_cons_of_mem _ hv)
    · exact hqt.1 v hv
  · intro v hv
    exact ht.issued.1 v (by rw [hq]; exact List.mem_cons_of_mem _ hv)
  · intro j hj
    rw [hgranted', List.mem_append, List.mem_singleton] at hj
    rcases hj with hj | rfl
    · exact ht.issued.2 j hj
    · exact ht.issued.1 w hw

/-- What every grant keeps holds past the loop. -/
theorem grantLoop_keeps {P : Budget → Prop} (n : Nat) (h : P s)
    (hgrant : ∀ s w rest, s.queue = w :: rest → s.Fits w.amount → P s → P (s.grantTo w rest)) :
    P (Budget.grantLoop n s) := by
  induction n generalizing s with
  | zero => exact h
  | succ n ih =>
    unfold Budget.grantLoop
    split
    · exact h
    · next w rest hq =>
      by_cases hfits : s.Fits w.amount
      · rw [if_pos hfits]
        exact ih (hgrant s w rest hq hfits h)
      · rw [if_neg hfits]
        exact h

theorem Books.grantLoop (h : Books s) (n : Nat) : Books (Budget.grantLoop n s) :=
  grantLoop_keeps n h fun _ _ _ hq hfits h => h.grantTo hq hfits

theorem full_grantLoop (n : Nat) (hn : s.queue.length ≤ n) : Full (Budget.grantLoop n s) := by
  induction n generalizing s with
  | zero =>
    have hnil : s.queue = [] := List.length_eq_zero_iff.mp (by omega)
    intro w hw
    simp only [Budget.grantLoop, hnil] at hw
    cases hw
  | succ n ih =>
    unfold Budget.grantLoop
    split
    · next hq =>
      intro w hw
      rw [hq] at hw
      cases hw
    · next w rest hq =>
      by_cases hfits : s.Fits w.amount
      · rw [if_pos hfits]
        refine ih ?_
        rw [hq, List.length_cons] at hn
        show rest.length ≤ n
        omega
      · rw [if_neg hfits]
        intro v hv
        rw [hq, List.head?_cons, Option.mem_some_iff] at hv
        subst hv
        exact hfits

/-- `grantLocked` leaves the books right and the head of the queue without room. -/
theorem Books.grantLocked (h : Books s) : Books s.grantLocked ∧ Full s.grantLocked :=
  ⟨h.grantLoop _, full_grantLoop _ le_rfl⟩

theorem leases_grantLoop (n : Nat) (j : Nat) :
    (Budget.grantLoop n s).leases j = s.leases j ∨
      j ∈ s.waiting ∧ j ∈ (Budget.grantLoop n s).granted := by
  refine (grantLoop_keeps (P := fun t => (∀ k ∈ t.waiting, k ∈ s.waiting) ∧
    (t.leases j = s.leases j ∨ j ∈ s.waiting ∧ j ∈ t.granted)) n ⟨fun _ hk => hk, .inl rfl⟩ ?_).2
  intro t w rest hq _ ⟨hsub, hj⟩
  have hwaiting : t.waiting = w.call :: rest.map Waiter.call := by rw [Budget.waiting, hq]; rfl
  rw [hwaiting] at hsub
  refine ⟨fun k hk => hsub k (List.mem_cons_of_mem _ hk), ?_⟩
  by_cases hjw : j = w.call
  · exact .inr ⟨hjw ▸ hsub _ List.mem_cons_self, hjw ▸ List.mem_append_right _ List.mem_cons_self⟩
  · exact hj.imp (update_of_ne hjw _ _).trans fun ⟨hin, hgranted⟩ => ⟨hin, List.mem_append_left _ hgranted⟩

/-! ## Calls that move on -/

/-- The phases that say nothing more of their call. -/
def Phase.Plain : Phase → Prop
  | .count | .evict _ | .uncount _ | .done _ => True
  | .check _ | .attempt _ | .recheck | .enqueue | .select | .giveBack => False

theorem Call.Sound.plain (h : c.Sound) {p : Phase} (hp : p.Plain) : Call.Sound { c with phase := p } := by
  refine ⟨?_, ?_, ?_, ?_, ?_, ?_⟩
  · intro hq
    refine ⟨(h.queued hq).1, (h.queued hq).2.1, ?_, ?_, ?_⟩
    · rintro r rfl
      exact hp
    · rintro rfl
      exact hp
    · rintro rfl
      exact hp
  · rintro r rfl
    exact hp.elim
  · rintro rfl
    exact hp.elim
  · rintro rfl
    exact hp.elim
  · rintro rfl
    exact hp.elim
  · rintro rfl
    exact hp.elim

theorem Call.Sound.finish (h : c.Sound) (res : Result) :
    Call.Sound { c with phase := Budget.finish c res } := by
  unfold Budget.finish
  by_cases hq : c.queued = true
  · rw [if_pos hq]
    obtain ⟨hacquire, hpos, -⟩ := h.queued hq
    exact ⟨fun _ => ⟨hacquire, hpos, by simp, by simp, by simp⟩, by simp, by simp, by simp,
      fun _ => hq, by simp⟩
  · rw [if_neg hq]
    split
    · next n htask =>
      exact ⟨fun hq' => absurd hq' hq, by simp, fun _ => ⟨n, htask⟩, by simp, by simp, by simp⟩
    · exact h.plain trivial

theorem Call.Sound.afterAttempt (h : c.Sound) (r : Option Reclaim) (res : Result) :
    Call.Sound { c with phase := Budget.afterAttempt c r res } := by
  unfold Budget.afterAttempt
  split
  case h_1 => exact h.plain trivial
  all_goals
    split
    · split
      · exact h.plain trivial
      · exact h.finish res
    · split
      · exact h.plain trivial
      · exact h.plain trivial

/-- A call that grows a lease has none of its own. -/
theorem Call.kind_of_not_leases (h : ¬c.task.Leases) : c.kind = .idle := if_neg h

theorem Call.kind_of_queued (hl : c.task.Leases) (hq : c.queued = true)
    (hdone : ∀ res, c.phase ≠ .done res) (hback : c.phase ≠ .giveBack) : c.kind = .waits := by
  unfold Call.kind
  rw [if_pos hl]
  split
  · next h => exact absurd h (hdone _)
  · next h => exact absurd h (hdone _)
  · next h => exact absurd h hback
  · rw [if_pos hq]
  · rw [if_pos hq]

theorem Kind.Fits.eq_waits (h : k.Fits s i n) (hi : i ∈ s.waiting) : k = .waits := by
  cases k with
  | waits => rfl
  | idle => exact absurd hi h.1
  | holds => exact absurd hi h.1
  | handed => exact absurd hi h.1
  | ended => exact absurd hi h.1

theorem Kind.Fits.refused (h : Kind.Fits s i n .idle) (hk : k = .idle ∨ k = .ended) : k.Fits s i n := by
  obtain ⟨hq, hl, hg⟩ := h
  rcases hk with rfl | rfl
  · exact ⟨hq, hl, hg⟩
  · exact ⟨hq, fun l hl' => by rw [hl] at hl'; cases hl'⟩

theorem Kind.Fits.lent (h : Kind.Fits s i n .holds) (hk : k = .holds ∨ k = .handed) : k.Fits s i n := by
  obtain ⟨hq, hl⟩ := h
  rcases hk with rfl | rfl
  · exact ⟨hq, hl⟩
  · exact ⟨hq, by rw [hl]; exact Option.some_ne_none _⟩

theorem kind_done (hres : res ≠ .ok) :
    Call.kind { c with phase := .done res } = .idle ∨
      Call.kind { c with phase := .done res } = .ended := by
  by_cases hl : c.task.Leases
  · right
    cases res with
    | ok => exact absurd rfl hres
    | errInvalid => simp [Call.kind, hl]
    | errCapacity => simp [Call.kind, hl]
    | errClosed => simp [Call.kind, hl]
    | cancelled => simp [Call.kind, hl]
  · exact .inl (Call.kind_of_not_leases hl)

theorem kind_finish (hq : c.queued = false) (hres : res ≠ .ok) :
    Call.kind { c with phase := Budget.finish c res } = .idle ∨
      Call.kind { c with phase := Budget.finish c res } = .ended := by
  unfold Budget.finish
  rw [if_neg (by simp [hq])]
  split
  · exact .inl (by simp [Call.kind, hq])
  · exact kind_done hres

theorem kind_finish_ok (hq : c.queued = false) (hl : c.task.Leases) :
    Call.kind { c with phase := Budget.finish c .ok } = .handed := by
  unfold Budget.finish
  rw [if_neg (by simp [hq])]
  simp [Call.kind, hl]

theorem kind_afterAttempt (hq : c.queued = false) (hres : res ≠ .ok) :
    Call.kind { c with phase := Budget.afterAttempt c r res } = .idle ∨
      Call.kind { c with phase := Budget.afterAttempt c r res } = .ended := by
  have hplain : Call.kind { c with phase := .uncount res } = .idle := by
    cases res with
    | ok => exact absurd rfl hres
    | errInvalid => simp [Call.kind, hq]
    | errCapacity => simp [Call.kind, hq]
    | errClosed => simp [Call.kind, hq]
    | cancelled => simp [Call.kind, hq]
  unfold Budget.afterAttempt
  split
  case h_1 => exact kind_done hres
  all_goals
    split
    · split
      · exact .inl (by simp [Call.kind, hq])
      · exact kind_finish hq hres
    · split
      · exact .inl (by simp [Call.kind, hq])
      · exact .inl hplain

theorem kind_afterAttempt_ok (hq : c.queued = false) (hl : c.task.Leases) :
    Call.kind { c with phase := Budget.afterAttempt c r .ok } = .holds ∨
      Call.kind { c with phase := Budget.afterAttempt c r .ok } = .handed := by
  unfold Budget.afterAttempt
  split
  case h_1 => exact .inr (by simp [Call.kind, hl])
  all_goals
    split
    · exact .inr (by simpa using kind_finish_ok hq hl)
    · exact .inl (by simp [Call.kind, hl, hq])

theorem kind_afterAttempt_queued (hs : c.Sound) (hq : c.queued = true) :
    Call.kind { c with phase := Budget.afterAttempt c r res } = .waits := by
  obtain ⟨⟨n, htask⟩, -⟩ := hs.queued hq
  refine Call.kind_of_queued (by rw [htask]; trivial) hq ?_ ?_
  all_goals
    intros
    simp only [Budget.afterAttempt, htask, Budget.finish, hq, if_true]
    split
    · split <;> simp
    · split <;> simp

theorem Books.setPhase (h : Books s) (hc : s.calls i = some c) {p : Phase}
    (hsound : Call.Sound { c with phase := p })
    (hfits : Kind.Fits s i c.task.amount (Call.kind { c with phase := p })) :
    Books (s.setPhase i c p) := by
  obtain ⟨hl, hcalls, ht⟩ := h
  refine ⟨{ hl with }, ?_, { ht with }⟩
  exact hcalls.move hc { c with phase := p } rfl rfl rfl rfl (fun _ _ => rfl) hsound
    (hfits.congr Iff.rfl rfl Iff.rfl) fun hi => ⟨hfits.eq_waits hi, rfl⟩

end Sproutfs.Resource.Memory

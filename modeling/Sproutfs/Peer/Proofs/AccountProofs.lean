import Sproutfs.Peer.Proofs.StepProofs

/-!
# What a pool accounts for

A connection's reader runs before the request that dialed the connection has put it in the pool. A failure
that comes between removes nothing, and the connection then put in the pool stays there. Where no
connection is removed before it was put in, a removed one is in the pool no more.
-/

namespace Sproutfs.Peer

open Option Tally Machine

variable {s s' : Pool} {r c : Nat} {q q' : Request} {k : Conn} {a : Action}

/-- Removed connections were put in the pool, and are not in it. -/
def Gone (s : Pool) : Prop := ∀ c k, s.table c = some k → k.Removed → k.put = true ∧ c ∉ s.conns

/-- A connection is removed once its dialer has put it in the pool. -/
def PutFirst (s : Pool) : Action → Prop
  | .happens c .removes => c ∈ s.conns
  | _ => True

instance (s : Pool) : DecidablePred (PutFirst s) := fun a => by
  unfold PutFirst
  split <;> infer_instance

/-! ## The look for room -/

/-- A look for room gives the request a slot on the connection `leastLoaded` gives, or changes no
connection. -/
theorem look_spec (s : Pool) (r : Nat) (q : Request) :
    (s.look r q).conns = s.conns ∧ (s.look r q).limit = s.limit ∧
    ∃ d, (s.look r q).requests = Function.update s.requests r (some d) ∧
      ((s.look r q).table = s.table ∧ d.slot = q.slot ∨
        ∃ c k, s.leastLoaded = some (c, k) ∧ d.slot = some c ∧
          (s.look r q).table = Function.update s.table c (some { k with inflight := k.inflight + 1 })) := by
  unfold Pool.look
  split
  · exact ⟨rfl, rfl, _, rfl, .inl ⟨rfl, rfl⟩⟩
  · split
    · split
      · next c k hload => exact ⟨rfl, rfl, _, rfl, .inr ⟨c, k, hload, rfl, rfl⟩⟩
      · split <;> exact ⟨rfl, rfl, _, rfl, .inl ⟨rfl, rfl⟩⟩
    · exact ⟨rfl, rfl, _, rfl, .inl ⟨rfl, rfl⟩⟩

theorem look_table (hk : (s.look r q).table c = some k) :
    ∃ m, s.table c = some m ∧ k.stage = m.stage ∧ k.put = m.put := by
  obtain ⟨-, -, d, -, ⟨htab, -⟩ | ⟨c', m, hload, -, htab⟩⟩ := look_spec s r q
  · exact ⟨k, htab ▸ hk, rfl, rfl⟩
  · rw [htab] at hk
    rcases update_some hk with ⟨rfl, rfl⟩ | ⟨-, hk⟩
    · exact ⟨m, (leastLoaded_spec hload).2.1, rfl, rfl⟩
    · exact ⟨k, hk, rfl, rfl⟩

theorem look_slot {r' : Nat} (hq : s.requests r = some q)
    (hq' : (s.look r q).requests r' = some q') (hslot : q'.slot = some c) :
    (∃ d, s.requests r' = some d ∧ d.slot = some c) ∨ c ∈ s.conns := by
  obtain ⟨-, -, d, hreq, hd⟩ := look_spec s r q
  rw [hreq] at hq'
  rcases update_some hq' with ⟨rfl, rfl⟩ | ⟨-, hq'⟩
  · rcases hd with ⟨-, hd⟩ | ⟨c', m, hload, hd, -⟩
    · exact .inl ⟨q, hq, hd ▸ hslot⟩
    · obtain rfl : c' = c := Option.some.inj (hd.symm.trans hslot)
      exact .inr (leastLoaded_spec hload).1
  · exact .inl ⟨q', hq', hslot⟩

/-! ## Removed connections -/

theorem Change.limit (h : Change s a s') : s'.limit = s.limit := by
  cases h with
  | quiet hquiet => exact hquiet.limit
  | looks => exact (look_spec ..).2.1
  | puts => rfl
  | removes => rfl

theorem Gone.ne_dialed (hg : Gone s) (h : Inv s) {d : Nat} (hq : s.requests r = some q)
    (hphase : q.phase = .dialed d) (hk : s.table c = some k) (hr : k.Removed) : d ≠ c := by
  rintro rfl
  obtain ⟨m, hm, hput⟩ := h.dials.dialed r q _ hq hphase
  rw [hk] at hm
  cases hm
  rw [(hg _ k hk hr).1] at hput
  cases hput

theorem Gone.step (hg : Gone s) (h : Inv s) (hok : PutFirst s a) (hc : Change s a s') : Gone s' := by
  intro c m hm hr
  cases hc with
  | quiet hquiet =>
    obtain ⟨k, hk, hrk, hput⟩ := hquiet.stages c m hm hr
    rw [hput, hquiet.conns]
    exact hg c k hk hrk
  | looks hq =>
    obtain ⟨k, hk, hstage, hput⟩ := look_table hm
    rw [hput, (look_spec ..).1]
    obtain ⟨left, hl⟩ := hr
    exact hg c k hk ⟨left, hstage ▸ hl⟩
  | @puts _ r q d k hq hphase hk =>
    rcases update_some hm with ⟨rfl, rfl⟩ | ⟨hne, hm⟩
    · exact absurd rfl (hg.ne_dialed h hq hphase hk hr)
    · obtain ⟨hput, hout⟩ := hg c m hm hr
      exact ⟨hput, by simp [hout, hne]⟩
  | @removes d k left hk =>
    rcases update_some hm with ⟨rfl, rfl⟩ | ⟨-, hm⟩
    · -- it was in the pool, and so was put there
      obtain ⟨k', hk', hput⟩ := h.dials.pool c hok
      rw [hk] at hk'
      cases hk'
      exact ⟨hput, by simp⟩
    · obtain ⟨hput, hout⟩ := hg c m hm hr
      exact ⟨hput, fun hin => hout (List.mem_of_mem_filter hin)⟩

theorem Gone.slot (hg : Gone s) (h : Inv s) (hc : Change s a s') (hk : s.table c = some k)
    (hr : k.Removed) (hq' : s'.requests r = some q') (hslot : q'.slot = some c) :
    ∃ q, s.requests r = some q ∧ q.slot = some c := by
  cases hc with
  | quiet hquiet => exact hquiet.slots r q' c hq' hslot
  | looks hq =>
    rcases look_slot hq hq' hslot with hold | hin
    · exact hold
    · exact absurd hin (hg c k hk hr).2
  | @puts _ r' q d m hq hphase hm =>
    rcases update_some hq' with ⟨rfl, rfl⟩ | ⟨-, hq'⟩
    · exact absurd (by simpa using hslot) (hg.ne_dialed h hq hphase hk hr)
    · exact ⟨q', hq', hslot⟩
  | removes => exact ⟨q', hq', hslot⟩

/-! ## Whole runs -/

/-- In every run of a pool the bytes held are those of the requests that hold some, each connection's
requests in flight are those with a slot on it and within its maximum, connections and dials are within
the limit, and each request gives back what it took once: it has given it back, or is still its caller's,
or one connection's, in its table or with its reader, under the number it was sent under. The number a
reply names is that of the request it is given to, and of no other. Where no connection is removed before
it was put in the pool, a removed connection is not in it and no step gives a request a slot on it. -/
theorem pool_accounts (limit : Nat) (budget : Int) (s : Pool)
    (h : Runs Pool.step (fun _ _ => True) (Pool.new limit budget) s) :
    s.held = tally weight s.requests s.next ∧
    (∀ c k, s.table c = some k →
      k.inflight = tally (onConn c) s.requests s.next ∧ k.inflight ≤ k.maxInFlight) ∧
    s.conns.length + s.dialing ≤ limit ∧
    (∀ r q, s.requests r = some q →
      q.given ≤ 1 ∧ (q.given = 1 ↔ q.custody = .returned) ∧
      (q.custody = .conn ↔ ∃ c n, s.At r c n) ∧ (q.custody = .reader ↔ ∃ c n, s.Took r c n) ∧
      ∀ res, q.phase = .done res → q.custody ≠ .caller) ∧
    (∀ r q c n, s.requests r = some q →
      q.reply = some (.answered c n) ∨ s.At r c n ∨ s.Took r c n ∨ s.Answers r c n →
      q.number = some (c, n)) ∧
    (∀ r r' q q' x, s.requests r = some q → s.requests r' = some q' → q.number = some x →
      q'.number = some x → r = r') ∧
    (Runs Pool.step PutFirst (Pool.new limit budget) s → ∀ c k, s.table c = some k → k.Removed →
      c ∉ s.conns ∧ ∀ a s' r q', s.step a = some s' → s'.requests r = some q' → q'.slot = some c →
        ∃ q, s.requests r = some q ∧ q.slot = some c) := by
  obtain ⟨hinv, hlimit⟩ : Inv s ∧ s.limit = limit := by
    refine Runs.invariant (I := fun s => Inv s ∧ s.limit = limit) ?_ ⟨inv_new limit budget, rfl⟩ h
    rintro s a s' ⟨hi, hl⟩ _ hs
    exact ⟨(hi.step hs).inv, (hi.step hs).change.limit.trans hl⟩
  refine ⟨hinv.counts.held, ?_, hlimit ▸ hinv.limit, ?_, ?_, hinv.ties.unique, ?_⟩
  · intro c k hk
    exact ⟨hinv.counts.inflight c k hk, (hinv.room c k hk).1⟩
  · intro r q hq
    have hsound := hinv.sound r q hq
    have hheld : ∀ x c n, s.In x r c n → q.custody = x := by
      rintro x c n ⟨d, hd, hcustody, -⟩
      rw [hq] at hd
      cases hd
      exact hcustody
    refine ⟨?_, ?_, ⟨?_, ?_⟩, ⟨?_, ?_⟩, ?_⟩
    · rw [hsound.given]
      split <;> omega
    · rw [hsound.given]
      split <;> simp_all
    · intro hcustody
      obtain ⟨c, n, hnumber, -⟩ := hsound.slot (.inl hcustody)
      exact ⟨c, n, (hinv.ties.conn r c n).mpr ⟨q, hq, hcustody, hnumber⟩⟩
    · rintro ⟨c, n, hat⟩
      exact hheld _ c n ((hinv.ties.conn r c n).mp hat)
    · intro hcustody
      obtain ⟨c, n, hnumber, -⟩ := hsound.slot (.inr hcustody)
      exact ⟨c, n, (hinv.ties.reader r c n).mpr ⟨q, hq, hcustody, hnumber⟩⟩
    · rintro ⟨c, n, htook⟩
      exact hheld _ c n ((hinv.ties.reader r c n).mp htook)
    · intro res hphase
      have hin := hsound.phase
      simp only [Request.InPhase, hphase] at hin
      exact hin
  · intro r q c n hq
    have hnumber : ∀ x, s.In x r c n → q.number = some (c, n) := by
      rintro x ⟨d, hd, -, hnum⟩
      rw [hq] at hd
      cases hd
      exact hnum
    rintro (hreply | hat | htook | hans)
    · exact (hinv.sound r q hq).reply c n hreply
    · exact hnumber _ ((hinv.ties.conn r c n).mp hat)
    · exact hnumber _ ((hinv.ties.reader r c n).mp htook)
    · obtain ⟨d, hd, hnum⟩ := hinv.ties.answers r c n hans
      rw [hq] at hd
      cases hd
      exact hnum
  · intro hput c k hk hr
    have hgone : Gone s := by
      refine (Runs.invariant (I := fun s => Inv s ∧ Gone s) ?_ ⟨inv_new limit budget, ?_⟩ hput).2
      · rintro s a s' ⟨hi, hg⟩ hok hs
        exact ⟨(hi.step hs).inv, hg.step hi hok (hi.step hs).change⟩
      · intro c k hk
        cases hk
    refine ⟨(hgone c k hk hr).2, ?_⟩
    intro a s' r q' hs hq' hslot
    exact hgone.slot hinv (hinv.step hs).change hk hr hq' hslot

/-! ## A connection that fails in the pool, and one that fails before -/

/-- A request is sent on a connection that then fails; the next request dials another. -/
def failsInPool : List Action :=
  [.start 3, .acquires 0 .look, .acquires 0 (.hello 2 none), .acquires 0 .opens, .acquires 0 .puts,
    .trips 0 .takesSend, .trips 0 .registers, .trips 0 (.sends true), .happens 0 .fails,
    .happens 0 .removes, .happens 0 .failReleases, .trips 0 .receives, .start 4, .acquires 1 .look]

theorem failsInPool_plays :
    (exec Pool.step (fun s a => decide (PutFirst s a)) (Pool.new 1 10) failsInPool).isSome := by
  decide +kernel

theorem pool_accounts_removed :
    ∃ s, Runs Pool.step PutFirst (Pool.new 1 10) s ∧ s.held = 4 ∧ s.dialing = 1 ∧
      (∃ q, s.requests 0 = some q ∧ q.given = 1) ∧ (∃ k, s.table 0 = some k ∧ k.Removed) ∧ 0 ∉ s.conns := by
  have hplay := (some_get failsInPool_plays).symm
  set s := (exec Pool.step (fun s a => decide (PutFirst s a)) (Pool.new 1 10) failsInPool).get
    failsInPool_plays with hs
  have hput : Runs Pool.step PutFirst (Pool.new 1 10) s :=
    exec_runs (fun _ _ h => of_decide_eq_true h) hplay
  have hrun : Runs Pool.step (fun _ _ => True) (Pool.new 1 10) s := hput.mono fun _ _ _ => trivial
  have hk : (s.table 0).map Conn.stage = some (.removed []) := by
    rw [hs]
    decide +kernel
  obtain ⟨k, hk, hstage⟩ := map_eq_some_iff.mp hk
  have hq : (s.requests 0).map Request.given = some 1 := by
    rw [hs]
    decide +kernel
  obtain ⟨q, hq, hgiven⟩ := map_eq_some_iff.mp hq
  have haccounts := pool_accounts 1 10 s hrun
  refine ⟨s, hput, ?_, ?_, ⟨q, hq, hgiven⟩, ⟨k, hk, [], hstage⟩, ?_⟩
  · rw [hs]
    decide +kernel
  · rw [hs]
    decide +kernel
  · exact (haccounts.2.2.2.2.2.2 hput 0 k hk ⟨[], hstage⟩).1

/-- The connection fails, and its failure removes nothing, before its dialer puts it in the pool. -/
def failsBefore : List Action :=
  [.start 3, .acquires 0 .look, .acquires 0 (.hello 2 none), .acquires 0 .opens, .happens 0 .fails,
    .happens 0 .removes, .acquires 0 .puts, .start 4]

theorem failsBefore_plays :
    (exec Pool.step (fun _ _ => true) (Pool.new 1 10) failsBefore).isSome := by
  decide +kernel

/-- The failed connection is in the pool, and the next request is given a slot on it. -/
theorem removed_connection_handed_out :
    ∃ s s' k q', Runs Pool.step (fun _ _ => True) (Pool.new 1 10) s ∧ s.table 0 = some k ∧ k.Removed ∧
      0 ∈ s.conns ∧ (∀ q, s.requests 1 = some q → q.slot = none) ∧
      s.step (.acquires 1 .look) = some s' ∧ s'.requests 1 = some q' ∧ q'.slot = some 0 ∧
      q'.phase = .ready 0 := by
  have hplay := (some_get failsBefore_plays).symm
  set s := (exec Pool.step (fun _ _ => true) (Pool.new 1 10) failsBefore).get failsBefore_plays with hs
  have hrun : Runs Pool.step (fun _ _ => True) (Pool.new 1 10) s :=
    exec_runs (fun _ _ _ => trivial) hplay
  have hk : (s.table 0).map Conn.stage = some (.removed []) := by
    rw [hs]
    decide +kernel
  obtain ⟨k, hk, hstage⟩ := map_eq_some_iff.mp hk
  have hq : (s.requests 1).map Request.slot = some none := by
    rw [hs]
    decide +kernel
  obtain ⟨q, hq, hslot⟩ := map_eq_some_iff.mp hq
  have hnext : (s.step (.acquires 1 .look)).bind (fun s' => (s'.requests 1).map
      fun q' => (q'.slot, q'.phase)) = some (some 0, .ready 0) := by
    rw [hs]
    decide +kernel
  obtain ⟨s', hs', hq'⟩ := bind_eq_some_iff.mp hnext
  obtain ⟨q', hq', hpair⟩ := map_eq_some_iff.mp hq'
  have hin : 0 ∈ s.conns := by
    rw [hs]
    decide +kernel
  refine ⟨s, s', k, q', hrun, hk, ⟨[], hstage⟩, hin, ?_, hs', hq', congrArg Prod.fst hpair,
    congrArg Prod.snd hpair⟩
  intro d hd
  rw [hq] at hd
  cases hd
  exact hslot

end Sproutfs.Peer

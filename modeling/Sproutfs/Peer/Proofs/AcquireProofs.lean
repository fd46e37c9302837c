import Sproutfs.Peer.Proofs.PoolProofs

/-!
# A pool is kept while its requests acquire connections

One lemma for each point of `acquire` and of a dial.
-/

namespace Sproutfs.Peer

open Machine List Function Tally

variable {s s' : Pool} {r c : Nat} {q : Request} {k : Conn}

theorem leastLoaded_spec (h : s.leastLoaded = some (c, k)) :
    c ∈ s.conns ∧ s.table c = some k ∧ k.inflight < k.maxInFlight := by
  have hfold : ∀ b ∈ s.leastLoaded, b.1 ∈ s.conns ∧ s.table b.1 = some b.2 ∧ b.2.inflight < b.2.maxInFlight := by
    refine foldlRecOn s.conns _ (motive := fun best : Option (Nat × Conn) =>
      ∀ b ∈ best, b.1 ∈ s.conns ∧ s.table b.1 = some b.2 ∧ b.2.inflight < b.2.maxInFlight) (by simp) ?_
    intro best hbest x hx
    cases htable : s.table x with
    | none => exact hbest
    | some m =>
      dsimp only
      split
      · next hroom =>
        intro b hb
        obtain rfl : (x, m) = b := by simpa using hb
        exact ⟨hx, htable, hroom.1⟩
      · exact hbest
  exact hfold (c, k) h

theorem apart {x y : Custody} (hx : x = .nobody ∨ x = .caller ∨ x = .returned)
    (hy : y = .nobody ∨ y = .caller ∨ y = .returned) :
    ∀ z, z = .conn ∨ z = .reader → x ≠ z ∧ y ≠ z := by
  rintro z (rfl | rfl) <;> rcases hx with rfl | rfl | rfl <;> rcases hy with rfl | rfl | rfl <;> simp

theorem Conn.Sound.inflight (h : k.Sound) (n : Int) (send : Bool) (next : Nat) (put : Bool)
    (hnext : k.next ≤ next) : Conn.Sound { k with inflight := n, send := send, next := next, put := put } :=
  ⟨h.nodup, fun e he => (h.bound e he).trans hnext, h.stage⟩

theorem Inv.look (h : Inv s) (hq : s.requests r = some q) (hphase : q.phase = .acquiring) :
    Inv (s.look r q) := by
  have hsound := h.sound r q hq
  obtain ⟨hnobody, hnoslot, hnonumber⟩ := hsound.at hphase
  have hnd : ¬q.phase.Dials := by simp [hphase, Phase.Dials]
  have hgiven : q.given = 0 := by simpa [hnobody] using hsound.given
  have hwaits : Inv (s.setRequest r { q with phase := .waiting }) :=
    h.setPhase hq (by simp [hnobody, hnoslot, hnonumber]) (by simp [Phase.Dials]) hnd
  unfold Pool.look
  split
  · exact h.setPhase hq (by simp [hnobody]) (by simp [Phase.Dials]) hnd
  · split
    · split
      · next c k hload =>
        obtain ⟨hc, hk, hroom⟩ := leastLoaded_spec hload
        have hpos := (h.room c k hk).2
        refine h.change { q with phase := .ready c, slot := some c, custody := .caller }
          { k with inflight := k.inflight + 1 } hq rfl rfl rfl ?_ ?_ h.limit ?_ ?_ ⟨?_, hpos⟩ ?_
          ((h.conns c k hk).inflight _ k.send k.next k.put le_rfl)
          (h.ties.set hq hk rfl rfl (.of_eq rfl rfl le_rfl) (.of (.inr (apart (.inl hnobody) (.inr (.inl rfl)))) rfl))
          (h.dials.set hk rfl rfl rfl rfl rfl ?_ (by simp))
        · simp [weight, hnobody, Custody.Holds]
        · simp [dialCount, Phase.Dials, hphase]
          rfl
        · rw [← h.counts.inflight c k hk]
          simp [onConn, hnobody, Custody.Holds]
        · intro c' hcc
          simp [onConn, hnobody, Custody.Holds, Ne.symm hcc]
        · show k.inflight + 1 ≤ k.maxInFlight
          omega
        · exact ⟨by simp [hnonumber], by simp [hgiven], by simp, hsound.reply⟩
        · intro c' hc'
          obtain rfl : c = c' := by simpa using hc'
          exact h.dials.pool c hc
      · split
        · next hroom =>
          refine h.request { q with phase := .dialing, custody := .caller } hq rfl rfl rfl rfl rfl ?_ ?_ ?_ ?_
            ?_ (.of (.inr (apart (.inl hnobody) (.inr (.inl rfl)))) rfl) rfl (by simp)
          · simp [weight, hnobody, Custody.Holds]
          · simp [dialCount, Phase.Dials, hphase]
          · show s.conns.length + (s.dialing + 1) ≤ s.limit
            omega
          · intro c
            simp [onConn, hnoslot]
          · exact ⟨by simp [hnoslot, hnonumber], by simp [hgiven], by simp, hsound.reply⟩
        · exact hwaits
    · exact hwaits

theorem Inv.dial (h : Inv s) (hq : s.requests r = some q) {p : Phase} (hd : p.Dials)
    (hd' : q.phase.Dials) (hin : Request.InPhase { q with phase := p }) (hp : ∀ c, p ≠ .dialed c) :
    Inv (s.setRequest r { q with phase := p }) := by
  have hsound := h.sound r q hq
  refine h.request { q with phase := p } hq rfl rfl rfl rfl rfl (same_count ..) ?_ h.limit (fun _ => rfl)
    { hsound with phase := hin } (.of (.inl rfl) rfl) rfl hp
  rw [dialCount_dials hd, dialCount_dials hd']
  exact same_count ..

theorem Counts.dialing_pos (h : Counts s) (hq : s.requests r = some q) (hd : q.phase.Dials) :
    0 < s.dialing := by
  have hnonneg : ∀ x, 0 ≤ dialCount x := by
    rintro (_ | x)
    · exact le_refl _
    · simp only [dialCount]
      split <;> omega
  have hle := le_tally (t := s.requests) hnonneg (h.lt_next hq)
  have hone : dialCount (s.requests r) = 1 := by simp [hq, dialCount, hd]
  have := h.dialing
  omega

theorem Inv.dialEnds (h : Inv s) (hq : s.requests r = some q) (hphase : q.phase = .dialErr) :
    Inv { s.setRequest r { q with phase := .dialFailed } with dialing := s.dialing - 1 } := by
  have hsound := h.sound r q hq
  have hdials : q.phase.Dials := by rw [hphase]; trivial
  have hpos := h.counts.dialing_pos hq hdials
  have hlimit := h.limit
  refine h.request { q with phase := .dialFailed } hq rfl rfl rfl rfl rfl (same_count ..) ?_ ?_ (fun _ => rfl)
    { hsound with phase := hsound.at hphase } (.of (.inl rfl) rfl) rfl (by simp)
  · rw [dialCount_dials hdials, dialCount_not id]
    show ((s.dialing - 1 : Nat) : Int) = s.dialing + _
    omega
  · show s.conns.length + (s.dialing - 1) ≤ s.limit
    omega

theorem Inv.dialReturns (h : Inv s) (hq : s.requests r = some q) (hphase : q.phase = .dialFailed) :
    Inv { s.setRequest r
        { q with phase := .done .failed, custody := .returned, given := q.given + 1 } with
      held := s.held - q.bytes } := by
  have hsound := h.sound r q hq
  obtain ⟨hcaller, hnoslot, hnonumber⟩ := hsound.at hphase
  have hgiven : q.given = 0 := by simpa [hcaller] using hsound.given
  refine h.request { q with phase := .done .failed, custody := .returned, given := q.given + 1 } hq rfl rfl
    rfl rfl rfl ?_ ?_ h.limit ?_ ?_ (.of (.inr (apart (.inr (.inl hcaller)) (.inr (.inr rfl)))) rfl) rfl (by simp)
  · simp [weight, hcaller, Custody.Holds]
    rfl
  · simp [dialCount, Phase.Dials, hphase, Pool.setRequest]
  · intro c
    simp [onConn, hnoslot]
  · exact ⟨by simp, by simp [hgiven], by simp, hsound.reply⟩

/-- A connection that is not in the pool's books has no request in flight. -/
theorem Inv.none_on (h : Inv s) (hno : ¬s.Put c true) : tally (onConn c) s.requests s.next = 0 := by
  refine tally_eq_zero fun r => ?_
  cases hr : s.requests r with
  | none => rfl
  | some q =>
    have hslot : q.slot ≠ some c := fun hslot => hno (h.dials.slot r q c hr hslot)
    simp [onConn, hslot]

theorem Inv.opens (h : Inv s) (hq : s.requests r = some q) {n : Nat} (hphase : q.phase = .helloed n) :
    Inv { (s.setConn s.nextConn { maxInFlight := n }).setRequest r
        { q with phase := .dialed s.nextConn } with
      nextConn := s.nextConn + 1 } := by
  have hsound := h.sound r q hq
  obtain ⟨hn, hcaller, hnoslot, hnonumber⟩ := hsound.at hphase
  have hnone : s.table s.nextConn = none := h.dials.fresh _ le_rfl
  have hno : ∀ put, ¬s.Put s.nextConn put := by
    rintro put ⟨k, hk, -⟩
    cases hnone.symm.trans hk
  refine h.change { q with phase := .dialed s.nextConn } { maxInFlight := n } hq rfl rfl rfl (same_count ..) ?_ h.limit ?_
    (fun _ _ => rfl) ⟨Int.natCast_nonneg n, hn⟩
    { hsound with phase := ⟨hcaller, hnoslot, hnonumber⟩ }
    ⟨nodup_nil, by simp [Conn.entries, Stage.left], .inl rfl⟩ ?_ (h.dials.moves (.set rfl rfl) ?_ ?_ ?_ ?_ ?_)
  · simp [dialCount, Phase.Dials, hphase, Pool.setRequest, Pool.setConn]
  · rw [h.none_on (hno true)]
    exact same_count ..
  · refine h.ties.both (.set rfl rfl) ?_ ?_
    · show Conn.Alike (s.table s.nextConn) (update s.table s.nextConn _ s.nextConn)
      rw [hnone, update_self]
      exact ⟨by simp [Conn.entries, Stage.left], by simp, by simp, by simp⟩
    · show Request.Alike (s.requests r) (update s.requests r _ r)
      rw [hq, update_self]
      exact .of (.inl rfl) rfl
  · exact fun put hput => absurd hput (hno put)
  · exact fun d hd => .inl hd
  · intro d c' hd hslot
    obtain rfl := Option.some.inj ((update_self r _ s.requests).symm.trans hd)
    cases hnoslot.symm.trans hslot
  · intro d c' hd hp
    obtain rfl := Option.some.inj ((update_self r _ s.requests).symm.trans hd)
    obtain rfl : s.nextConn = c' := by simpa using hp
    exact .inr ⟨rfl, ⟨_, update_self .., rfl⟩, fun j q hq hp => hno false (h.dials.dialed j q _ hq hp)⟩
  · intro d hd
    have hd' : s.nextConn + 1 ≤ d := hd
    show update s.table s.nextConn _ d = none
    rw [update_of_ne (by omega)]
    exact h.dials.fresh d (by omega)

theorem Inv.puts (h : Inv s) (hq : s.requests r = some q) (hphase : q.phase = .dialed c)
    (hk : s.table c = some k) :
    Inv { (s.setConn c { k with inflight := k.inflight + 1, put := true }).setRequest r
        { q with phase := .ready c, slot := some c } with
      dialing := s.dialing - 1
      conns := s.conns ++ [c] } := by
  have hsound := h.sound r q hq
  obtain ⟨hcaller, hnoslot, hnonumber⟩ := hsound.at hphase
  have hdials : q.phase.Dials := by rw [hphase]; trivial
  have hpos := h.counts.dialing_pos hq hdials
  have hlimit := h.limit
  have hno : ¬s.Put c true := by
    rintro ⟨m, hm, hput⟩
    obtain ⟨m', hm', hput'⟩ := h.dials.dialed r q c hq hphase
    rw [hm] at hm'
    cases hm'
    cases hput.symm.trans hput'
  have hzero := h.none_on hno
  have hinf := h.counts.inflight c k hk
  have hroom := (h.room c k hk).2
  have hput : Pool.Put { (s.setConn c { k with inflight := k.inflight + 1, put := true }).setRequest r
        { q with phase := .ready c, slot := some c } with
      dialing := s.dialing - 1
      conns := s.conns ++ [c] } c true := ⟨_, update_self .., rfl⟩
  refine h.change { q with phase := .ready c, slot := some c }
    { k with inflight := k.inflight + 1, put := true } hq rfl rfl rfl (same_count ..) ?_ ?_ ?_ ?_ ⟨?_, hroom⟩ ?_
    ((h.conns c k hk).inflight _ k.send k.next true le_rfl)
    (h.ties.set hq hk rfl rfl (.of_eq rfl rfl le_rfl) (.of (.inl rfl) rfl))
    (h.dials.moves (.set rfl rfl) (fun b hb => ?_) (fun d hd => ?_) ?_ ?_ ?_)
  · rw [dialCount_dials hdials, dialCount_not id]
    show ((s.dialing - 1 : Nat) : Int) = s.dialing + _
    omega
  · show (s.conns ++ [c]).length + (s.dialing - 1) ≤ s.limit
    rw [length_append, length_singleton]
    omega
  · rw [← hinf]
    simp [onConn, hcaller, hnoslot, Custody.Holds]
  · intro c' hcc
    simp [onConn, hnoslot, Ne.symm hcc]
  · show k.inflight + 1 ≤ k.maxInFlight
    omega
  · exact ⟨by simp [hcaller, hnonumber], hsound.given, by simp [hcaller], hsound.reply⟩
  · -- of the requests only this one dialed the connection
    cases b with
    | true => exact absurd hb hno
    | false =>
      refine .inr ⟨rfl, fun j d hd hp => ?_⟩
      rcases update_some hd with ⟨rfl, rfl⟩ | ⟨hne, hd⟩
      · cases hp
      · exact hne (h.dials.dialer j r d q c hd hq hp hphase)
  · exact (mem_append.mp hd).imp_right fun hd => ⟨mem_singleton.mp hd, hput⟩
  · intro d c' hd hslot
    obtain rfl := Option.some.inj ((update_self r _ s.requests).symm.trans hd)
    obtain rfl : c = c' := by simpa using hslot
    exact .inr ⟨rfl, hput⟩
  · intro d c' hd hp
    obtain rfl := Option.some.inj ((update_self r _ s.requests).symm.trans hd)
    cases hp
  · intro d hd
    have hfresh := h.dials.fresh d hd
    have hne : d ≠ c := by
      rintro rfl
      cases hfresh.symm.trans hk
    rw [← hfresh]
    exact update_of_ne hne ..

end Sproutfs.Peer

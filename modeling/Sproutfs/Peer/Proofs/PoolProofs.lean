import Sproutfs.Peer.Proofs.TieProofs

/-!
# Every step keeps a pool's counts and ties

The steps are of four shapes: a request moves on alone, a connection changes alone, both change with no
request handed between them, and a request is handed to a connection, to its reader, or back.
-/

namespace Sproutfs.Peer

open Function Tally

variable {s s' : Pool} {r c : Nat} {q q' : Request} {k k' : Conn}

/-! ## The shapes of a step -/

theorem Inv.aside (h : Inv s) (budget : Int) (heard closed tableClosed : Bool) :
    Inv { s with budget := budget, heard := heard, closed := closed, tableClosed := tableClosed } :=
  ⟨{ h.counts with }, h.sound, h.conns, { h.ties with }, { h.dials with }, h.limit, h.room⟩

theorem sound_update {P : Request → Prop} (h : ∀ r q, s.requests r = some q → P q)
    (hreq : s'.requests = update s.requests r (some q')) (hq' : P q') :
    ∀ r q, s'.requests r = some q → P q := by
  intro j d hd
  rw [hreq] at hd
  rcases Machine.update_some hd with ⟨-, rfl⟩ | ⟨-, hd⟩
  · exact hq'
  · exact h j d hd

theorem conns_update {P : Conn → Prop} (h : ∀ c k, s.table c = some k → P k)
    (htab : s'.table = update s.table c (some k')) (hk' : P k') :
    ∀ c k, s'.table c = some k → P k := by
  intro j d hd
  rw [htab] at hd
  rcases Machine.update_some hd with ⟨-, rfl⟩ | ⟨-, hd⟩
  · exact hk'
  · exact h j d hd

theorem Inv.request (h : Inv s) (q' : Request) (hq : s.requests r = some q) (htab : s'.table = s.table)
    (hreq : s'.requests = update s.requests r (some q')) (hconns : s'.conns = s.conns)
    (hnextConn : s'.nextConn = s.nextConn) (hnext : s'.next = s.next)
    (hheld : s'.held = s.held + (weight (some q') - weight (some q)))
    (hdialing : (s'.dialing : Int) = s.dialing + (dialCount (some q') - dialCount (some q)))
    (hlimit : s'.conns.length + s'.dialing ≤ s'.limit)
    (hcount : ∀ c, onConn c (some q') = onConn c (some q)) (hsound : q'.Sound)
    (halike : Request.Alike (some q) (some q'))
    (hslot : q'.slot = q.slot) (hphase : ∀ c, q'.phase ≠ .dialed c) : Inv s' := by
  have ho : Off s s' r 0 := ⟨fun j hj => by rw [hreq, update_of_ne hj], fun d _ => by rw [htab]⟩
  have hq' : s'.requests r = some q' := by rw [hreq, update_self]
  refine ⟨?_, sound_update h.sound hreq hsound, htab ▸ h.conns, ?_, ?_, hlimit, htab ▸ h.room⟩
  · refine h.counts.change hq hreq hnext hheld hdialing fun c k hk => ?_
    rw [htab] at hk
    rw [h.counts.inflight c k hk, hcount c]
    omega
  · exact h.ties.both ho (htab ▸ .refl _) (by rwa [hq, hq'])
  · refine h.dials.both ho (fun b hb => by simpa only [Pool.Put, htab] using hb) (htab ▸ id)
      (hconns ▸ fun _ hd => hd) hnextConn ?_ ?_
    · intro d c hd hc
      obtain rfl : q' = d := Option.some.inj (hq'.symm.trans hd)
      exact h.dials.slot r q c hq (hslot ▸ hc)
    · intro d c hd hp
      obtain rfl : q' = d := Option.some.inj (hq'.symm.trans hd)
      exact absurd hp (hphase c)

theorem Inv.setPhase (h : Inv s) (hq : s.requests r = some q) {p : Phase}
    (hin : Request.InPhase { q with phase := p }) (hd : ¬p.Dials) (hd' : ¬q.phase.Dials) :
    Inv (s.setRequest r { q with phase := p }) := by
  have hsound := h.sound r q hq
  refine h.request { q with phase := p } hq rfl rfl rfl rfl rfl (same_count ..) ?_ h.limit (fun _ => rfl)
    { hsound with phase := hin } (.of (.inl rfl) rfl) rfl ?_
  · rw [dialCount_not hd, dialCount_not hd']
    exact same_count ..
  · rintro c rfl
    exact hd trivial

theorem Inv.conn (h : Inv s) (hk : s.table c = some k)
    (htab : s'.table = update s.table c (some k')) (hreq : s'.requests = s.requests)
    (hnext : s'.next = s.next) (hheld : s'.held = s.held) (hdialing : s'.dialing = s.dialing)
    (hnextConn : s'.nextConn = s.nextConn) (hsub : s'.conns.Sublist s.conns)
    (hlimit : s'.limit = s.limit) (hinf : k'.inflight = k.inflight)
    (hmax : k'.maxInFlight = k.maxInFlight) (hput : k'.put = k.put) (hsound : k'.Sound)
    (halike : Conn.Alike (some k) (some k')) : Inv s' := by
  have ho : Off s s' 0 c := ⟨fun j _ => by rw [hreq], fun d hd => by rw [htab, update_of_ne hd]⟩
  have hk' : s'.table c = some k' := by rw [htab, update_self]
  refine ⟨h.counts.conn hk htab hreq hnext hheld hdialing hinf, hreq ▸ h.sound,
    conns_update h.conns htab hsound,
    h.ties.both ho (by rwa [hk, hk']) (hreq ▸ ⟨fun _ _ _ => .rfl, fun _ => .rfl⟩),
    h.dials.both ho ?_ (by simp [hk]) (fun _ hc => hsub.subset hc) hnextConn
      (fun q d hq => h.dials.slot 0 q d (hreq ▸ hq)) (fun q d hq _ => hreq ▸ hq), ?_, ?_⟩
  · simp [Pool.Put, hk, hk', hput]
  · have := hsub.length_le
    have := h.limit
    rw [hlimit, hdialing]
    omega
  · refine conns_update (P := fun k => k.inflight ≤ k.maxInFlight ∧ 0 < k.maxInFlight) h.room htab ?_
    rw [hinf, hmax]
    exact h.room c k hk

theorem Inv.change (h : Inv s) (q' : Request) (k' : Conn) (hq : s.requests r = some q)
    (hreq : s'.requests = update s.requests r (some q'))
    (htab : s'.table = update s.table c (some k')) (hnext : s'.next = s.next)
    (hheld : s'.held = s.held + (weight (some q') - weight (some q)))
    (hdialing : (s'.dialing : Int) = s.dialing + (dialCount (some q') - dialCount (some q)))
    (hlimit : s'.conns.length + s'.dialing ≤ s'.limit)
    (hinf : k'.inflight = tally (onConn c) s.requests s.next + (onConn c (some q') - onConn c (some q)))
    (hoff : ∀ c', c' ≠ c → onConn c' (some q') = onConn c' (some q))
    (hroom : k'.inflight ≤ k'.maxInFlight ∧ 0 < k'.maxInFlight) (hsq : q'.Sound) (hsk : k'.Sound)
    (hties : Ties s') (hdials : Dials s') : Inv s' := by
  refine ⟨?_, sound_update h.sound hreq hsq, conns_update h.conns htab hsk, hties, hdials, hlimit, ?_⟩
  · refine h.counts.change hq hreq hnext hheld hdialing fun c' m hm => ?_
    rw [htab] at hm
    rcases Machine.update_some hm with ⟨rfl, rfl⟩ | ⟨hne, hm⟩
    · exact hinf
    · rw [h.counts.inflight c' m hm, hoff c' hne]
      omega
  · exact conns_update (P := fun k => k.inflight ≤ k.maxInFlight ∧ 0 < k.maxInFlight) h.room htab hroom

theorem Ties.set (h : Ties s) (hq : s.requests r = some q) (hk : s.table c = some k)
    (hreq : s'.requests = update s.requests r (some q'))
    (htab : s'.table = update s.table c (some k')) (halike : Conn.Alike (some k) (some k'))
    (halike' : Request.Alike (some q) (some q')) : Ties s' := by
  refine h.both (.set hreq htab) ?_ ?_
  · rwa [hk, htab, update_self]
  · rwa [hq, hreq, update_self]

theorem Dials.set (h : Dials s) (hk : s.table c = some k)
    (hreq : s'.requests = update s.requests r (some q'))
    (htab : s'.table = update s.table c (some k')) (hconns : s'.conns = s.conns)
    (hnextConn : s'.nextConn = s.nextConn) (hput : k'.put = k.put)
    (hslot : ∀ c, q'.slot = some c → s.Put c true) (hphase : ∀ c, q'.phase ≠ .dialed c) : Dials s' := by
  have hq' : ∀ d, s'.requests r = some d → d = q' := fun d hd => by simpa [hreq, eq_comm] using hd
  exact h.both (.set hreq htab) (by simp [Pool.Put, hk, htab, hput]) (by simp [hk]) (hconns ▸ fun _ hd => hd)
    hnextConn (fun d c hd => hq' d hd ▸ hslot c) fun d c hd hp => absurd (hq' d hd ▸ hp) (hphase c)

end Sproutfs.Peer

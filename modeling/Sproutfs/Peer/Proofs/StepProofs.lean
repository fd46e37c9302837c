import Sproutfs.Peer.Proofs.TripProofs

/-!
# The steps of a pool

The invariant is kept by every step. Beside it, only `acquire` gives a request a slot, only the request
that dialed a connection puts it in the pool, and only the connection's `fail` takes it out.
-/

namespace Sproutfs.Peer

open Machine Option Function Tally

variable {s s' : Pool} {r c n : Nat} {q : Request} {k : Conn} {q' : Request} {k' : Conn}

/-! ## What a step changes -/

/-- The connection's failure has taken it out of the pool. -/
def Conn.Removed (k : Conn) : Prop := ∃ left, k.stage = .removed left

/-- A step that gives no request a slot, puts no connection in the pool and removes none. -/
structure Quiet (s s' : Pool) : Prop where
  slots : ∀ r q' c, s'.requests r = some q' → q'.slot = some c →
    ∃ q, s.requests r = some q ∧ q.slot = some c
  conns : s'.conns = s.conns
  limit : s'.limit = s.limit
  stages : ∀ c k', s'.table c = some k' → k'.Removed →
    ∃ k, s.table c = some k ∧ k.Removed ∧ k'.put = k.put

theorem slots_update (hq : s.requests r = some q) (hslot : q'.slot = q.slot) {r' c : Nat} {d : Request}
    (hd : update s.requests r (some q') r' = some d) (hs : d.slot = some c) :
    ∃ q, s.requests r' = some q ∧ q.slot = some c := by
  rcases update_some hd with ⟨rfl, rfl⟩ | ⟨-, hd⟩
  · exact ⟨q, hq, hslot ▸ hs⟩
  · exact ⟨d, hd, hs⟩

theorem stages_update (hk : s.table c = some k) (hput : k'.put = k.put) (hstage : k'.Removed → k.Removed)
    {c' : Nat} {m : Conn} (hm : update s.table c (some k') c' = some m) (hr : m.Removed) :
    ∃ k, s.table c' = some k ∧ k.Removed ∧ m.put = k.put := by
  rcases update_some hm with ⟨rfl, rfl⟩ | ⟨-, hm⟩
  · exact ⟨k, hk, hstage hr, hput⟩
  · exact ⟨m, hm, hr, rfl⟩

/-- Every step is quiet but the look for room, the putting of a connection and its removal. -/
inductive Change (s : Pool) : Action → Pool → Prop where
  | quiet {a s'} (h : Quiet s s') : Change s a s'
  | looks {a r q} (hq : s.requests r = some q) : Change s a (s.look r q)
  | puts {a r q c k} (hq : s.requests r = some q) (hphase : q.phase = .dialed c)
    (hk : s.table c = some k) : Change s a
      { (s.setConn c { k with inflight := k.inflight + 1, put := true }).setRequest r
          { q with phase := .ready c, slot := some c } with
        dialing := s.dialing - 1
        conns := s.conns ++ [c] }
  | removes {c k left} (hk : s.table c = some k) : Change s (.happens c .removes)
      { s.setConn c { k with stage := .removed left } with conns := s.conns.filter (· ≠ c) }

/-- The invariant is kept, and the change is one of those. -/
structure Kept (s : Pool) (a : Action) (s' : Pool) : Prop where
  inv : Inv s'
  change : Change s a s'

theorem Quiet.of_eq (hr : s'.requests = s.requests) (ht : s'.table = s.table) (hc : s'.conns = s.conns)
    (hl : s'.limit = s.limit) : Quiet s s' :=
  ⟨fun _ q _ hq hs => ⟨q, hr ▸ hq, hs⟩, hc, hl, fun _ k hk hm => ⟨k, ht ▸ hk, hm, rfl⟩⟩

variable {a b : Action} {dialing : Nat} {held budget : Int} {heard : Bool}

theorem Kept.request (hinv : Inv { s.setRequest r q' with dialing, held, budget, heard })
    (hq : s.requests r = some q) (hslot : q'.slot = q.slot) :
    Kept s a { s.setRequest r q' with dialing, held, budget, heard } :=
  ⟨hinv, .quiet ⟨fun _ _ _ hd => slots_update hq hslot hd, rfl, rfl,
    fun _ m hm hr => ⟨m, hm, hr, rfl⟩⟩⟩

theorem Kept.both (hinv : Inv { (s.setConn c k').setRequest r q' with dialing, held, budget, heard })
    (hq : s.requests r = some q) (hk : s.table c = some k) (hslot : q'.slot = q.slot)
    (hput : k'.put = k.put) (h : k'.Removed → k.Removed) :
    Kept s a { (s.setConn c k').setRequest r q' with dialing, held, budget, heard } :=
  ⟨hinv, .quiet ⟨fun _ _ _ hd => slots_update hq hslot hd, rfl, rfl,
    fun _ _ hm => stages_update hk hput h hm⟩⟩

theorem Kept.conn (hinv : Inv { s.setConn c k' with dialing, held, budget, heard })
    (hk : s.table c = some k) (hput : k'.put = k.put) (h : k'.Removed → k.Removed) :
    Kept s a { s.setConn c k' with dialing, held, budget, heard } :=
  ⟨hinv, .quiet ⟨fun _ d _ hd hs => ⟨d, hd, hs⟩, rfl, rfl, fun _ _ hm => stages_update hk hput h hm⟩⟩

theorem Kept.phase {p p' : Phase} (h : Inv s) (hq : s.requests r = some q) (hphase : q.phase = p)
    (hin : Request.InPhase { q with phase := p' }) (hd : ¬p.Dials) (hd' : ¬p'.Dials) :
    Kept s a (s.setRequest r { q with phase := p' }) :=
  .request (h.setPhase hq hin hd' (hphase ▸ hd)) hq rfl

theorem Kept.dial {p p' : Phase} (h : Inv s) (hq : s.requests r = some q) (hphase : q.phase = p)
    (hin : Request.InPhase { q with phase := p' }) (hd : p.Dials) (hd' : p'.Dials) (hp : ∀ c, p' ≠ .dialed c) :
    Kept s a (s.setRequest r { q with phase := p' }) :=
  .request (h.dial hq hd' (hphase ▸ hd) hin hp) hq rfl

/-! ## The steps -/

theorem Inv.acquires (h : Inv s) (hq : s.requests r = some q) {a : Acquiring}
    (hs : s.acquires r q a = some s') : Kept s b s' := by
  have hsound := h.sound r q hq
  revert hs
  fun_cases Pool.acquires s r q a <;> intro hs <;> try cases hs
  next hphase => exact ⟨h.look hq hphase, .looks hq⟩
  next hphase => exact .phase h hq hphase (hsound.at hphase) id id
  next hphase => exact .phase h hq hphase (by simp [(hsound.at hphase).1]) id id
  next n budget hok =>
    have hdial := h.dial hq (p := .helloed n) trivial (by rw [hok.1]; trivial)
      ⟨hok.2, hsound.at hok.1⟩ (by simp)
    exact .request (hdial.aside _ true s.closed s.tableClosed) hq rfl
  next hphase => exact .dial h hq hphase (hsound.at hphase) trivial trivial (by simp)
  next hphase _ => exact .dial h hq hphase (hsound.at hphase).2 trivial trivial (by simp)
  next hphase _ =>
    refine ⟨h.opens hq hphase, .quiet ⟨fun _ _ _ hd => slots_update hq (by rfl) hd, rfl, rfl, ?_⟩⟩
    intro c' m hm hr
    rcases update_some hm with ⟨rfl, rfl⟩ | ⟨-, hm⟩
    · obtain ⟨left, hl⟩ := hr
      cases hl
    · exact ⟨m, hm, hr, rfl⟩
  next hphase => exact .request (h.dialEnds hq hphase) hq rfl
  next hphase => exact .request (h.dialReturns hq hphase) hq rfl
  next hphase =>
    obtain ⟨k, hk, rfl⟩ := map_eq_some_iff.mp hs
    exact ⟨h.puts hq hphase hk, .puts hq hphase hk⟩

theorem Inv.trips (h : Inv s) (hq : s.requests r = some q) {a : Tripping} (hs : s.trips r q a = some s') :
    Kept s b s' := by
  have hsound := h.sound r q hq
  revert hs
  fun_cases Pool.trips s r q a <;> intro hs <;> try cases hs
  next hphase =>
    obtain ⟨hcaller, hslot, -⟩ := hsound.at hphase
    obtain ⟨k, hk, rfl⟩ := map_eq_some_iff.mp hs
    exact .both (h.callerReleases hq hk hcaller hslot (hphase ▸ id) .cancelled) hq hk rfl rfl id
  next hphase =>
    obtain ⟨k, hk, hs⟩ := bind_eq_some_iff.mp hs
    obtain ⟨-, rfl⟩ := ite_some_none_eq_some.mp hs
    exact .both (h.takesSend hq hphase hk) hq hk rfl rfl id
  next hphase =>
    obtain ⟨k, hk, rfl⟩ := map_eq_some_iff.mp hs
    split
    · next hlive => exact .both (h.registers hq hphase hk hlive) hq hk rfl rfl id
    · obtain ⟨hcaller, hslot, -⟩ := hsound.at hphase
      exact .phase h hq hphase ⟨hcaller, hslot⟩ id id
  next c hphase =>
    obtain ⟨k, hk, rfl⟩ := map_eq_some_iff.mp hs
    exact .both (h.passesSend hq hk (p := .leaving c) (hsound.at hphase) (hphase ▸ id) id true) hq hk rfl rfl id
  next hphase =>
    obtain ⟨hcaller, hslot⟩ := hsound.at hphase
    obtain ⟨k, hk, rfl⟩ := map_eq_some_iff.mp hs
    exact .both (h.callerReleases hq hk hcaller hslot (hphase ▸ id) .failed) hq hk rfl rfl id
  next ok _ _ hphase =>
    obtain ⟨k, hk, rfl⟩ := map_eq_some_iff.mp hs
    refine .both (h.passesSend hq hk ?_ (hphase ▸ id) ?_ true) hq hk rfl rfl id
    · cases ok <;> exact hsound.at hphase
    · cases ok <;> exact id
  next hphase =>
    obtain ⟨k, hk, rfl⟩ := map_eq_some_iff.mp hs
    split
    · next he => exact .both (h.forgets hq hphase hk he) hq hk rfl rfl id
    · exact .phase h hq hphase (hsound.at hphase).1 id id
  next hphase _ => exact .phase h hq hphase (hsound.at hphase).1 id id
  next hphase _ => exact .phase h hq hphase (hsound.at hphase) id id
  next hphase =>
    obtain ⟨k, hk, rfl⟩ := map_eq_some_iff.mp hs
    split
    · exact .request (h.abandons hq hphase) hq rfl
    · exact .phase h hq hphase (hsound.at hphase).1 id id

theorem Inv.happens (h : Inv s) (hk : s.table c = some k) {a : Happening}
    (hs : s.happens c k a = some s') : Kept s (.happens c a) s' := by
  revert hs
  fun_cases Pool.happens s c k a <;> intro hs <;> try cases hs
  next hok => exact .conn (h.pings hk hok.2) hk rfl id
  next n _ => exact .conn (h.pingLeaves hk n) hk rfl id
  next n hreader m r hfind =>
    obtain ⟨q, hq, rfl⟩ := map_eq_some_iff.mp hs
    have hnum : m = n := by simpa using List.find?_some hfind
    exact .both (h.replies hk hreader (hnum ▸ List.mem_of_find?_eq_some hfind) hq) hq hk rfl rfl id
  next n _ _ _ => exact .conn (h.pingLeaves hk n) hk rfl id
  next => exact ⟨h, .quiet (.of_eq rfl rfl rfl rfl)⟩
  next hreader =>
    obtain ⟨q, hq, rfl⟩ := map_eq_some_iff.mp hs
    exact .both (h.readerReleases hk hreader hq) hq hk rfl rfl id
  next hreader =>
    obtain ⟨q, hq, rfl⟩ := map_eq_some_iff.mp hs
    split
    · split
      · exact .both (h.readerDelivers hk hreader hq .receiving (.inl rfl) q.reply (.inl rfl)) hq hk rfl rfl id
      · exact .both (h.readerDelivers hk hreader hq .receiving (.inl rfl) _ (.inr (.inl rfl))) hq hk rfl rfl id
    · exact .both (h.readerDelivers hk hreader hq .ended (.inr rfl) _ (.inr (.inr rfl))) hq hk rfl rfl id
  next hreader => exact .conn (h.readerEnds hk hreader) hk rfl id
  next hlive => exact .conn (h.fails hk hlive) hk rfl fun ⟨_, hl⟩ => by cases hl
  next hstage => exact ⟨h.removes hk hstage, .removes hk⟩
  next hstage => exact .conn (h.failPasses hk hstage) hk rfl fun _ => ⟨_, hstage⟩
  next hstage =>
    obtain ⟨q, hq, rfl⟩ := map_eq_some_iff.mp hs
    exact .both (h.failReleases hk hstage hq) hq hk rfl rfl fun _ => ⟨_, hstage⟩

theorem Inv.start (h : Inv s) (bytes : Nat) :
    Inv { s.setRequest s.next { bytes } with next := s.next + 1 } := by
  have hnone := h.counts.fresh s.next le_rfl
  have hfold : ∀ (f : Option Request → Int), f (some { bytes }) = 0 → tally f s.requests s.next =
      tally f (update s.requests s.next (some { bytes })) (s.next + 1) := by
    intro f hf
    rw [tally_succ, hf]
    omega
  have ho : Off s { s.setRequest s.next { bytes } with next := s.next + 1 } s.next 0 :=
    ⟨fun j hj => update_of_ne hj .., fun _ _ => rfl⟩
  have hnew : ∀ q, update s.requests s.next (some { bytes }) s.next = some q → q = { bytes } := by
    simp [eq_comm]
  refine ⟨⟨?_, ?_, ?_, ?_⟩, sound_update h.sound rfl ⟨by simp, by simp, by simp, by simp⟩,
    h.conns, h.ties.both ho (.refl _) ?_, ?_, h.limit, h.room⟩
  · exact h.counts.held.trans (hfold weight (by simp [weight, Custody.Holds]))
  · intro c k hk
    exact (h.counts.inflight c k hk).trans (hfold (onConn c) (by simp [onConn]))
  · exact h.counts.dialing.trans (hfold dialCount (dialCount_not id))
  · intro r hr
    have hr' : s.next + 1 ≤ r := hr
    show update s.requests s.next _ r = none
    rw [update_of_ne (by omega)]
    exact h.counts.fresh r (by omega)
  · -- it has neither number nor slot
    show Request.Alike (s.requests s.next) (update s.requests s.next _ s.next)
    rw [hnone, update_self]
    exact ⟨by simp, by simp⟩
  · refine h.dials.both ho (fun _ hb => hb) id (fun _ hd => hd) rfl (fun q c hq hs => ?_) fun q c hq hp => ?_
    · cases hnew q hq ▸ hs
    · cases hnew q hq ▸ hp

theorem Inv.step (h : Inv s) (hs : s.step a = some s') : Kept s a s' := by
  cases a with
  | start bytes =>
    cases hs
    refine ⟨h.start bytes, .quiet ⟨?_, rfl, rfl, fun _ k hk hr => ⟨k, hk, hr, rfl⟩⟩⟩
    intro r q c hq hslot
    rcases update_some hq with ⟨-, rfl⟩ | ⟨-, hq⟩
    · cases hslot
    · exact ⟨q, hq, hslot⟩
  | acquires r a =>
    obtain ⟨q, hq, hs⟩ := bind_eq_some_iff.mp hs
    exact h.acquires hq hs
  | trips r a =>
    obtain ⟨q, hq, hs⟩ := bind_eq_some_iff.mp hs
    exact h.trips hq hs
  | happens c a =>
    obtain ⟨k, hk, hs⟩ := bind_eq_some_iff.mp hs
    exact h.happens hk hs
  | closesTable =>
    cases hs
    exact ⟨h.aside s.budget s.heard s.closed true, .quiet (.of_eq rfl rfl rfl rfl)⟩
  | closesPool =>
    cases hs
    exact ⟨h.aside s.budget s.heard true s.tableClosed, .quiet (.of_eq rfl rfl rfl rfl)⟩

theorem inv_new (limit : Nat) (budget : Int) : Inv (Pool.new limit budget) := by
  refine ⟨⟨rfl, ?_, rfl, fun _ _ => rfl⟩, ?_, ?_, ⟨?_, ?_, ?_, ?_, ?_⟩, ⟨?_, ?_, ?_, ?_, fun _ _ => rfl⟩,
    Nat.zero_le _, ?_⟩ <;> simp [Pool.new, Pool.At, Pool.Took, Pool.Answers, Pool.In]

end Sproutfs.Peer

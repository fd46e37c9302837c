import Sproutfs.Peer.Proofs.AcquireProofs

/-!
# A pool is kept while its requests go round

One lemma for each point of `roundTrip` and of a connection's own goroutines, and the step lemma that
they and the points of `acquire` give.
-/

namespace Sproutfs.Peer

open List Tally

variable {s s' : Pool} {r c n : Nat} {q : Request} {k : Conn} {left : List (Nat × Waiting)}

/-! ## Counts where a request and a connection change -/

theorem Inv.exchange (h : Inv s) (q' : Request) (k' : Conn) (hq : s.requests r = some q)
    (hk : s.table c = some k) (hholds : q'.custody.Holds ↔ q.custody.Holds) (hslot : q'.slot = q.slot)
    (hbytes : q'.bytes = q.bytes) (hd : ¬q.phase.Dials) (hd' : ¬q'.phase.Dials) (hsq : q'.Sound)
    (hinf : k'.inflight = k.inflight) (hmax : k'.maxInFlight = k.maxInFlight) (hput : k'.put = k.put)
    (hsk : k'.Sound) (hties : Ties ((s.setConn c k').setRequest r q')) :
    Inv ((s.setConn c k').setRequest r q') := by
  have hcount : ∀ c, onConn c (some q') = onConn c (some q) := by
    intro c
    simp only [onConn, hholds, hslot]
  refine h.change q' k' hq rfl rfl rfl ?_ ?_ h.limit ?_ (fun c' _ => hcount c') ?_ hsq hsk hties
    (h.dials.set hk rfl rfl rfl rfl hput ?_ ?_)
  · have hw : weight (some q') = weight (some q) := by simp only [weight, hholds, hbytes]
    rw [hw]
    exact same_count ..
  · rw [dialCount_not hd, dialCount_not hd']
    exact same_count ..
  · rw [hcount, hinf, h.counts.inflight c k hk]
    omega
  · rw [hinf, hmax]
    exact h.room c k hk
  · intro c' hc'
    exact h.dials.slot r q c' hq (hslot ▸ hc')
  · intro c' hc'
    rw [hc'] at hd'
    exact hd' trivial

theorem Inv.release (h : Inv s) (d : Request) (m : Conn) (hq : s.requests r = some q)
    (hk : s.table c = some k) (hholds : q.custody.Holds) (hslot : q.slot = some c)
    (hdslot : d.slot = q.slot) (hbytes : d.bytes = q.bytes) (hd : ¬q.phase.Dials) (hd' : ¬d.phase.Dials)
    (hsq : Request.Sound { d with custody := .returned, given := d.given + 1 })
    (hinf : m.inflight = k.inflight) (hmax : m.maxInFlight = k.maxInFlight) (hput : m.put = k.put)
    (hsm : m.Sound) (hties : Ties (s.release c m r d)) : Inv (s.release c m r d) := by
  refine h.change { d with custody := .returned, given := d.given + 1 }
    { m with inflight := m.inflight - 1 } hq rfl rfl rfl ?_ ?_ h.limit ?_ ?_ ?_ hsq
    (hsm.inflight _ m.send m.next m.put le_rfl) hties (h.dials.set hk rfl rfl rfl rfl hput ?_ ?_)
  · have hbefore : weight (some q) = q.bytes := by simp [weight, hholds]
    show s.held - d.bytes = s.held + (0 - weight (some q))
    rw [hbefore, hbytes]
    omega
  · simp [dialCount, hd, hd', Pool.release, Pool.setRequest, Pool.setConn]
  · have hbefore : onConn c (some q) = 1 := by simp [onConn, hholds, hslot]
    show m.inflight - 1 = _ + (0 - onConn c (some q))
    rw [hbefore, hinf, h.counts.inflight c k hk]
    omega
  · intro c' hcc
    simp [onConn, hslot, Custody.Holds, Ne.symm hcc]
  · have hroom := h.room c k hk
    refine ⟨?_, by rw [hmax]; exact hroom.2⟩
    show m.inflight - 1 ≤ (m.maxInFlight : Int)
    rw [hinf, hmax]
    omega
  · intro c' hc'
    exact h.dials.slot r q c' hq (hdslot ▸ hc')
  · intro c' hc'
    exact hd' (by rw [show d.phase = .dialed c' from hc']; trivial)

/-! ## What the custody says -/

/-- A request that a connection or its reader has passes on, in the phase it is in. -/
theorem Request.InPhase.pass {d : Request} (h : q.InPhase) (hq : q.custody ≠ .caller)
    (hn : q.number ≠ none) (hd : d.custody ≠ .caller) (hphase : d.phase = q.phase)
    (hslot : d.slot = q.slot) (hnumber : d.number = q.number) : d.InPhase := by
  unfold Request.InPhase Phase.Says at h ⊢
  rw [hphase, hslot, hnumber]
  cases hp : q.phase <;> simp_all

theorem Request.InPhase.not_dials (h : q.InPhase) (hq : q.custody ≠ .caller ∨ q.number ≠ none) :
    ¬q.phase.Dials := by
  cases hp : q.phase <;> simp_all [Phase.Dials]

theorem Request.Sound.slot_eq (h : q.Sound) (hq : q.custody = .conn ∨ q.custody = .reader)
    (hn : q.number = some (c, n)) : q.slot = some c := by
  obtain ⟨c', n', hn', hslot⟩ := h.slot hq
  rw [hn] at hn'
  cases hn'
  exact hslot

section

variable (h : Inv s)

include h

theorem Inv.at_entry (hk : s.table c = some k) (he : (n, .request r) ∈ k.entries) :
    ∃ q, s.requests r = some q ∧ q.custody = .conn ∧ q.number = some (c, n) ∧ q.slot = some c ∧
      ∀ n', (n', .request r) ∈ k.entries → n' = n := by
  obtain ⟨q, hq, hcustody, hnumber⟩ := (h.ties.conn r c n).mp ⟨k, hk, he⟩
  refine ⟨q, hq, hcustody, hnumber, (h.sound r q hq).slot_eq (.inl hcustody) hnumber, ?_⟩
  intro n' he'
  obtain ⟨d, hd, -, hnum⟩ := (h.ties.conn r c n').mp ⟨k, hk, he'⟩
  rw [hq] at hd
  cases hd
  rw [hnumber] at hnum
  cases hnum
  rfl

theorem Inv.not_entry (hq : s.requests r = some q) (hk : s.table c = some k) (hne : q.custody ≠ .conn)
    (n : Nat) : (n, .request r) ∉ k.entries := by
  intro he
  obtain ⟨d, hd, hcustody, -⟩ := h.at_entry hk he
  rw [hq] at hd
  cases hd
  exact hne hcustody

theorem Inv.not_took (hq : s.requests r = some q) (hk : s.table c = some k) (hne : q.custody ≠ .reader)
    (n : Nat) : k.reader ≠ .took n r := by
  intro ht
  obtain ⟨d, hd, hreader, -⟩ := (h.ties.reader r c n).mp ⟨k, hk, ht⟩
  rw [hq] at hd
  cases hd
  exact hne hreader

/-- A pending request is taken out of the table: what is left, and of whom. -/
theorem Inv.takes_out (hk : s.table c = some k) (he : (n, .request r) ∈ k.pending) (x : Reader) :
    Conn.Sound { k with pending := k.pending.filter (·.1 ≠ n), reader := x } ∧
    (∀ n', (n', .request r) ∉ Conn.entries
      { k with pending := k.pending.filter (·.1 ≠ n), reader := x }) ∧
    ∀ n' r', r' ≠ r → ((n', .request r') ∈ Conn.entries
      { k with pending := k.pending.filter (·.1 ≠ n), reader := x } ↔ (n', .request r') ∈ k.entries) := by
  have hentry : (n, .request r) ∈ k.entries := mem_append_left _ he
  obtain ⟨q, hq, hcustody, hnumber, -, honly⟩ := h.at_entry hk hentry
  have hsound := h.conns c k hk
  have hlive : k.stage = .live := by
    rcases hsound.stage with hlive | hnone
    · exact hlive
    · rw [hnone] at he
      cases he
  have hsame : k.entries = k.pending := by simp [Conn.entries, hlive, Stage.left]
  have hleft : Conn.entries { k with pending := k.pending.filter (·.1 ≠ n), reader := x } =
      k.pending.filter (·.1 ≠ n) := by simp [Conn.entries, hlive, Stage.left]
  refine ⟨⟨?_, ?_, .inl hlive⟩, ?_, ?_⟩
  · rw [hleft]
    exact (hsame ▸ hsound.nodup).filter _
  · rw [hleft]
    intro e hmem
    exact hsound.bound e (hsame ▸ mem_of_mem_filter hmem)
  · intro n' hmem
    rw [hleft, mem_filter] at hmem
    obtain rfl := honly n' (hsame ▸ hmem.1)
    simp at hmem
  · intro n' r' hne
    rw [hleft, hsame, mem_filter]
    constructor
    · exact And.left
    · intro hmem
      refine ⟨hmem, ?_⟩
      -- another request under the number would be this one
      have hnn : n' ≠ n := by
        rintro rfl
        obtain ⟨d, hd, -, hnum, -⟩ := h.at_entry hk (hsame ▸ hmem)
        exact hne (h.ties.unique r' r d q _ hd hq hnum hnumber)
      simpa using hnn

/-! ## The points of a round trip -/

section

variable (hq : s.requests r = some q)

include hq

theorem Inv.callerReleases (hk : s.table c = some k) (hcustody : q.custody = .caller)
    (hslot : q.slot = some c) (hd : ¬q.phase.Dials) (res : Result) :
    Inv (s.release c k r { q with phase := .done res }) := by
  have hsound := h.sound r q hq
  have hgiven : q.given = 0 := by simpa [hcustody] using hsound.given
  refine h.release { q with phase := .done res } k hq hk (by rw [hcustody]; trivial) hslot rfl rfl hd
    (by simp [Phase.Dials]) ⟨by simp, by simp [hgiven], by simp, hsound.reply⟩ rfl rfl rfl
    (h.conns c k hk) ?_
  exact h.ties.set hq hk rfl rfl (.of_eq rfl rfl le_rfl)
    (.of (.inr (apart (.inr (.inl hcustody)) (.inr (.inr rfl)))) rfl)

theorem Inv.passesSend (hk : s.table c = some k) {p : Phase} (hin : Request.InPhase { q with phase := p })
    (hd : ¬q.phase.Dials) (hd' : ¬p.Dials) (send : Bool) :
    Inv ((s.setConn c { k with send := send }).setRequest r { q with phase := p }) := by
  have hsound := h.sound r q hq
  refine h.exchange { q with phase := p } { k with send := send } hq hk Iff.rfl rfl rfl hd hd'
    { hsound with phase := hin } rfl rfl rfl
    ((h.conns c k hk).inflight k.inflight send k.next k.put le_rfl) ?_
  exact h.ties.set hq hk rfl rfl (.of_eq rfl rfl le_rfl) (.of (.inl rfl) rfl)

theorem Inv.takesSend (hphase : q.phase = .ready c) (hk : s.table c = some k) :
    Inv ((s.setConn c { k with send := false, next := k.next + 1 }).setRequest r
      { q with phase := .sending c (k.next + 1), number := some (c, k.next + 1) }) := by
  have hsound := h.sound r q hq
  obtain ⟨hcaller, hslot, hnonumber⟩ := hsound.at hphase
  have hreply : ∀ c n, q.reply ≠ some (.answered c n) := by
    intro c n hr
    have := hsound.reply c n hr
    rw [hnonumber] at this
    cases this
  refine h.exchange { q with phase := .sending c (k.next + 1), number := some (c, k.next + 1) }
    { k with send := false, next := k.next + 1 } hq hk Iff.rfl rfl rfl (by simp [hphase, Phase.Dials])
    (by simp [Phase.Dials]) ⟨by simp [hcaller, hslot], hsound.given, by simp [hcaller],
      fun c n hr => absurd hr (hreply c n)⟩ rfl rfl rfl
    ((h.conns c k hk).inflight k.inflight false (k.next + 1) k.put (Nat.le_succ _)) ?_
  refine h.ties.still (.set rfl rfl) ?_ (fun x hx d n => ?_) (fun x => ?_) fun x hx => .inr ?_
  · show Conn.Alike (s.table c) (Function.update s.table c _ c)
    rw [hk, Function.update_self]
    exact .of_eq rfl rfl (Nat.le_succ _)
  · rcases hx with rfl | rfl <;> simp [Pool.In, Pool.setConn, Pool.setRequest, hq, hcaller]
  · simp [Pool.Numbered, hq, hnonumber]
  · -- the numbers given so far are below
    obtain rfl : (c, k.next + 1) = x := by simpa [Pool.Numbered, Pool.setConn, Pool.setRequest] using hx
    refine ⟨rfl, by simp [Pool.setConn, Pool.setRequest], ?_⟩
    rintro j ⟨d, hd, hnum⟩
    obtain ⟨m, hm, hle⟩ := h.ties.number j d c (k.next + 1) hd hnum
    rw [hk] at hm
    cases hm
    omega

theorem Inv.registers (hphase : q.phase = .sending c n) (hk : s.table c = some k)
    (hlive : k.stage = .live) :
    Inv ((s.setConn c { k with pending := k.pending ++ [(n, .request r)] }).setRequest r
      { q with phase := .sent c n, custody := .conn }) := by
  have hsound := h.sound r q hq
  obtain ⟨hcaller, hslot, hnumber⟩ := hsound.at hphase
  have hgiven : q.given = 0 := by simpa [hcaller] using hsound.given
  have hconn := h.conns c k hk
  have hsame : k.entries = k.pending := by simp [Conn.entries, hlive, Stage.left]
  have hnew : Conn.entries { k with pending := k.pending ++ [(n, .request r)] } =
      k.pending ++ [(n, .request r)] := by simp [Conn.entries, hlive, Stage.left]
  have hnone : ∀ n', (n', .request r) ∉ k.pending :=
    fun n' he => h.not_entry hq hk (by rw [hcaller]; rintro ⟨⟩) n' (hsame ▸ he)
  have htook := h.not_took hq hk (by rw [hcaller]; rintro ⟨⟩)
  have hle : n ≤ k.next := by
    obtain ⟨m, hm, hle⟩ := h.ties.number r q c n hq hnumber
    rw [hk] at hm
    cases hm
    exact hle
  refine h.exchange { q with phase := .sent c n, custody := .conn }
    { k with pending := k.pending ++ [(n, .request r)] } hq hk (by simp [hcaller, Custody.Holds]) rfl rfl
    (by simp [hphase, Phase.Dials]) (by simp [Phase.Dials])
    ⟨by simp [hslot, hnumber], by simp [hgiven], ?_, hsound.reply⟩ rfl rfl rfl
    ⟨?_, ?_, .inl hlive⟩ ?_
  · intro _
    exact ⟨c, n, hnumber, hslot⟩
  · rw [hnew]
    refine nodup_append.mpr ⟨hsame ▸ hconn.nodup, nodup_singleton _, ?_⟩
    rintro e he d hd rfl
    obtain rfl := mem_singleton.mp hd
    exact hnone n he
  · rw [hnew]
    intro e he
    rcases mem_append.mp he with he | he
    · exact hconn.bound e (hsame ▸ he)
    · obtain rfl := mem_singleton.mp he
      exact hle
  · refine h.ties.hand hq hk rfl rfl hnumber rfl ?_ ?_ (fun _ _ _ => Iff.rfl) ?_ (fun _ _ ha => .inl ha) le_rfl
    · intro n' r' hne
      rw [hnew, hsame]
      simp [hne]
    · intro n'
      rw [hnew]
      simp [hnone, hnumber, eq_comm]
    · intro n'
      simp [htook]

theorem Inv.forgets (hphase : q.phase = .sendFailed c n) (hk : s.table c = some k)
    (he : (n, .request r) ∈ k.pending) :
    Inv ((s.setConn c { k with pending := k.pending.filter (·.1 ≠ n) }).setRequest r
      { q with phase := .leaving c, custody := .caller }) := by
  have hsound := h.sound r q hq
  obtain ⟨d, hd, hcustody, hnumber, hslot, -⟩ := h.at_entry hk (mem_append_left _ he)
  rw [hq] at hd
  cases hd
  have hgiven : q.given = 0 := by simpa [hcustody] using hsound.given
  have htook := h.not_took hq hk (by rw [hcustody]; rintro ⟨⟩)
  obtain ⟨hsk, hgone, hothers⟩ := h.takes_out hk he k.reader
  refine h.exchange { q with phase := .leaving c, custody := .caller }
    { k with pending := k.pending.filter (·.1 ≠ n) } hq hk (by simp [hcustody, Custody.Holds]) rfl rfl
    (by simp [hphase, Phase.Dials]) (by simp [Phase.Dials])
    ⟨by simp [hslot], by simp [hgiven], by simp, hsound.reply⟩ rfl rfl rfl hsk ?_
  refine h.ties.hand hq hk rfl rfl hnumber rfl hothers ?_ (fun _ _ _ => Iff.rfl) ?_ (fun _ _ ha => .inl ha) le_rfl
  · intro n'
    exact iff_of_false (hgone n') (by simp)
  · intro n'
    simp [htook]

theorem Inv.abandons (hphase : q.phase = .awaiting c n) :
    Inv (s.setRequest r { q with phase := .done .cancelled, abandoned := true }) := by
  have hsound := h.sound r q hq
  refine h.request { q with phase := .done .cancelled, abandoned := true } hq rfl rfl rfl rfl rfl
    (same_count ..) ?_ h.limit (fun _ => rfl)
    { hsound with phase := (hsound.at hphase).1 } (.of (.inl rfl) rfl) rfl (by simp)
  simp [dialCount, hphase, Phase.Dials, Pool.setRequest]

end

/-! ## A connection's own goroutines -/

section

variable (hk : s.table c = some k)

include hk

/-- A connection changes its numbers, its table and how far its `fail` has come, and no request with it. -/
theorem Inv.keeps (m : Conn) (hinf : m.inflight = k.inflight) (hmax : m.maxInFlight = k.maxInFlight)
    (hput : m.put = k.put) (hreader : m.reader = k.reader) (hsm : m.Sound)
    (hentries : ∀ n r, (n, .request r) ∈ m.entries ↔ (n, .request r) ∈ k.entries)
    (hnext : k.next ≤ m.next) : Inv (s.setConn c m) :=
  h.conn hk rfl rfl rfl rfl rfl rfl (List.Sublist.refl _) rfl hinf hmax hput hsm
    (.of hentries (fun _ _ => by rw [hreader]) (fun _ _ ha => hreader ▸ ha) hnext)

theorem Inv.pings (hlive : k.stage = .live) :
    Inv (s.setConn c { k with next := k.next + 1, pending := k.pending ++ [(k.next + 1, .ping)] }) := by
  have hsame : k.entries = k.pending := by simp [Conn.entries, hlive, Stage.left]
  have hnew : Conn.entries
      { k with next := k.next + 1, pending := k.pending ++ [(k.next + 1, .ping)] } =
      k.pending ++ [(k.next + 1, .ping)] := by simp [Conn.entries, hlive, Stage.left]
  have hconn := h.conns c k hk
  refine h.keeps hk _ rfl rfl rfl rfl ⟨?_, ?_, .inl hlive⟩ ?_ (Nat.le_succ _)
  · rw [hnew]
    refine nodup_append.mpr ⟨hsame ▸ hconn.nodup, nodup_singleton _, ?_⟩
    rintro e he d hd rfl
    obtain rfl := mem_singleton.mp hd
    have := hconn.bound _ (hsame ▸ he)
    simp at this
  · rw [hnew]
    intro e he
    rcases mem_append.mp he with he | he
    · exact (hconn.bound e (hsame ▸ he)).trans (Nat.le_succ _)
    · obtain rfl := mem_singleton.mp he
      exact le_rfl
  · intro n r
    rw [hnew, hsame]
    simp

theorem Inv.pingLeaves (n : Nat) :
    Inv (s.setConn c { k with pending := k.pending.filter (· ≠ (n, .ping)) }) := by
  have hconn := h.conns c k hk
  have hsub : (Conn.entries { k with pending := k.pending.filter (· ≠ (n, .ping)) }).Sublist k.entries :=
    List.Sublist.append_right filter_sublist _
  refine h.keeps hk _ rfl rfl rfl rfl ⟨hconn.nodup.sublist hsub, fun e he => hconn.bound e (hsub.subset he),
    ?_⟩ ?_ le_rfl
  · rcases hconn.stage with hlive | hnone
    · exact .inl hlive
    · refine .inr ?_
      rw [hnone]
      rfl
  · intro n' r
    simp [Conn.entries]

theorem Inv.replies (hreader : k.reader = .receiving) (he : (n, .request r) ∈ k.pending)
    (hq : s.requests r = some q) :
    Inv ((s.setConn c
        { k with pending := k.pending.filter (·.1 ≠ n), reader := .took n r }).setRequest r
      { q with custody := .reader }) := by
  have hsound := h.sound r q hq
  obtain ⟨d, hd, hcustody, hnumber, hslot, -⟩ := h.at_entry hk (mem_append_left _ he)
  rw [hq] at hd
  cases hd
  have hgiven : q.given = 0 := by simpa [hcustody] using hsound.given
  have hnd := hsound.phase.not_dials (.inl (by simp [hcustody]))
  have hin : Request.InPhase { q with custody := .reader } :=
    hsound.phase.pass (by simp [hcustody]) (by simp [hnumber]) (by simp) rfl rfl rfl
  obtain ⟨hsk, hgone, hothers⟩ := h.takes_out hk he (.took n r)
  refine h.exchange { q with custody := .reader }
    { k with pending := k.pending.filter (·.1 ≠ n), reader := .took n r } hq hk
    (by simp [hcustody, Custody.Holds]) rfl rfl hnd hnd
    ⟨hin, by simp [hgiven], ?_, hsound.reply⟩ rfl rfl rfl hsk ?_
  · intro _
    exact ⟨c, n, hnumber, hslot⟩
  · refine h.ties.hand hq hk rfl rfl hnumber rfl hothers ?_ ?_ ?_ (by simp) le_rfl
    · intro n'
      exact iff_of_false (hgone n') (by simp)
    · intro n' r' hne
      simp [hreader, Ne.symm hne]
    · intro n'
      simp [hnumber]

theorem Inv.readerReleases (hreader : k.reader = .took n r) (hq : s.requests r = some q) :
    Inv (s.release c { k with reader := .answers n r } r q) := by
  have hsound := h.sound r q hq
  obtain ⟨d, hd, hcustody, hnumber⟩ := (h.ties.reader r c n).mp ⟨k, hk, hreader⟩
  rw [hq] at hd
  cases hd
  have hgiven : q.given = 0 := by simpa [hcustody] using hsound.given
  have hnd := hsound.phase.not_dials (.inl (by simp [hcustody]))
  have hin : Request.InPhase { q with custody := .returned, given := q.given + 1 } :=
    hsound.phase.pass (by simp [hcustody]) (by simp [hnumber]) (by simp) rfl rfl rfl
  have hconn := h.conns c k hk
  have hnone := h.not_entry hq hk (by rw [hcustody]; rintro ⟨⟩)
  refine h.release q { k with reader := .answers n r } hq hk (by rw [hcustody]; trivial)
    (hsound.slot_eq (.inr hcustody) hnumber) rfl rfl hnd hnd
    ⟨hin, by simp [hgiven], by simp, hsound.reply⟩ rfl rfl rfl
    { hconn with } ?_
  refine h.ties.hand hq hk rfl rfl hnumber rfl (fun _ _ _ => Iff.rfl) ?_ ?_ ?_ ?_ le_rfl
  · intro n'
    exact iff_of_false (hnone n') (by simp)
  · intro n' r' hne
    simp [hreader, Ne.symm hne]
  · intro n'
    simp
  · intro n' r' ha
    cases ha
    exact .inr ⟨rfl, hnumber⟩

theorem Inv.readerDelivers (hreader : k.reader = .answers n r) (hq : s.requests r = some q) (x : Reader)
    (hx : x = .receiving ∨ x = .ended) (reply : Option Reply)
    (hreply : reply = q.reply ∨ reply = some (.answered c n) ∨ reply = some .failed) :
    Inv ((s.setConn c { k with reader := x }).setRequest r { q with reply := reply }) := by
  have hsound := h.sound r q hq
  obtain ⟨d, hd, hnumber⟩ := h.ties.answers r c n ⟨k, hk, hreader⟩
  rw [hq] at hd
  cases hd
  have hnd := hsound.phase.not_dials (.inr (by simp [hnumber]))
  have hconn := h.conns c k hk
  refine h.exchange { q with reply := reply } { k with reader := x } hq hk Iff.rfl rfl rfl hnd hnd
    { hsound with reply := ?_ } rfl rfl rfl { hconn with } ?_
  · intro c' n' hr
    rcases hreply with rfl | rfl | rfl
    · exact hsound.reply c' n' hr
    · cases hr
      exact hnumber
    · cases hr
  · refine h.ties.set hq hk rfl rfl (.of (fun _ _ => .rfl) ?_ ?_ le_rfl) (.of (.inl rfl) rfl)
    · intro n' r'
      rcases hx with rfl | rfl <;> simp [hreader]
    · intro n' r' ha
      rcases hx with rfl | rfl <;> cases ha

theorem Inv.readerEnds (hreader : k.reader = .receiving) :
    Inv (s.setConn c { k with reader := .ended }) := by
  have hconn := h.conns c k hk
  refine h.conn hk rfl rfl rfl rfl rfl rfl (List.Sublist.refl _) rfl rfl rfl rfl
    { hconn with } (.of (fun _ _ => .rfl) (by simp [hreader]) (by simp) le_rfl)

theorem Inv.fails (hlive : k.stage = .live) :
    Inv (s.setConn c { k with stage := .failed k.pending, pending := [] }) := by
  have hconn := h.conns c k hk
  have hsame : Conn.entries { k with stage := .failed k.pending, pending := [] } = k.entries := by
    simp [Conn.entries, hlive, Stage.left]
  refine h.keeps hk _ rfl rfl rfl rfl ⟨?_, ?_, .inr rfl⟩ (fun _ _ => by rw [hsame]) le_rfl
  · rw [hsame]
    exact hconn.nodup
  · rw [hsame]
    exact hconn.bound

theorem Inv.removes (hstage : k.stage = .failed left) :
    Inv { s.setConn c { k with stage := .removed left } with conns := s.conns.filter (· ≠ c) } := by
  have hconn := h.conns c k hk
  have hsame : Conn.entries { k with stage := .removed left } = k.entries := by
    simp [Conn.entries, hstage, Stage.left]
  have hpending : k.pending = [] := by simpa [hstage] using hconn.stage
  refine h.conn hk rfl rfl rfl rfl rfl rfl filter_sublist rfl rfl rfl rfl
    ⟨?_, ?_, .inr hpending⟩ (.of_eq hsame rfl le_rfl)
  · rw [hsame]
    exact hconn.nodup
  · rw [hsame]
    exact hconn.bound

theorem Inv.failPasses (hstage : k.stage = .removed ((n, .ping) :: left)) :
    Inv (s.setConn c { k with stage := .removed left }) := by
  have hconn := h.conns c k hk
  have hpending : k.pending = [] := by simpa [hstage] using hconn.stage
  have hbefore : k.entries = (n, .ping) :: left := by simp [Conn.entries, hstage, hpending, Stage.left]
  have hafter : Conn.entries { k with stage := .removed left } = left := by
    simp [Conn.entries, hpending, Stage.left]
  refine h.keeps hk _ rfl rfl rfl rfl ⟨?_, ?_, .inr hpending⟩ ?_ le_rfl
  · rw [hafter]
    exact (nodup_cons.mp (hbefore ▸ hconn.nodup)).2
  · rw [hafter]
    intro e he
    exact hconn.bound e (by rw [hbefore]; exact mem_cons_of_mem _ he)
  · intro n' r
    rw [hafter, hbefore]
    simp

theorem Inv.failReleases (hstage : k.stage = .removed ((n, .request r) :: left))
    (hq : s.requests r = some q) :
    Inv (s.release c { k with stage := .removed left } r { q with reply := some .failed }) := by
  have hsound := h.sound r q hq
  have hconn := h.conns c k hk
  have hpending : k.pending = [] := by simpa [hstage] using hconn.stage
  have hbefore : k.entries = (n, .request r) :: left := by
    simp [Conn.entries, hstage, hpending, Stage.left]
  have hafter : Conn.entries { k with stage := .removed left } = left := by
    simp [Conn.entries, hpending, Stage.left]
  obtain ⟨d, hd, hcustody, hnumber, hslot, honly⟩ :=
    h.at_entry (n := n) (r := r) hk (by rw [hbefore]; exact mem_cons_self)
  rw [hq] at hd
  cases hd
  have hnodup := nodup_cons.mp (hbefore ▸ hconn.nodup)
  have hgiven : q.given = 0 := by simpa [hcustody] using hsound.given
  have hnd := hsound.phase.not_dials (.inl (by simp [hcustody]))
  have hin : Request.InPhase
      { q with reply := some .failed, custody := .returned, given := q.given + 1 } :=
    hsound.phase.pass (by simp [hcustody]) (by simp [hnumber]) (by simp) rfl rfl rfl
  have htook := h.not_took hq hk (by rw [hcustody]; rintro ⟨⟩)
  refine h.release { q with reply := some .failed } { k with stage := .removed left } hq hk
    (by rw [hcustody]; trivial) hslot rfl rfl hnd hnd ⟨hin, by simp [hgiven], by simp, by simp⟩ rfl rfl rfl
    ⟨?_, ?_, .inr hpending⟩ ?_
  · rw [hafter]
    exact hnodup.2
  · rw [hafter]
    intro e he
    exact hconn.bound e (by rw [hbefore]; exact mem_cons_of_mem _ he)
  · have hmoved : ∀ x, Conn.entries { k with stage := .removed left, inflight := x } = left :=
      fun _ => hafter
    refine h.ties.hand hq hk rfl rfl hnumber rfl ?_ ?_ (fun _ _ _ => Iff.rfl) ?_ (fun _ _ ha => .inl ha) le_rfl
    · intro n' r' hne
      rw [hmoved, hbefore]
      simp [hne]
    · intro n'
      refine iff_of_false ?_ (by simp)
      rw [hmoved]
      intro he
      obtain rfl := honly n' (by rw [hbefore]; exact mem_cons_of_mem _ he)
      exact hnodup.1 he
    · intro n'
      simp [htook]

end

end

end Sproutfs.Peer

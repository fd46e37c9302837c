import Sproutfs.Peer.Pool

/-!
# What a pool, its connections and its requests say of each other

The counts of the pool are tallies over the requests; a request that a connection or its reader has in
hand is in that connection's table or with that reader, under its own number; and each request's phase
says who is to give back what it holds.
-/

namespace Sproutfs.Peer

open Machine Function Tally

/-! ## Tallies -/

def weight : Option Request → Int
  | some q => if q.custody.Holds then q.bytes else 0
  | none => 0

/-- The request has a slot on the connection. -/
def onConn (c : Nat) : Option Request → Int
  | some q => if q.custody.Holds ∧ q.slot = some c then 1 else 0
  | none => 0

def dialCount : Option Request → Int
  | some q => if q.phase.Dials then 1 else 0
  | none => 0

structure Counts (s : Pool) : Prop where
  held : s.held = tally weight s.requests s.next
  inflight : ∀ c k, s.table c = some k → k.inflight = tally (onConn c) s.requests s.next
  dialing : (s.dialing : Int) = tally dialCount s.requests s.next
  fresh : ∀ r, s.next ≤ r → s.requests r = none

/-! ## Requests and connections -/

/-- What a request's phase says of it. -/
@[simp]
def Phase.Says (q : Request) : Phase → Prop
  | .acquiring | .waiting => q.custody = .nobody ∧ q.slot = none ∧ q.number = none
  | .helloed n => 0 < n ∧ q.custody = .caller ∧ q.slot = none ∧ q.number = none
  | .dialing | .dialErr | .dialed _ | .dialFailed =>
    q.custody = .caller ∧ q.slot = none ∧ q.number = none
  | .ready c => q.custody = .caller ∧ q.slot = some c ∧ q.number = none
  | .sending c n => q.custody = .caller ∧ q.slot = some c ∧ q.number = some (c, n)
  | .refused c | .leaving c => q.custody = .caller ∧ q.slot = some c
  | .sent c n | .sendFailed c n | .awaiting c n =>
    q.custody ≠ .caller ∧ q.slot = some c ∧ q.number = some (c, n)
  | .draining | .done _ => q.custody ≠ .caller

@[simp]
def Request.InPhase (q : Request) : Prop := q.phase.Says q

structure Request.Sound (q : Request) : Prop where
  phase : q.InPhase
  given : q.given = if q.custody = .returned then 1 else 0
  slot : q.custody = .conn ∨ q.custody = .reader → ∃ c n, q.number = some (c, n) ∧ q.slot = some c
  reply : ∀ c n, q.reply = some (.answered c n) → q.number = some (c, n)

structure Conn.Sound (k : Conn) : Prop where
  nodup : k.entries.Nodup
  bound : ∀ e ∈ k.entries, e.1 ≤ k.next
  stage : k.stage = .live ∨ k.pending = []

namespace Pool

/-- The connection has the request under the number. -/
def At (s : Pool) (r c n : Nat) : Prop := ∃ k, s.table c = some k ∧ (n, .request r) ∈ k.entries

/-- The connection's reader has the request under the number. -/
def Took (s : Pool) (r c n : Nat) : Prop := ∃ k, s.table c = some k ∧ k.reader = .took n r

def Answers (s : Pool) (r c n : Nat) : Prop := ∃ k, s.table c = some k ∧ k.reader = .answers n r

/-- The request is in the custody under the number. -/
def In (s : Pool) (x : Custody) (r c n : Nat) : Prop :=
  ∃ q, s.requests r = some q ∧ q.custody = x ∧ q.number = some (c, n)

def Numbered (s : Pool) (r : Nat) (x : Nat × Nat) : Prop := ∃ q, s.requests r = some q ∧ q.number = some x

/-- The connection is in the table, put in the pool or not. -/
def Put (s : Pool) (c : Nat) (put : Bool) : Prop := ∃ k, s.table c = some k ∧ k.put = put

end Pool

structure Ties (s : Pool) : Prop where
  conn : ∀ r c n, s.At r c n ↔ s.In .conn r c n
  reader : ∀ r c n, s.Took r c n ↔ s.In .reader r c n
  answers : ∀ r c n, s.Answers r c n → ∃ q, s.requests r = some q ∧ q.number = some (c, n)
  number : ∀ r q c n, s.requests r = some q → q.number = some (c, n) →
    ∃ k, s.table c = some k ∧ n ≤ k.next
  unique : ∀ r r' q q' x, s.requests r = some q → s.requests r' = some q' →
    q.number = some x → q'.number = some x → r = r'

/-- Connections in the pool were put there; a connection that was not is its dialer's alone. -/
structure Dials (s : Pool) : Prop where
  pool : ∀ c ∈ s.conns, ∃ k, s.table c = some k ∧ k.put = true
  slot : ∀ r q c, s.requests r = some q → q.slot = some c → ∃ k, s.table c = some k ∧ k.put = true
  dialed : ∀ r q c, s.requests r = some q → q.phase = .dialed c →
    ∃ k, s.table c = some k ∧ k.put = false
  dialer : ∀ r r' q q' c, s.requests r = some q → s.requests r' = some q' →
    q.phase = .dialed c → q'.phase = .dialed c → r = r'
  fresh : ∀ c, s.nextConn ≤ c → s.table c = none

structure Inv (s : Pool) : Prop where
  counts : Counts s
  sound : ∀ r q, s.requests r = some q → q.Sound
  conns : ∀ c k, s.table c = some k → k.Sound
  ties : Ties s
  dials : Dials s
  limit : s.conns.length + s.dialing ≤ s.limit
  room : ∀ c k, s.table c = some k → k.inflight ≤ k.maxInFlight ∧ 0 < k.maxInFlight

/-! ## One request and one connection change -/

variable {s s' : Pool} {r c : Nat} {q q' : Request} {k k' : Conn}

theorem Request.Sound.at {p : Phase} (h : q.Sound) (hp : q.phase = p) : p.Says q := hp ▸ h.phase

theorem same_count (x y : Int) : x = x + (y - y) := by
  omega

theorem dialCount_dials (h : q.phase.Dials) : dialCount (some q) = 1 := if_pos h

theorem dialCount_not (h : ¬q.phase.Dials) : dialCount (some q) = 0 := if_neg h

theorem Counts.lt_next (h : Counts s) (hq : s.requests r = some q) : r < s.next := by
  by_contra hge
  rw [h.fresh r (by omega)] at hq
  cases hq

theorem Counts.change (h : Counts s) (hq : s.requests r = some q)
    (hreq : s'.requests = update s.requests r (some q')) (hnext : s'.next = s.next)
    (hheld : s'.held = s.held + (weight (some q') - weight (some q)))
    (hdialing : (s'.dialing : Int) = s.dialing + (dialCount (some q') - dialCount (some q)))
    (hconns : ∀ c k, s'.table c = some k → k.inflight = tally (onConn c) s.requests s.next +
      (onConn c (some q') - onConn c (some q))) : Counts s' := by
  have hlt := h.lt_next hq
  refine ⟨?_, ?_, ?_, ?_⟩
  · rw [hheld, hreq, hnext, tally_update hlt, hq, h.held]
  · intro c k hk
    rw [hconns c k hk, hreq, hnext, tally_update hlt, hq]
  · rw [hdialing, hreq, hnext, tally_update hlt, hq, h.dialing]
  · intro r' hr'
    rw [hnext] at hr'
    rw [hreq, update_of_ne (by omega)]
    exact h.fresh r' hr'

theorem Counts.conn (h : Counts s) (hk : s.table c = some k)
    (htab : s'.table = update s.table c (some k')) (hreq : s'.requests = s.requests)
    (hnext : s'.next = s.next) (hheld : s'.held = s.held) (hdialing : s'.dialing = s.dialing)
    (hinf : k'.inflight = k.inflight) : Counts s' := by
  refine ⟨?_, ?_, ?_, ?_⟩
  · rw [hheld, hreq, hnext]
    exact h.held
  · intro c' m hm
    rw [htab] at hm
    rw [hreq, hnext]
    rcases update_some hm with ⟨rfl, rfl⟩ | ⟨-, hm⟩
    · rw [hinf]
      exact h.inflight _ k hk
    · exact h.inflight c' m hm
  · rw [hdialing, hreq, hnext]
    exact h.dialing
  · rw [hreq, hnext]
    exact h.fresh

/-- No request but one changes, and no connection but one. -/
structure Off (s s' : Pool) (r c : Nat) : Prop where
  request : ∀ j, j ≠ r → s'.requests j = s.requests j
  conn : ∀ d, d ≠ c → s'.table d = s.table d

theorem Off.set {x : Option Request} {y : Option Conn} (hreq : s'.requests = update s.requests r x)
    (htab : s'.table = update s.table c y) : Off s s' r c :=
  ⟨fun j hj => by rw [hreq, update_of_ne hj], fun d hd => by rw [htab, update_of_ne hd]⟩

/-- One kind of tie: of others it says what it said, and so it does of other connections. -/
theorem tie_moves {E : Conn → Nat → Nat → Prop} {x : Custody} (ho : Off s s' r c)
    (h : ∀ r c n, (∃ m, s.table c = some m ∧ E m n r) ↔ s.In x r c n)
    (hothers : ∀ n j, j ≠ r → ((∃ m, s'.table c = some m ∧ E m n j) ↔ ∃ m, s.table c = some m ∧ E m n j))
    (haway : ∀ d n, d ≠ c → (s'.In x r d n ↔ s.In x r d n))
    (hown : ∀ n, (∃ m, s'.table c = some m ∧ E m n r) ↔ s'.In x r c n) (j d n : Nat) :
    (∃ m, s'.table d = some m ∧ E m n j) ↔ s'.In x j d n := by
  have hin : j ≠ r → (s'.In x j d n ↔ s.In x j d n) := fun hj => by simp only [Pool.In, ho.request j hj]
  by_cases hd : d = c
  · subst hd
    by_cases hj : j = r
    · subst hj
      exact hown n
    · rw [hothers n j hj, h, hin hj]
  · rw [ho.conn d hd, h]
    by_cases hj : j = r
    · subst hj
      exact (haway d n hd).symm
    · exact (hin hj).symm

theorem Ties.moves (h : Ties s) (ho : Off s s' r c) (hconn : ∀ r c n, s'.At r c n ↔ s'.In .conn r c n)
    (hreader : ∀ r c n, s'.Took r c n ↔ s'.In .reader r c n)
    (hanswers : ∀ j n, s'.Answers j c n → s.Numbered j (c, n)) (hkeep : ∀ x, s.Numbered r x → s'.Numbered r x)
    (hnew : ∀ x, s'.Numbered r x → s.Numbered r x ∨ x.1 = c ∧
      (∃ m, s'.table c = some m ∧ x.2 ≤ m.next) ∧ ∀ j, ¬s.Numbered j x)
    (hnext : ∀ m, s.table c = some m → ∃ m', s'.table c = some m' ∧ m.next ≤ m'.next) : Ties s' := by
  have hothers : ∀ j x, j ≠ r → (s'.Numbered j x ↔ s.Numbered j x) := fun j x hj => by
    simp only [Pool.Numbered, ho.request j hj]
  -- every number is one of before, or the one given
  have hold : ∀ j x, s'.Numbered j x → s.Numbered j x ∨ j = r ∧ x.1 = c ∧
      (∃ m, s'.table c = some m ∧ x.2 ≤ m.next) ∧ ∀ j, ¬s.Numbered j x := by
    intro j x hx
    by_cases hj : j = r
    · subst hj
      exact (hnew x hx).imp_right (⟨rfl, ·⟩)
    · exact .inl ((hothers j x hj).mp hx)
  refine ⟨hconn, hreader, fun j d n ha => ?_, fun j p d n hp hn => ?_, fun i j p p' x hi hj hxi hxj => ?_⟩
  · have hnum : s.Numbered j (d, n) := by
      by_cases hd : d = c
      · subst hd
        exact hanswers j n ha
      · exact h.answers j d n (by simpa only [Pool.Answers, ho.conn d hd] using ha)
    by_cases hj : j = r
    · subst hj
      exact hkeep _ hnum
    · exact (hothers j _ hj).mpr hnum
  · rcases hold j (d, n) ⟨p, hp, hn⟩ with ⟨p₀, hp₀, hn₀⟩ | ⟨-, rfl, hm, -⟩
    · obtain ⟨m, hm, hle⟩ := h.number j p₀ d n hp₀ hn₀
      by_cases hd : d = c
      · subst hd
        obtain ⟨m', hm', hle'⟩ := hnext m hm
        exact ⟨m', hm', hle.trans hle'⟩
      · exact ⟨m, (ho.conn d hd).trans hm, hle⟩
    · exact hm
  · rcases hold i x ⟨p, hi, hxi⟩ with ⟨p₀, hi', hx₀⟩ | ⟨rfl, -, -, hno⟩
    · rcases hold j x ⟨p', hj, hxj⟩ with ⟨p₁, hj', hx₁⟩ | ⟨rfl, -, -, hno⟩
      · exact h.unique i j p₀ p₁ x hi' hj' hx₀ hx₁
      · exact absurd ⟨p₀, hi', hx₀⟩ (hno i)
    · rcases hold j x ⟨p', hj, hxj⟩ with hj' | ⟨rfl, -⟩
      · exact absurd hj' (hno j)
      · rfl

/-- A connection has of the requests what it had. -/
structure Conn.Alike (k k' : Option Conn) : Prop where
  entries : ∀ n r, (∃ m, k' = some m ∧ (n, .request r) ∈ m.entries) ↔
    ∃ m, k = some m ∧ (n, .request r) ∈ m.entries
  reader : ∀ n r, (∃ m, k' = some m ∧ m.reader = .took n r) ↔ ∃ m, k = some m ∧ m.reader = .took n r
  answers : ∀ n r, (∃ m, k' = some m ∧ m.reader = .answers n r) → ∃ m, k = some m ∧ m.reader = .answers n r
  next : ∀ m, k = some m → ∃ m', k' = some m' ∧ m.next ≤ m'.next

theorem Conn.Alike.refl (k : Option Conn) : Alike k k :=
  ⟨fun _ _ => .rfl, fun _ _ => .rfl, fun _ _ => id, fun m hm => ⟨m, hm, le_rfl⟩⟩

theorem Conn.Alike.of (hentries : ∀ n r, (n, .request r) ∈ k'.entries ↔ (n, .request r) ∈ k.entries)
    (hreader : ∀ n r, k'.reader = .took n r ↔ k.reader = .took n r)
    (hanswers : ∀ n r, k'.reader = .answers n r → k.reader = .answers n r) (hnext : k.next ≤ k'.next) :
    Alike (some k) (some k') :=
  ⟨by simpa using hentries, by simpa using hreader, by simpa using hanswers, by simpa using hnext⟩

theorem Conn.Alike.of_eq (hentries : k'.entries = k.entries) (hreader : k'.reader = k.reader)
    (hnext : k.next ≤ k'.next) : Alike (some k) (some k') :=
  .of (fun _ _ => by rw [hentries]) (fun _ _ => by rw [hreader]) (fun _ _ ha => hreader ▸ ha) hnext

/-- No connection or reader is handed the request, nor hands it back. -/
structure Request.Alike (q q' : Option Request) : Prop where
  within : ∀ x, x = .conn ∨ x = .reader → ∀ y, (∃ d, q' = some d ∧ d.custody = x ∧ d.number = some y) ↔
    ∃ d, q = some d ∧ d.custody = x ∧ d.number = some y
  number : ∀ y, (∃ d, q' = some d ∧ d.number = some y) ↔ ∃ d, q = some d ∧ d.number = some y

theorem Request.Alike.of
    (hcustody : q'.custody = q.custody ∨ ∀ x, x = .conn ∨ x = .reader → q.custody ≠ x ∧ q'.custody ≠ x)
    (hnumber : q'.number = q.number) : Alike (some q) (some q') := by
  refine ⟨fun x hx y => ?_, fun y => by simp [hnumber]⟩
  rcases hcustody with heq | hne
  · simp [heq, hnumber]
  · simp [hne x hx]

/-- The ties where a request and a connection change and neither hands the other anything. -/
theorem Ties.still (h : Ties s) (ho : Off s s' r c) (hk : Conn.Alike (s.table c) (s'.table c))
    (hin : ∀ x, x = .conn ∨ x = .reader → ∀ d n, s'.In x r d n ↔ s.In x r d n)
    (hkeep : ∀ x, s.Numbered r x → s'.Numbered r x)
    (hnew : ∀ x, s'.Numbered r x → s.Numbered r x ∨ x.1 = c ∧
      (∃ m, s'.table c = some m ∧ x.2 ≤ m.next) ∧ ∀ j, ¬s.Numbered j x) : Ties s' := by
  have htie : ∀ (E : Conn → Nat → Nat → Prop) x, x = .conn ∨ x = .reader →
      (∀ n j, (∃ m, s'.table c = some m ∧ E m n j) ↔ ∃ m, s.table c = some m ∧ E m n j) →
      (∀ r c n, (∃ m, s.table c = some m ∧ E m n r) ↔ s.In x r c n) →
      ∀ r c n, (∃ m, s'.table c = some m ∧ E m n r) ↔ s'.In x r c n := fun E x hx hE hold =>
    tie_moves ho hold (fun n j _ => hE n j) (fun d n _ => hin x hx d n) fun n =>
      (hE n r).trans ((hold r c n).trans (hin x hx c n).symm)
  exact h.moves ho (htie _ _ (.inl rfl) hk.entries h.conn) (htie _ _ (.inr rfl) hk.reader h.reader)
    (fun j n ha => h.answers j c n (hk.answers n j ha)) hkeep hnew hk.next

theorem Ties.both (h : Ties s) (ho : Off s s' r c) (hk : Conn.Alike (s.table c) (s'.table c))
    (hq : Request.Alike (s.requests r) (s'.requests r)) : Ties s' :=
  h.still ho hk (fun x hx d n => hq.within x hx (d, n)) (fun x => (hq.number x).mpr)
    fun x hx => .inl ((hq.number x).mp hx)

/-- The ties where a request is handed to or from a connection it is numbered on. -/
theorem Ties.hand {n₀ : Nat} (h : Ties s) (hq : s.requests r = some q) (hk : s.table c = some k)
    (hreq : s'.requests = update s.requests r (some q'))
    (htab : s'.table = update s.table c (some k')) (hn : q.number = some (c, n₀))
    (hnumber : q'.number = q.number)
    (hentries : ∀ n r', r' ≠ r → ((n, .request r') ∈ k'.entries ↔ (n, .request r') ∈ k.entries))
    (hown : ∀ n, (n, .request r) ∈ k'.entries ↔ q'.custody = .conn ∧ q'.number = some (c, n))
    (hreader : ∀ n r', r' ≠ r → (k'.reader = .took n r' ↔ k.reader = .took n r'))
    (htook : ∀ n, k'.reader = .took n r ↔ q'.custody = .reader ∧ q'.number = some (c, n))
    (hanswers : ∀ n r', k'.reader = .answers n r' →
      k.reader = .answers n r' ∨ r' = r ∧ q.number = some (c, n))
    (hnext : k.next ≤ k'.next) : Ties s' := by
  have ho : Off s s' r c := .set hreq htab
  have hk' : s'.table c = some k' := by rw [htab, update_self]
  have hq' : s'.requests r = some q' := by rw [hreq, update_self]
  -- of its own the request has entries on this connection only
  have haway : ∀ x d n, d ≠ c → (s'.In x r d n ↔ s.In x r d n) := fun x d n hd => by
    simp [Pool.In, hq, hq', hnumber, hn, Ne.symm hd]
  have hnum : ∀ x, s'.Numbered r x ↔ s.Numbered r x := fun x => by simp [Pool.Numbered, hq, hq', hnumber]
  refine h.moves ho (tie_moves ho h.conn ?_ (haway _) ?_) (tie_moves ho h.reader ?_ (haway _) ?_) ?_
    (fun x => (hnum x).mpr) (fun x hx => .inl ((hnum x).mp hx)) ?_
  · simpa [hk, hk'] using hentries
  · simpa [Pool.In, hk', hq'] using hown
  · simpa [hk, hk'] using hreader
  · simpa [Pool.In, hk', hq'] using htook
  · rintro j n ⟨m, hm, ha⟩
    obtain rfl : k' = m := by simpa [hk'] using hm
    rcases hanswers n j ha with hsame | ⟨rfl, hx⟩
    · exact h.answers j c n ⟨k, hk, hsame⟩
    · exact ⟨q, hq, hx⟩
  · rintro m hm
    obtain rfl : k = m := by simpa [hk] using hm
    exact ⟨k', hk', hnext⟩

theorem Dials.moves (h : Dials s) (ho : Off s s' r c)
    (hput : ∀ b, s.Put c b → s'.Put c b ∨ b = false ∧ ∀ j q, s'.requests j = some q → q.phase ≠ .dialed c)
    (hconns : ∀ d ∈ s'.conns, d ∈ s.conns ∨ d = c ∧ s'.Put c true)
    (hslot : ∀ q d, s'.requests r = some q → q.slot = some d → s.Put d true ∨ d = c ∧ s'.Put c true)
    (hphase : ∀ q d, s'.requests r = some q → q.phase = .dialed d → s.requests r = some q ∨
      d = c ∧ s'.Put c false ∧ ∀ j q, s.requests j = some q → q.phase ≠ .dialed c)
    (hfresh : ∀ d, s'.nextConn ≤ d → s'.table d = none) : Dials s' := by
  have hold : ∀ d b, s.Put d b →
      s'.Put d b ∨ b = false ∧ ∀ j q, s'.requests j = some q → q.phase ≠ .dialed d := by
    intro d b hd
    by_cases hc : d = c
    · subst hc
      exact hput b hd
    · exact .inl (by simpa only [Pool.Put, ho.conn d hc] using hd)
  have htrue : ∀ d, s.Put d true → s'.Put d true := fun d hd => (hold d true hd).resolve_right (by simp)
  -- a request dialed its connection before, or dials now the one no other did
  have hdial : ∀ j q d, s'.requests j = some q → q.phase = .dialed d → s.requests j = some q ∨
      j = r ∧ d = c ∧ s'.Put c false ∧ ∀ j q, s.requests j = some q → q.phase ≠ .dialed c := by
    intro j q d hq hp
    by_cases hj : j = r
    · subst hj
      exact (hphase q d hq hp).imp_right (⟨rfl, ·⟩)
    · exact .inl (ho.request j hj ▸ hq)
  refine ⟨fun d hd => ?_, fun j q d hq hs => ?_, fun j q d hq hp => ?_, fun i j p q d hi hj hp hq => ?_, hfresh⟩
  · rcases hconns d hd with hd | ⟨rfl, hput⟩
    · exact htrue d (h.pool d hd)
    · exact hput
  · by_cases hj : j = r
    · subst hj
      rcases hslot q d hq hs with hd | ⟨rfl, hput⟩
      · exact htrue d hd
      · exact hput
    · exact htrue d (h.slot j q d (ho.request j hj ▸ hq) hs)
  · rcases hdial j q d hq hp with hq' | ⟨-, rfl, hput, -⟩
    · exact (hold d false (h.dialed j q d hq' hp)).resolve_right fun hno => hno.2 j q hq hp
    · exact hput
  · rcases hdial i p d hi hp with hi' | ⟨rfl, rfl, -, hno⟩
    · rcases hdial j q d hj hq with hj' | ⟨-, rfl, -, hno⟩
      · exact h.dialer i j p q d hi' hj' hp hq
      · exact absurd hp (hno i p hi')
    · rcases hdial j q _ hj hq with hj' | ⟨rfl, -⟩
      · exact absurd hq (hno j q hj')
      · rfl

/-- The dials where the pool's connections stay. -/
theorem Dials.both (h : Dials s) (ho : Off s s' r c) (hput : ∀ b, s.Put c b → s'.Put c b)
    (hnone : s.table c = none → s'.table c = none) (hconns : ∀ d ∈ s'.conns, d ∈ s.conns)
    (hnextConn : s'.nextConn = s.nextConn)
    (hslot : ∀ q d, s'.requests r = some q → q.slot = some d → s.Put d true)
    (hphase : ∀ q d, s'.requests r = some q → q.phase = .dialed d → s.requests r = some q) : Dials s' := by
  refine h.moves ho (fun b hb => .inl (hput b hb)) (fun d hd => .inl (hconns d hd))
    (fun q d hq hs => .inl (hslot q d hq hs)) (fun q d hq hp => .inl (hphase q d hq hp)) fun d hd => ?_
  have hfresh := h.fresh d (hnextConn ▸ hd)
  by_cases hc : d = c
  · subst hc
    exact hnone hfresh
  · exact (ho.conn d hc).trans hfresh

end Sproutfs.Peer

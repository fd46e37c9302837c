import Sproutfs.Framer.Stream

/-!
# Frames are received as they were sent

As long as a receive is cancelled only before it took a byte of its frame, the frames received are the
first of those sent, in order, and once a frame was left half read no receive returns another. A receive
that is cancelled further on leaves the connection open, and the next one reads from inside the frame.
-/

namespace Sproutfs.Framer

open Machine List Option ByteCodec

/-! ## The prefix -/

@[simp] theorem length_be (w n : Nat) : (be w n).length = w := by
  simp [be]

variable {n size payload remaining : Nat} {got : Bytes} {f : Frame}

theorem fromBE_be {w : Nat} (h : n < 256 ^ w) : fromBE (be w n) = n := by
  rw [fromBE, be, reverse_reverse, fromLE_le_of_lt h]

@[simp] theorem length_framePrefix (f : Frame) : (framePrefix f).length = prefixSize := by
  simp [framePrefix, frameMagic, prefixSize]

theorem parsePrefix_framePrefix (hh : f.header.length < 2 ^ 32) (hp : f.payload.length < 2 ^ 63) :
    parsePrefix (framePrefix f) = some (f.header.length, f.payload.length) := by
  have hmagic : slice (framePrefix f) 0 4 = frameMagic := rfl
  have hversion : slice (framePrefix f) 4 2 = be 2 1 := rfl
  have hheader : slice (framePrefix f) 8 4 = be 4 f.header.length := by
    simp [framePrefix, slice, frameMagic, be, le]
  have hpayload : slice (framePrefix f) 12 8 = be 8 f.payload.length := by
    simp [framePrefix, slice, frameMagic, be, le]
  unfold parsePrefix
  rw [hmagic, hversion, hheader, hpayload, fromBE_be (by decide), fromBE_be hh,
    fromBE_be (Nat.lt_trans hp (by decide : 2 ^ 63 < 256 ^ 8))]
  simp

namespace Conn

variable {c : Config} {s s' : Conn}

/-! ## What is ahead -/

/-- What of the frames sent the receiver has not taken off the stream. -/
def ahead (s : Conn) : Bytes := s.stream ++ (s.sending.getD [] ++ s.lost)

/-- The bytes of the frames sent from the `n`th on. -/
def left (s : Conn) (n : Nat) : Bytes := (s.sent.drop n).flatMap encode

/-- A frame as it was received of one as it was sent. -/
structure Matches (r : Received) (f : Frame) : Prop where
  header : r.header = f.header
  size : r.size = f.payload.length
  got : r.got <+: f.payload
  ended : r.payload = .ended → r.got = f.payload

/-- The receiver stands where its frames say. -/
structure Inv (c : Config) (s : Conn) : Prop where
  limits : ∀ f ∈ s.sent, f.header.length ≤ c.sender.header ∧ f.payload.length ≤ c.sender.payload
  lost : s.lost = [] ∨ s.sendClosed = true ∧ s.sending = none
  frames : ∀ i r, s.received[i]? = some r → ∃ f, s.sent[i]? = some f ∧ Matches r f ∧
    (r.payload = .reading → i + 1 = s.received.length ∧ ∃ n b, s.reader = .body n b)
  free : s.reader = .free → if s.half then s.closed = true else s.ahead = s.left s.received.length
  head : ∀ got, s.reader = .head got → s.half = false ∧ got ++ s.ahead = s.left s.received.length
  headed : ∀ size payload got, s.reader = .header size payload got → s.half = false ∧
    ∃ f, s.sent[s.received.length]? = some f ∧ size = f.header.length ∧ payload = f.payload.length ∧
      got ++ s.ahead = f.header ++ (f.payload ++ s.left (s.received.length + 1))
  body : ∀ remaining cancelled, s.reader = .body remaining cancelled → s.half = cancelled ∧
    0 < remaining ∧ ∃ f r, 0 < s.received.length ∧ s.sent[s.received.length - 1]? = some f ∧
      s.received[s.received.length - 1]? = some r ∧ r.got.length + remaining = f.payload.length ∧
      s.ahead = f.payload.drop r.got.length ++ s.left s.received.length

theorem Inv.received_le (h : Inv c s) : s.received.length ≤ s.sent.length := by
  by_contra hlt
  have hi : s.received[s.sent.length]? = some s.received[s.sent.length] := getElem?_eq_getElem (by omega)
  obtain ⟨f, hf, -⟩ := h.frames _ _ hi
  rw [getElem?_eq_none (Nat.le_refl _)] at hf
  cases hf

theorem left_eq (h : s.sent[n]? = some f) : s.left n = encode f ++ s.left (n + 1) := by
  obtain ⟨hn, rfl⟩ := List.getElem?_eq_some_iff.mp h
  unfold left
  rw [drop_eq_getElem_cons hn, flatMap_cons]

theorem left_append (hn : n ≤ s.sent.length) (hs : s'.sent = s.sent ++ [f]) :
    s'.left n = s.left n ++ encode f := by
  unfold left
  rw [hs, drop_append_of_le_length hn, flatMap_append]
  simp

/-! ## The sender -/

theorem Inv.sender (h : Inv c s) {stream lost : Bytes} {sending : Option Bytes} {sendClosed : Bool}
    (ha : ahead { s with stream, sending, lost, sendClosed } = s.ahead)
    (hlost : lost = [] ∨ sendClosed = true ∧ sending = none) :
    Inv c { s with stream, sending, lost, sendClosed } := by
  refine ⟨h.limits, hlost, h.frames, ?_, ?_, ?_, ?_⟩ <;> rw [ha]
  · exact h.free
  · exact h.head
  · exact h.headed
  · exact h.body

theorem Inv.sends (h : Inv c s) (hidle : s.sending = none) (hopen : s.sendClosed = false)
    (hf : f.header.length ≤ c.sender.header ∧ f.payload.length ≤ c.sender.payload) :
    Inv c { s with sending := some (encode f), sent := s.sent ++ [f] } := by
  have hle := h.received_le
  have hlost : s.lost = [] := h.lost.resolve_right (by simp [hopen])
  have hahead : ahead { s with sending := some (encode f), sent := s.sent ++ [f] } = s.ahead ++ encode f := by
    simp [ahead, hidle, hlost]
  have hleft : ∀ n ≤ s.sent.length,
      left { s with sending := some (encode f), sent := s.sent ++ [f] } n = s.left n ++ encode f :=
    fun n hn => left_append hn rfl
  have hget : ∀ (i : Nat) (g : Frame), s.sent[i]? = some g → (s.sent ++ [f])[i]? = some g := by
    intro i g hg
    rw [List.getElem?_append_left (List.getElem?_eq_some_iff.mp hg).1, hg]
  constructor
  · intro g hg
    rcases mem_append.mp hg with hg | hg
    · exact h.limits g hg
    · cases mem_singleton.mp hg
      exact hf
  · exact .inl hlost
  · intro i r hr
    obtain ⟨g, hg, hm⟩ := h.frames i r hr
    exact ⟨g, hget i g hg, hm⟩
  · intro hr
    have hfree := h.free hr
    dsimp only
    split_ifs with hh
    · simpa [hh] using hfree
    · rw [hahead, hleft _ hle]
      simp only [hh] at hfree
      exact congrArg (· ++ encode f) hfree
  · intro got hr
    obtain ⟨hh, heq⟩ := h.head got hr
    refine ⟨hh, ?_⟩
    rw [hahead, hleft _ hle, ← heq, append_assoc]
  · intro size payload got hr
    obtain ⟨hh, g, hg, hsize, hpayload, heq⟩ := h.headed size payload got hr
    have hlt := (List.getElem?_eq_some_iff.mp hg).1
    refine ⟨hh, g, hget _ g hg, hsize, hpayload, ?_⟩
    rw [hahead, hleft _ hlt, ← append_assoc, heq]
    simp only [append_assoc]
  · intro remaining cancelled hr
    obtain ⟨hh, hpos, g, r, hlen, hg, hr', hrem, heq⟩ := h.body remaining cancelled hr
    refine ⟨hh, hpos, g, r, hlen, hget _ g hg, hr', hrem, ?_⟩
    rw [hahead, hleft _ hle, heq, append_assoc]

/-! ## The receiver -/

/-- What is ahead, cut where the receiver takes `n` bytes. -/
theorem ahead_cut (s : Conn) (n : Nat) :
    s.stream.take n ++ (s.stream.drop n ++ (s.sending.getD [] ++ s.lost)) = s.ahead := by
  unfold ahead
  rw [← append_assoc (s.stream.take n), take_append_drop]

section

variable (h : Inv c s)

include h

theorem Inv.begins (hfree : s.reader = .free) (hopen : s.closed = false) :
    Inv c { s with reader := .head [] } := by
  have hhalf := h.free hfree
  by_cases hh : s.half
  · simp [hh, hopen] at hhalf
  · rw [if_neg hh] at hhalf
    refine ⟨h.limits, h.lost, fun i r hr => ?_, nofun, fun got hr => ?_, nofun, nofun⟩
    · obtain ⟨f, hf, hm, hreading⟩ := h.frames i r hr
      refine ⟨f, hf, hm, fun hp => ?_⟩
      obtain ⟨-, n, b, hb⟩ := hreading hp
      rw [hfree] at hb
      cases hb
    · cases hr
      exact ⟨by simpa using hh, hhalf⟩

theorem Inv.frames_idle (hr : ∀ n b, s.reader ≠ .body n b) (reader : Reader) (i : Nat) (r : Received)
    (hi : s.received[i]? = some r) : ∃ f, s.sent[i]? = some f ∧ Matches r f ∧
      (r.payload = .reading → i + 1 = s.received.length ∧ ∃ n b, reader = .body n b) := by
  obtain ⟨f, hf, hm, hreading⟩ := h.frames i r hi
  refine ⟨f, hf, hm, fun hp => ?_⟩
  obtain ⟨-, n, b, hb⟩ := hreading hp
  exact absurd hb (hr n b)

theorem Inv.reads_head (n : Nat) (hr : s.reader = .head got) :
    Inv c { s with reader := .head (got ++ s.stream.take n), stream := s.stream.drop n } := by
  obtain ⟨hh, heq⟩ := h.head got hr
  refine ⟨h.limits, h.lost, h.frames_idle (by simp [hr]) _, nofun, fun got' hr' => ?_, nofun, nofun⟩
  cases hr'
  refine ⟨hh, (append_assoc ..).trans ?_⟩
  exact (congrArg (got ++ ·) (ahead_cut s n)).trans heq

theorem Inv.reads_header (n : Nat) (hr : s.reader = .header size payload got) :
    Inv c { s with reader := .header size payload (got ++ s.stream.take n), stream := s.stream.drop n } := by
  obtain ⟨hh, f, hf, hsize, hpayload, heq⟩ := h.headed size payload got hr
  refine ⟨h.limits, h.lost, h.frames_idle (by simp [hr]) _, nofun, nofun,
    fun size' payload' got' hr' => ?_, nofun⟩
  cases hr'
  refine ⟨hh, f, hf, hsize, hpayload, (append_assoc ..).trans ?_⟩
  exact (congrArg (got ++ ·) (ahead_cut s n)).trans heq

theorem Inv.head_eq (hr : s.reader = .head got) (hlen : got.length = prefixSize) :
    ∃ f, s.sent[s.received.length]? = some f ∧ got = framePrefix f ∧
      s.ahead = f.header ++ (f.payload ++ s.left (s.received.length + 1)) := by
  obtain ⟨-, heq⟩ := h.head got hr
  cases hf : s.sent[s.received.length]? with
  | none =>
    have hleft : s.left s.received.length = [] := by
      unfold left
      rw [drop_eq_nil_of_le (getElem?_eq_none_iff.mp hf), flatMap_nil]
    rw [hleft] at heq
    rw [(append_eq_nil_iff.mp heq).1] at hlen
    cases hlen
  | some f =>
    rw [left_eq hf, encode, append_assoc] at heq
    obtain ⟨hgot, hrest⟩ := append_inj heq (by rw [hlen, length_framePrefix])
    exact ⟨f, rfl, hgot, by rw [hrest, append_assoc]⟩

theorem Inv.completes_head (hr : s.reader = .head got) (hlen : got.length = prefixSize) :
    ∃ f, s.sent[s.received.length]? = some f ∧
      parsePrefix got = some (f.header.length, f.payload.length) ∧
      Inv c { s with reader := .header f.header.length f.payload.length [] } := by
  obtain ⟨f, hf, rfl, hahead⟩ := h.head_eq hr hlen
  obtain ⟨hhl, hpl⟩ := h.limits f (mem_of_getElem? hf)
  refine ⟨f, hf, parsePrefix_framePrefix (Nat.lt_of_le_of_lt hhl c.sender.header_lt)
    (Nat.lt_of_le_of_lt hpl c.sender.payload_lt), h.limits, h.lost, h.frames_idle (by simp [hr]) _,
    nofun, nofun, fun size payload got hr' => ?_, nofun⟩
  cases hr'
  exact ⟨(h.head _ hr).1, f, hf, rfl, rfl, hahead⟩

theorem Inv.refuses (hr : ∀ n b, s.reader ≠ .body n b) :
    Inv c { s with reader := .free, closed := true, half := true } := by
  refine ⟨h.limits, h.lost, h.frames_idle hr _, fun _ => ?_, nofun, nofun, nofun⟩
  rfl

theorem Inv.returns (hr : s.reader = .header size payload got) (hlen : got.length = size) :
    Inv c (s.returns got payload) := by
  obtain ⟨hh, f, hf, hsize, rfl, heq⟩ := h.headed size _ got hr
  obtain ⟨rfl, hahead⟩ := append_inj heq (hlen.trans hsize)
  have hm : Matches ⟨f.header, f.payload.length, [], if f.payload.length = 0 then .ended else .reading⟩ f := by
    refine ⟨rfl, rfl, nil_prefix, fun hend => ?_⟩
    split_ifs at hend with hzero
    exact (length_eq_zero_iff.mp hzero).symm
  have hlast : (s.returns f.header f.payload.length).received[s.received.length]? =
      some ⟨f.header, f.payload.length, [], if f.payload.length = 0 then .ended else .reading⟩ :=
    getElem?_concat_length
  constructor
  · exact h.limits
  · exact h.lost
  · intro i r hi
    by_cases hlt : i < s.received.length
    · rw [Conn.returns, getElem?_append_left hlt] at hi
      obtain ⟨g, hg, hmg, hreading⟩ := h.frames i r hi
      refine ⟨g, hg, hmg, fun hp => ?_⟩
      obtain ⟨-, n, b, hb⟩ := hreading hp
      rw [hr] at hb
      cases hb
    · have hi' : i = s.received.length := by
        have := (List.getElem?_eq_some_iff.mp hi).1
        simp only [Conn.returns, length_append, length_singleton] at this
        omega
      subst hi'
      cases hi.symm.trans hlast
      refine ⟨f, hf, hm, fun hp => ⟨by simp [Conn.returns], ?_⟩⟩
      split_ifs at hp with hzero
      exact ⟨_, _, if_neg hzero⟩
  · intro hfree
    have hzero : f.payload.length = 0 := by
      by_contra hne
      simp [Conn.returns, hne] at hfree
    have hnil := length_eq_zero_iff.mp hzero
    have : (s.returns f.header f.payload.length).half = false := hh
    rw [this]
    simpa [Conn.returns, ahead, left, hnil] using hahead
  · intro got hr'
    simp only [Conn.returns] at hr'
    split_ifs at hr'
  · intro size payload got hr'
    simp only [Conn.returns] at hr'
    split_ifs at hr'
  · intro remaining cancelled hr'
    simp only [Conn.returns] at hr'
    split_ifs at hr' with hzero
    cases hr'
    have hlen' : (s.returns f.header f.payload.length).received.length = s.received.length + 1 := by
      simp [Conn.returns]
    rw [hlen', Nat.add_sub_cancel]
    exact ⟨hh, by omega, f, _, by omega, hf, hlast, Nat.zero_add _, hahead⟩

end

/-! ## Bodies -/

theorem getElem?_setLast (f : Received → Received) (l : List Received) (i : Nat) :
    (setLast f l)[i]? = if i + 1 = l.length then l[i]?.map f else l[i]? := by
  unfold setLast
  rw [getElem?_modify]
  by_cases hi : i + 1 = l.length
  · simp [hi, show l.length - 1 = i by omega]
  · by_cases hi' : l.length - 1 = i
    · rw [getElem?_eq_none (by omega)]
      simp [hi]
    · simp [hi, hi']

@[simp] theorem length_setLast (f : Received → Received) (l : List Received) :
    (setLast f l).length = l.length := by
  simp [setLast]

theorem Inv.frames_last (h : Inv c s) {f : Received → Received} {reader : Reader}
    (hf : ∀ r g, s.received[s.received.length - 1]? = some r → s.sent[s.received.length - 1]? = some g →
      Matches r g → Matches (f r) g ∧ ((f r).payload = .reading → ∃ n b, reader = .body n b))
    (i : Nat) (r : Received) (hi : (setLast f s.received)[i]? = some r) :
    ∃ g, s.sent[i]? = some g ∧ Matches r g ∧ (r.payload = .reading →
      i + 1 = (setLast f s.received).length ∧ ∃ n b, reader = .body n b) := by
  rw [getElem?_setLast] at hi
  rw [length_setLast]
  split_ifs at hi with hlast
  · obtain ⟨r, hr, rfl⟩ := map_eq_some_iff.mp hi
    obtain ⟨g, hg, hm, -⟩ := h.frames i r hr
    have hsub : s.received.length - 1 = i := by omega
    obtain ⟨hm', hp⟩ := hf r g (by rw [hsub, hr]) (by rw [hsub, hg]) hm
    exact ⟨g, hg, hm', fun hread => ⟨hlast, hp hread⟩⟩
  · obtain ⟨g, hg, hm, hreading⟩ := h.frames i r hi
    exact ⟨g, hg, hm, fun hp => absurd (hreading hp).1 hlast⟩

theorem Inv.reads_body (h : Inv c s) (hr : s.reader = .body remaining false) (hn : n ≤ s.stream.length)
    (hle : n ≤ remaining) :
    Inv c { s with
      reader := if (n = remaining : Bool) then .free else .body (remaining - n) false
      stream := s.stream.drop n
      received := setLast (fun r => { r with
        got := r.got ++ s.stream.take n
        payload := if (n = remaining : Bool) then .ended else r.payload }) s.received } := by
  obtain ⟨hh, hpos, f, r, hlen, hf, hrec, hrem, heq⟩ := h.body remaining false hr
  -- the bytes taken are the payload's next
  have hcut : s.stream.take n = (f.payload.drop r.got.length).take n ∧
      ahead { s with stream := s.stream.drop n } =
        f.payload.drop (r.got.length + n) ++ s.left s.received.length := by
    have := (ahead_cut s n).trans heq
    rw [← take_append_drop n (f.payload.drop r.got.length), append_assoc, drop_drop] at this
    exact append_inj this (by simp; omega)
  have hgot : ∀ g, s.sent[s.received.length - 1]? = some g → Matches r g →
      r.got ++ s.stream.take n = f.payload.take (r.got.length + n) := by
    intro g hg hm
    cases hf.symm.trans hg
    rw [hcut.1, take_add]
    congr 1
    exact prefix_iff_eq_take.mp hm.got
  refine ⟨h.limits, h.lost, h.frames_last fun r' g hr' hg hm => ?_, fun hfree => ?_, fun got hr' => ?_,
    fun _ _ _ hr' => ?_, fun remaining' cancelled hr' => ?_⟩
  · cases hrec.symm.trans hr'
    have heq' := hgot g hg hm
    cases hf.symm.trans hg
    refine ⟨⟨hm.header, hm.size, ?_, fun hend => ?_⟩, fun hread => ?_⟩
    · dsimp only
      rw [heq']
      exact take_prefix _ _
    · dsimp only at hend ⊢
      split_ifs at hend with hall
      · rw [heq', take_of_length_le (by simp at hall; omega)]
      · have := hm.ended hend
        rw [this] at hrem
        omega
    · dsimp only at hread
      split_ifs at hread ⊢ with hall
      exact ⟨_, _, rfl⟩
  · split_ifs at hfree with hall
    simp only [decide_eq_true_eq] at hall
    have : s.half = false := hh
    rw [if_neg (by simp [this]), length_setLast]
    refine hcut.2.trans ?_
    rw [drop_of_length_le (by omega), nil_append]
    rfl
  · split_ifs at hr'
  · split_ifs at hr'
  · split_ifs at hr' with hall
    cases hr'
    simp only [decide_eq_true_eq] at hall
    refine ⟨hh, by omega, f, { r with
      got := r.got ++ s.stream.take n
      payload := if (n = remaining : Bool) then .ended else r.payload }, by simpa using hlen,
      by simpa using hf, ?_, ?_, ?_⟩
    · rw [length_setLast, getElem?_setLast, if_pos (by omega), hrec]
      rfl
    · simp only [length_append, length_take]
      omega
    · rw [length_setLast]
      refine hcut.2.trans ?_
      simp only [length_append, length_take, Nat.min_eq_left hn]
      rfl

theorem Inv.cancels (h : Inv c s) {cancelled : Bool} (hr : s.reader = .body remaining cancelled) :
    Inv c { s with reader := .body remaining true, half := true } := by
  obtain ⟨hh, hpos, f, r, hbody⟩ := h.body remaining cancelled hr
  refine ⟨h.limits, h.lost, fun i r hi => ?_, nofun, nofun,
    nofun, fun remaining' cancelled' hr' => ?_⟩
  · obtain ⟨g, hg, hm, hreading⟩ := h.frames i r hi
    exact ⟨g, hg, hm, fun hp => ⟨(hreading hp).1, _, _, rfl⟩⟩
  · cases hr'
    exact ⟨rfl, hpos, f, r, hbody⟩

theorem Inv.discards (h : Inv c s) {cancelled ok : Bool} (hr : s.reader = .body remaining cancelled)
    (hn : n ≤ s.stream.length) (hle : n ≤ remaining) (hcancel : cancelled → n = 0 ∧ ok = false)
    (hok : ok → n = remaining) :
    Inv c { s with
      reader := .free
      stream := s.stream.drop n
      closed := s.closed || !ok
      half := s.half || n ≠ remaining
      received := setLast (fun r => { r with payload := .closed }) s.received } := by
  obtain ⟨hh, hpos, f, r, hlen, hf, hrec, hrem, heq⟩ := h.body remaining cancelled hr
  refine ⟨h.limits, h.lost, h.frames_last fun r g _ _ hm => ⟨⟨hm.header, hm.size, hm.got, fun hp => ?_⟩,
    fun hp => ?_⟩, fun _ => ?_, nofun, nofun, nofun⟩
  · cases hp
  · cases hp
  · dsimp only
    by_cases hall : n = remaining
    · have hcan : cancelled = false := by
        cases cancelled with
        | false => rfl
        | true => exact absurd ((hcancel rfl).1.symm.trans hall) (by omega)
      rw [hcan] at hh
      rw [if_neg (by simp [hh, hall]), length_setLast]
      refine (append_inj ((ahead_cut s n).trans heq) ?_).2
      simp
      omega
    · rw [if_pos (by simp [hall])]
      cases ok with
      | false => simp
      | true => exact absurd (hok rfl) hall

/-! ## Every run -/

/-- A receive fails only before it took a byte of its frame, and none begins once the connection is
closed. -/
def Sound (s : Conn) : Action → Prop
  | .begins => s.closed = false
  | .fails => s.reader = .head []
  | _ => True

instance (s : Conn) (a : Action) : Decidable (s.Sound a) := by
  unfold Sound
  split <;> infer_instance

theorem Inv.fails (h : Inv c s) (hr : s.reader = .head []) :
    Inv c { s with reader := .free, half := s.half || false } := by
  obtain ⟨hhalf, heq⟩ := h.head [] hr
  refine ⟨h.limits, h.lost, h.frames_idle (by simp [hr]) _, fun _ => ?_, nofun, nofun, nofun⟩
  rw [if_neg (by simp [hhalf])]
  exact heq

theorem Inv.shuts (h : Inv c s) : Inv c { s with closed := true } := by
  refine { h with free := fun hr => ?_ }
  have := h.free hr
  split_ifs with hh
  · rfl
  · rw [if_neg hh] at this
    exact this

theorem Inv.step (h : Inv c s) {a : Action} (ha : s.Sound a) (hs : step c s a = some s') : Inv c s' := by
  revert hs
  fun_cases Conn.step c s a <;> rintro ⟨⟩
  next hok => exact h.sends hok.1 hok.2.1 hok.2.2
  next n rest hrest _ =>
    refine h.sender ?_ (.inl (h.lost.resolve_right (by simp [hrest])))
    simp only [ahead, hrest, getD_some]
    rw [append_assoc, ← append_assoc (rest.take n), take_append_drop]
  next hempty =>
    refine h.sender ?_ (.inl (h.lost.resolve_right (by simp [hempty])))
    simp [ahead, hempty]
  next rest hrest =>
    have hlost : s.lost = [] := h.lost.resolve_right (by simp [hrest])
    refine h.sender ?_ (.inr ⟨rfl, rfl⟩)
    simp [ahead, hrest, hlost]
  next hfree => exact h.begins hfree ha
  next n _ _ hr _ => exact h.reads_head n hr
  next n _ _ _ _ hr _ => exact h.reads_header n hr
  next hn _ _ hr hok _ => exact h.reads_body (hok.2 ▸ hr) hn hok.1
  -- the prefix is a frame's
  next hr hlen hparse =>
    obtain ⟨f, -, hf, -⟩ := h.completes_head hr hlen
    cases hparse.symm.trans hf
  next hr _ _ _ _ _ => exact h.refuses (by simp [hr])
  next hr hlen _ _ hparse _ =>
    obtain ⟨f, -, hf, hnext⟩ := h.completes_head hr hlen
    cases hparse.symm.trans hf
    exact hnext
  next hr => exact h.returns hr rfl
  next hr =>
    cases hr.symm.trans ha
    exact h.fails hr
  next hr => cases hr.symm.trans ha
  next hr => exact h.cancels hr
  next hr hok => exact h.discards hr hok.2.1 hok.1 hok.2.2.1 hok.2.2.2
  next => exact h.shuts

theorem Inv.init : Inv c {} := by
  refine ⟨nofun, .inl rfl, nofun, fun _ => ?_, nofun, nofun, nofun⟩
  rfl

theorem Inv.of_runs (h : Runs (Conn.step c) Sound {} s) : Inv c s :=
  h.invariant (fun _ _ _ hi ha hs => hi.step ha hs) Inv.init

/-- A frame was left half read, and no receive can begin. -/
def Stuck (s : Conn) : Prop := s.reader = .free ∧ s.closed ∨ ∃ n, s.reader = .body n true

theorem Inv.stuck (h : Inv c s) (hh : s.half) : s.Stuck := by
  cases hr : s.reader with
  | free =>
    have := h.free hr
    rw [if_pos hh] at this
    exact .inl ⟨hr, this⟩
  | head got => exact absurd (hh.symm.trans (h.head got hr).1) (by simp)
  | header size payload got => exact absurd (hh.symm.trans (h.headed size payload got hr).1) (by simp)
  | body remaining cancelled =>
    have hc : cancelled = true := (h.body remaining cancelled hr).1.symm.trans hh
    rw [hc] at hr
    exact .inr ⟨remaining, hr⟩

theorem Stuck.step (h : s.Stuck) {a : Action} (ha : s.Sound a) (hs : Conn.step c s a = some s') :
    s'.Stuck ∧ s'.received.length = s.received.length := by
  have hhead : ∀ got, s.reader ≠ .head got := by
    rcases h with ⟨hr, -⟩ | ⟨n, hr⟩ <;> simp [hr]
  have hheader : ∀ size payload got, s.reader ≠ .header size payload got := by
    rcases h with ⟨hr, -⟩ | ⟨n, hr⟩ <;> simp [hr]
  have hbody : ∀ n b, s.reader = .body n b → b = true := by
    intro n b hb
    rcases h with ⟨hr, -⟩ | ⟨m, hr⟩
    · cases hr.symm.trans hb
    · cases hr.symm.trans hb
      rfl
  revert hs
  fun_cases Conn.step c s a <;> rintro ⟨⟩
  next => exact ⟨h, rfl⟩
  next => exact ⟨h, rfl⟩
  next => exact ⟨h, rfl⟩
  next => exact ⟨h, rfl⟩
  next hfree =>
    rcases h with ⟨-, hc⟩ | ⟨n, hr⟩
    · cases hc.symm.trans ha
    · cases hr.symm.trans hfree
  next hr _ => exact absurd hr (hhead _)
  next hr _ => exact absurd hr (hheader _ _ _)
  next hr hok _ => cases (hbody _ _ hr).symm.trans hok.2
  next hr _ _ => exact absurd hr (hhead _)
  next hr _ _ _ _ _ => exact absurd hr (hhead _)
  next hr _ _ _ _ _ => exact absurd hr (hhead _)
  next hr => exact absurd hr (hheader _ _ _)
  next hr => exact absurd hr (hhead _)
  next hr => exact absurd hr (hheader _ _ _)
  next => exact ⟨.inr ⟨_, rfl⟩, rfl⟩
  next hr hok => exact ⟨.inl ⟨rfl, by simp [(hok.2.2.1 (hbody _ _ hr)).2]⟩, length_setLast ..⟩
  next =>
    refine ⟨?_, rfl⟩
    rcases h with ⟨hr, -⟩ | h
    · exact .inl ⟨hr, rfl⟩
    · exact .inr h

theorem Stuck.runs (h : s.Stuck) (hr : Runs (Conn.step c) Sound s s') :
    s'.received.length = s.received.length :=
  (hr.invariant (I := fun t => t.Stuck ∧ t.received.length = s.received.length)
    (fun _ _ _ hi ha hs => ⟨(hi.1.step ha hs).1, (hi.1.step ha hs).2.trans hi.2⟩) ⟨h, rfl⟩).2

/-- Whatever is sent and received, in whatever pieces, with receives and bodies cancelled and bodies
closed at any byte, as long as a receive is cancelled only before it took a byte of its frame and none
begins on a closed connection: the frames received are the first of those sent, in order, each with its
header and its payload's length; what was read of a body is its payload from the start, all of it where
the body ended, and every body but the last was read to its end or closed; and once a frame was left
half read no receive returns another. -/
theorem frames_received_as_sent (h : Machine.Runs (Conn.step c) Sound {} s) :
    (∀ i r, s.received[i]? = some r → ∃ f, s.sent[i]? = some f ∧ Matches r f ∧
      (i + 1 < s.received.length → r.payload ≠ .reading)) ∧
    (s.half → ∀ s', Machine.Runs (Conn.step c) Sound s s' → s'.received.length = s.received.length) := by
  have hi := Inv.of_runs h
  constructor
  · intro i r hr
    obtain ⟨f, hf, hm, hreading⟩ := hi.frames i r hr
    refine ⟨f, hf, hm, fun hlt hp => ?_⟩
    have := (hreading hp).1
    omega
  · intro hh s' hs'
    exact (hi.stuck hh).runs hs'

def sampleConfig : Config where
  sender := ⟨2 ^ 20, 2 ^ 24, by decide, by decide⟩
  receiver := ⟨2 ^ 20, 2 ^ 24, by decide, by decide⟩

/-- A frame of a header of two bytes and a body of three is received in pieces. -/
def sampleReceived : Option Conn :=
  Machine.exec (step sampleConfig) (fun s a => decide (s.Sound a)) {}
    [.sends ⟨[1, 2], [3, 4, 5]⟩, .puts 30, .sendEnds, .begins, .reads 7, .reads 13, .completes, .reads 2,
      .completes, .reads 1, .reads 2]

theorem sampleReceived_isSome : sampleReceived.isSome := by decide

theorem frames_received_as_sent_sample :
    (sampleReceived.get sampleReceived_isSome).received[0]? = some ⟨[1, 2], 3, [3, 4, 5], .ended⟩ ∧
      ∃ f, (sampleReceived.get sampleReceived_isSome).sent[0]? = some f ∧
        Matches ⟨[1, 2], 3, [3, 4, 5], .ended⟩ f := by
  have hruns : Runs (Conn.step sampleConfig) Sound {} (sampleReceived.get sampleReceived_isSome) :=
    exec_runs (fun _ _ h => of_decide_eq_true h) (some_get sampleReceived_isSome).symm
  obtain ⟨f, hf, hm, -⟩ := (frames_received_as_sent hruns).1 0 ⟨[1, 2], 3, [3, 4, 5], .ended⟩ (by decide)
  exact ⟨by decide, f, hf, hm⟩

/-- A frame whose header holds another frame. A receive is cancelled once it has the prefix. -/
def sampleSplit : Option Conn :=
  Machine.exec (step sampleConfig) (fun _ _ => true) {}
    [.sends ⟨encode ⟨[], []⟩, []⟩, .puts 40, .sendEnds, .begins, .reads 20, .fails, .begins, .reads 20,
      .completes, .completes]

theorem sampleSplit_isSome : sampleSplit.isSome := by decide

/-- The next receive returns a frame nobody sent. -/
theorem frame_read_from_inside :
    ∃ s, Machine.Runs (step sampleConfig) (fun _ _ => True) {} s ∧
      s.sent = [⟨encode ⟨[], []⟩, []⟩] ∧ s.received = [⟨[], 0, [], .ended⟩] :=
  ⟨sampleSplit.get sampleSplit_isSome,
    exec_runs (fun _ _ _ => trivial) (some_get sampleSplit_isSome).symm,
    by decide, by decide⟩

end Conn

end Sproutfs.Framer

import Sproutfs.Ctxsync.RWMutex

/-!
# The reader/writer lock holds, counts and wakes

`Moved` says once what a step of a call does: the counters change by what the call's own share of them
changes by, a call that blocks does so on the open channel with its test failing, and where no channel
is closed no test comes to hold that did not. Everything about runs follows from it by the tallies.
-/

namespace Sproutfs.Ctxsync

open Tally Machine RWMutex

variable {m m' : RWMutex} {a : Action} {act : Act} {i j : Nat} {c c' : Caller}

attribute [local simp] RWMutex.set readable free admits reading writing registered Caller.on

/-- A step of the call `i`, which was `c` and is then `c'`. -/
structure Moved (m : RWMutex) (i : Nat) (c c' : Caller) (m' : RWMutex) : Prop where
  caller : m.callers i = some c
  callers : m'.callers = Function.update m.callers i (some c') := by rfl
  next : m'.next = m.next := by rfl
  readers : m'.readers = m.readers + (reading c' - reading c) := by simp <;> rfl
  waiting : m'.waiting = m.waiting + (registered c' - registered c) := by simp <;> rfl
  writer : (m'.writer.toNat : Int) = m.writer.toNat + (writing c' - writing c) := by simp
  enters : reading c < reading c' → m.readable := by simp
  takes : writing c < writing c' → m.free := by simp
  signals : m'.changed = m.changed + 1 ∨
    m'.changed = m.changed ∧ (m'.readable → m.readable) ∧ (m'.free → m.free) := by simp
  blocks : ∀ ch, c'.on = some ch →
    m'.changed = m.changed ∧ ch = m.changed ∧ m'.admits c' = false := by simp

theorem act_moved (hr : 0 ≤ m.readers) (hw : 0 ≤ m.waiting) (hc : m.callers i = some c)
    (hs : m.act i act c = some m') : ∃ c', Moved m i c c' m' := by
  have hno {b : Bool} {n : Int} (h : ¬ (b || 0 < n) = true) (hn : 0 ≤ n) : b = false ∧ n = 0 := by
    simp only [Bool.or_eq_true, decide_eq_true_eq, not_or, Bool.not_eq_true] at h
    exact ⟨h.1, by omega⟩
  revert hs
  -- A reader entering leaves `free` false and a writer registering leaves `readable` false, so
  -- neither needs a signal.
  fun_cases m.act i act c <;> rintro ⟨⟩
  · split
    case isTrue hread =>
      exact ⟨.reads, { caller := hc, enters := fun _ => hread, signals := by simp; omega }⟩
    case isFalse hread =>
      exact ⟨.rlock (some m.changed), { caller := hc, blocks := by simp at hread ⊢; exact hread }⟩
  · split
    case isTrue => exact ⟨.gone, { caller := hc }⟩
    case isFalse hread =>
      exact ⟨.reads, { caller := hc, enters := by simp [hno hread hw], signals := by simp; omega }⟩
  · split
    case isTrue => exact ⟨.gone, { caller := hc }⟩
    case isFalse hread =>
      exact ⟨.waitReadable (some m.changed), { caller := hc, blocks := by simp at hread ⊢; exact hread }⟩
  · rename_i registered
    split
    case isTrue hfree =>
      refine ⟨.writes, { caller := hc, waiting := ?_, writer := ?_, takes := fun _ => hfree }⟩
      · cases registered <;> simp
        rfl
      · simp at hfree ⊢
        simp [hfree]
    case isFalse hfree =>
      refine ⟨.lockWait m.changed, { caller := hc, waiting := ?_, signals := ?_, blocks := ?_ }⟩
      · cases registered <;> simp
      · cases registered <;> simp
        omega
      · simp at hfree ⊢
        exact hfree
  · exact ⟨.gone, { caller := hc }⟩
  · split
    case isTrue => exact ⟨.gone, { caller := hc }⟩
    case isFalse hfree =>
      exact ⟨.writes, { caller := hc, writer := by simp [hno hfree hr], takes := by simp [hno hfree hr] }⟩
  · exact ⟨.writer, { caller := hc, signals := by simp; omega }⟩
  · split
    case isTrue => exact ⟨.gone, { caller := hc }⟩
    case isFalse hfree =>
      exact ⟨.wait (some m.changed), { caller := hc, blocks := by simp at hfree ⊢; exact hfree }⟩
  · exact ⟨.rlock none, { caller := hc }⟩
  · exact ⟨.gone, { caller := hc }⟩
  · exact ⟨.lock true, { caller := hc }⟩
  · exact ⟨.wait none, { caller := hc }⟩
  · exact ⟨.gone, { caller := hc }⟩
  · exact ⟨.gone, { caller := hc }⟩
  · exact ⟨.gone, { caller := hc }⟩
  · exact ⟨.canceled, { caller := hc }⟩
  · split
    case isTrue => exact ⟨.writer, { caller := hc, callers := by rw [← hc, Function.update_eq_self] }⟩
    case isFalse hfree =>
      exact ⟨.writes, { caller := hc, writer := by simp [hno hfree hr], takes := by simp [hno hfree hr] }⟩
  · exact ⟨.gone, { caller := hc }⟩
  · exact ⟨.gone, { caller := hc }⟩
  · rename_i hwriter
    exact ⟨.gone, { caller := hc, writer := by simp at hwriter; simp [hwriter] }⟩

/-- The counters are what the callers add up to, and a blocked call whose channel is open is one the
state does not admit. -/
structure Inv (m : RWMutex) : Prop where
  known : ∀ i c, m.callers i = some c → i < m.next
  readers : m.readers = tally reading m.callers m.next
  waiting : m.waiting = tally registered m.callers m.next
  writer : (m.writer.toNat : Int) = tally writing m.callers m.next
  alone : m.writer = true → m.readers = 0
  blocked : ∀ i c ch, m.callers i = some c → c.on = some ch →
    ch < m.changed ∨ ch = m.changed ∧ m.admits c = false

theorem reading_nonneg (c : Option Caller) : 0 ≤ reading c := by
  unfold reading
  split <;> decide

theorem registered_nonneg (c : Option Caller) : 0 ≤ registered c := by
  unfold registered
  split <;> decide

theorem writing_nonneg (c : Option Caller) : 0 ≤ writing c := by
  unfold writing
  split <;> decide

theorem Inv.nonneg (h : Inv m) : 0 ≤ m.readers ∧ 0 ≤ m.waiting := by
  rw [h.readers, h.waiting]
  exact ⟨Finset.sum_nonneg fun _ _ => reading_nonneg _, Finset.sum_nonneg fun _ _ => registered_nonneg _⟩

/-- A call that is made has no share of the counters. -/
theorem Inv.begin (h : Inv m) (hc : c.begun = true) :
    Inv { m.set m.next c with next := m.next + 1 } := by
  obtain ⟨hr, hw, hx, hon⟩ : reading c = 0 ∧ registered c = 0 ∧ writing c = 0 ∧ c.on = none := by
    revert hc
    fun_cases Caller.begun c <;> intro hc <;> first | exact ⟨rfl, rfl, rfl, rfl⟩ | cases hc
  refine { h with known := ?_, readers := ?_, waiting := ?_, writer := ?_, blocked := ?_ }
  · intro i d hd
    obtain ⟨rfl, -⟩ | ⟨-, hd⟩ := update_some hd
    · exact Nat.lt_succ_self _
    · exact Nat.lt_succ_of_lt (h.known i d hd)
  · exact h.readers.trans ((tally_succ _).trans (by rw [hr, add_zero])).symm
  · exact h.waiting.trans ((tally_succ _).trans (by rw [hw, add_zero])).symm
  · exact h.writer.trans ((tally_succ _).trans (by rw [hx, add_zero])).symm
  · intro i d ch hd hch
    obtain ⟨-, rfl⟩ | ⟨-, hd⟩ := update_some hd
    · rw [hon] at hch
      cases hch
    · exact h.blocked i d ch hd hch

theorem writing_pos {x : Option Caller} (h : 0 < writing x) : x = some .writes := by
  revert h
  fun_cases writing x
  · exact fun _ => rfl
  · exact fun h => absurd h (by decide)

section

variable (h : Inv m) (hm : Moved m i c c' m')

include h hm

theorem Moved.alone (hwriter : m'.writer = true) : m'.readers = 0 := by
  have hreads := le_tally (t := m.callers) reading_nonneg (h.known i c hm.caller)
  rw [hm.caller, ← h.readers] at hreads
  have hr := hm.readers
  have hc := reading_nonneg c
  have hc' := reading_nonneg c'
  cases hw : m.writer with
  | true =>
    have hnone := h.alone hw
    have hstays : ¬ reading c < reading c' := fun hlt => by simpa [hw] using hm.enters hlt
    omega
  | false =>
    have hx := hm.writer
    rw [hw, hwriter, Bool.toNat_true, Bool.toNat_false] at hx
    have hwc := writing_nonneg c
    have hnone : m.readers = 0 := by simpa [hw] using hm.takes (by omega)
    cases writing_pos (x := some c') (by omega)
    rw [hnone] at hreads hr
    exact hr.trans (by rw [show reading c = 0 by omega]; rfl)

theorem Moved.blocked (j : Nat) (d : Caller) (ch : Nat) (hd : m'.callers j = some d)
    (hch : d.on = some ch) : ch < m'.changed ∨ ch = m'.changed ∧ m'.admits d = false := by
  rw [hm.callers] at hd
  obtain ⟨-, rfl⟩ | ⟨-, hd⟩ := update_some hd
  · obtain ⟨hsame, rfl, hno⟩ := hm.blocks ch hch
    exact .inr ⟨hsame.symm, hno⟩
  have hold := h.blocked j d ch hd hch
  obtain hsig | ⟨hsame, hread, hfree⟩ := hm.signals
  · -- A signal closes every channel a call was blocked on.
    left
    omega
  · refine hold.imp (by omega) fun ⟨hopen, hno⟩ => ⟨hopen.trans hsame.symm, ?_⟩
    rw [Bool.eq_false_iff] at hno ⊢
    refine mt ?_ hno
    unfold admits
    split
    exacts [hread, hread, hfree, hfree, id]

theorem Inv.moved : Inv m' := by
  have hi := h.known i c hm.caller
  refine ⟨?_, ?_, ?_, ?_, hm.alone h, hm.blocked h⟩
  · intro j d hd
    rw [hm.callers] at hd
    rw [hm.next]
    obtain ⟨rfl, -⟩ | ⟨-, hd⟩ := update_some hd
    · exact hi
    · exact h.known j d hd
  all_goals rw [hm.callers, hm.next, tally_update hi, hm.caller]
  · rw [hm.readers, h.readers]
  · rw [hm.waiting, h.waiting]
  · rw [hm.writer, h.writer]

end

/-- A step is a call being made, or a call moving. -/
theorem Inv.step_moved (h : Inv m) (hs : m.step a = some m') :
    (∃ c, c.begun = true ∧ m' = { m.set m.next c with next := m.next + 1 }) ∨
      ∃ i c c', Moved m i c c' m' := by
  cases a with
  | begin c =>
    obtain ⟨hc, heq⟩ := Option.ite_none_right_eq_some.mp hs
    exact .inl ⟨c, hc, (Option.some.inj heq).symm⟩
  | act i act =>
    obtain ⟨c, hc, hs⟩ := Option.bind_eq_some_iff.mp hs
    exact .inr ⟨i, c, act_moved h.nonneg.1 h.nonneg.2 hc hs⟩

theorem Inv.of_runs (h : Runs step (fun _ _ => True) {} m) : Inv m := by
  refine Runs.invariant (fun m a m' hinv _ hs => ?_) ?_ h
  · obtain ⟨c, hc, rfl⟩ | ⟨i, c, c', hm⟩ := hinv.step_moved hs
    · exact hinv.begin hc
    · exact hinv.moved hm
  · exact ⟨nofun, rfl, rfl, rfl, nofun, nofun⟩

/-- A writer holds the lock alone. -/
theorem Inv.writer_alone (h : Inv m) (hi : m.callers i = some .writes) (hj : j ≠ i) :
    m.callers j ≠ some .reads ∧ m.callers j ≠ some .writes := by
  have hin := h.known i _ hi
  have hx := h.writer
  have hle : 1 ≤ tally writing m.callers m.next := by
    have := le_tally (t := m.callers) writing_nonneg hin
    rwa [hi] at this
  have hwriter : m.writer = true := by
    cases hw : m.writer
    · rw [hw, Bool.toNat_false] at hx
      omega
    · rfl
  rw [hwriter, Bool.toNat_true] at hx
  constructor
  · intro hr
    have hle := le_tally (t := m.callers) reading_nonneg (h.known j _ hr)
    rw [hr, ← h.readers, h.alone hwriter] at hle
    simp at hle
  · -- Without the first writer the tally still has the second.
    intro hw
    have hrest := le_tally (t := Function.update m.callers i none) writing_nonneg (h.known j _ hw)
    rw [Function.update_of_ne hj, tally_update hin, hw, hi] at hrest
    simp at hrest
    omega

/-- A reader enters only while no writer is registered. -/
theorem Inv.enters (h : Inv m) (hs : m.step a = some m') (hr : m'.callers i = some .reads)
    (hnew : m.callers i ≠ some .reads) (j : Nat) : registered (m.callers j) = 0 := by
  obtain ⟨c, hc, rfl⟩ | ⟨k, c, c', hm⟩ := h.step_moved hs
  · obtain ⟨-, rfl⟩ | ⟨-, hold⟩ := update_some hr
    · cases hc
    · exact absurd hold hnew
  rw [hm.callers] at hr
  obtain ⟨rfl, rfl⟩ | ⟨-, hold⟩ := update_some hr
  case inr => exact absurd hold hnew
  have henters : reading c < reading (some Caller.reads) := by
    rw [hm.caller] at hnew
    unfold reading
    split
    · contradiction
    · decide
  have hread := hm.enters henters
  simp only [readable, Bool.and_eq_true, beq_iff_eq] at hread
  by_cases hj : j < m.next
  · have hle := le_tally (t := m.callers) registered_nonneg hj
    have := registered_nonneg (m.callers j)
    rw [← h.waiting, hread.2] at hle
    omega
  · cases hcall : m.callers j with
    | none => rfl
    | some d => exact absurd (h.known j d hcall) hj

theorem share_of_holds (hc : c.holds = false) : reading c = 0 ∧ writing c = 0 := by
  cases c <;> first | exact ⟨rfl, rfl⟩ | cases hc

/-- What a call does that does not hold changes the waiting count by the call's own registration, and
nothing else. -/
theorem Inv.waits (h : Inv m) (hc : m.callers i = some c) (hs : m.step (.act i act) = some m')
    (hc' : m'.callers i = some c') (hfirst : c.holds = false) (hthen : c'.holds = false) :
    m'.readers = m.readers ∧ m'.writer = m.writer ∧
      m'.waiting = m.waiting + (registered c' - registered c) := by
  simp only [step, hc, Option.bind_some] at hs
  obtain ⟨d, hm⟩ := act_moved h.nonneg.1 h.nonneg.2 hc hs
  have hd := hc'
  rw [hm.callers, Function.update_self] at hd
  cases hd
  have hreaders := hm.readers
  have hwriter := hm.writer
  rw [(share_of_holds hfirst).1, (share_of_holds hthen).1] at hreaders
  rw [(share_of_holds hfirst).2, (share_of_holds hthen).2] at hwriter
  have hsame : m'.writer.toNat = m.writer.toNat := by omega
  refine ⟨by omega, ?_, hm.waiting⟩
  revert hsame
  cases m'.writer <;> cases m.writer <;> decide

/-- In every interleaving of calls, with any wait cancelled at any moment: a writer holds the lock
alone; the counters are those of the callers, `waiting` that of the writers registered and not yet
holding; a reader enters only while no writer is registered; a call that does not come to hold changes
nothing but its own registration, so that one whose wait is cancelled leaves the counts as they were
before it; and where the state would let a blocked call go on, the channel it waits on is closed. -/
theorem rw_mutex_counts_and_wakes (h : Runs step (fun _ _ => True) {} m) :
    (∀ i j, m.callers i = some .writes → j ≠ i →
      m.callers j ≠ some .reads ∧ m.callers j ≠ some .writes) ∧
    (m.readers = tally reading m.callers m.next ∧
      (m.writer.toNat : Int) = tally writing m.callers m.next ∧
      m.waiting = tally registered m.callers m.next) ∧
    (∀ a m' i, m.step a = some m' → m'.callers i = some .reads → m.callers i ≠ some .reads →
      ∀ j, registered (m.callers j) = 0) ∧
    (∀ i act c c' m', m.callers i = some c → m.step (.act i act) = some m' → m'.callers i = some c' →
      c.holds = false → c'.holds = false →
      m'.readers = m.readers ∧ m'.writer = m.writer ∧
        m'.waiting = m.waiting + (registered c' - registered c)) ∧
    ∀ i c ch, m.callers i = some c → c.on = some ch → m.admits c = true → ch < m.changed := by
  have hinv := Inv.of_runs h
  refine ⟨fun _ _ => hinv.writer_alone, ⟨hinv.readers, hinv.writer, hinv.waiting⟩,
    fun _ _ _ => hinv.enters, fun _ _ _ _ _ => hinv.waits, fun i c ch hc hch hadmits => ?_⟩
  refine (hinv.blocked i c ch hc hch).resolve_right ?_
  rintro ⟨-, hno⟩
  rw [hadmits] at hno
  cases hno

/-- A reader holds, a `Lock` registers behind it and a second reader blocks behind that; the `Lock` is
cancelled, and the second reader finds its channel closed. -/
def canceledLock : List Action :=
  [.begin (.rlock none), .act 0 .run, .begin (.lock false), .act 1 .run, .begin (.rlock none), .act 2 .run,
    .act 1 .cancel, .act 1 .run]

theorem rw_mutex_canceled_lock : ∃ m, exec step (fun _ _ => true) {} canceledLock = some m ∧
    m.readers = 1 ∧ m.waiting = 0 ∧ m.callers 2 = some (.rlock (some 0)) ∧ 0 < m.changed := by
  obtain ⟨m, hm, hr, hw, hc, hadmits⟩ :
      ∃ m, exec step (fun _ _ => true) {} canceledLock = some m ∧ m.readers = 1 ∧ m.waiting = 0 ∧
        m.callers 2 = some (.rlock (some 0)) ∧ m.admits (.rlock (some 0)) = true :=
    ⟨_, rfl, rfl, rfl, rfl, rfl⟩
  have hruns : Runs step (fun _ _ => True) {} m := exec_runs (fun _ _ _ => trivial) hm
  exact ⟨m, hm, hr, hw, hc, (rw_mutex_counts_and_wakes hruns).2.2.2.2 2 _ 0 hc rfl hadmits⟩

end Sproutfs.Ctxsync

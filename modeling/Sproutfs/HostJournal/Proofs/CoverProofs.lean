import Mathlib.Tactic
import Sproutfs.HostJournal.Cover

/-!
# Covered positions split the captures at the pause

Where every journal the host opens begins above what the host remembers, captures and positions grow
together, and a pause resolved at `last` splits them. The record then never skips an answered flush its
checkpoint does not hold.
-/

namespace Sproutfs.HostJournal

open List Option Function Machine

variable {s s' : State} {l positions : List Nat} {o : Opened} {t i : Nat} {c' c : Cover}

/-! ## The invariant -/

/-- Position `v` lies at or above every entry of the captures up to `t`, and below every later one. -/
structure Splits (given : List Entry) (placed last t v : Nat) : Prop where
  token : t ≤ placed
  below : v ≤ last
  upto : ∀ e ∈ given, e.capture ≤ t → e.position ≤ v
  after : ∀ e ∈ given, t < e.capture → v < e.position

abbrev State.Splits (s : State) (t v : Nat) : Prop := HostJournal.Splits s.given s.placed s.last t v

/-- How many captures of the batch have no position yet that the host knows of. -/
def Batch.untold : Batch → Nat
  | .forming n => n
  | .placed left _ => left.length

/-- The host's counters against the positions the journal gave out. -/
structure Counted (s : State) : Prop where
  given : ∀ e ∈ s.given, e.capture ≤ s.placed ∧ e.position ≤ s.last
  answered : ∀ e ∈ s.answered, e ∈ s.given
  told : ∀ left told, s.batch = some (.placed left told) → ∀ e ∈ told, e ∈ s.given
  count : s.captures = s.placed + (s.batch.map Batch.untold).getD 0
  head : ∀ o, s.current = some o → s.last < o.next
  ahead : ∀ o left told, s.current = some o → s.batch = some (.placed left told) →
    left.flatten.Pairwise (· < ·) ∧ ∀ p ∈ left.flatten, s.last < p ∧ p < o.next
  busy : s.batch.isSome → ∃ o, s.current = some o ∧ o.checked
  waiting : ∀ i ∈ s.waiting, ∃ c t, s.covers i = some c ∧ c.token = some t ∧ s.placed < t
  tokens : ∀ i c t, s.covers i = some c → c.token = some t → t ≤ s.captures
  resolved : ∀ i c v, s.covers i = some c → c.covered = some v → ∃ t, c.token = some t ∧ s.Splits t v
  selections : ∀ sel ∈ s.selections, ∀ n ∈ sel.journals,
    n.epoch < s.epoch ∨ n.epoch = s.epoch ∧ s.Splits sel.token n.covered

/-- What the record and the checkpoints under way name. -/
structure Named (s : State) : Prop where
  same : ∀ i c o, s.covers i = some c → c.ended = false → s.current = some o → c.journal = o.journal
  follows : ∀ i c t, s.covers i = some c → c.ended = false → c.token = some t →
    ∀ e ∈ s.given, t < e.capture → e.journal = c.journal
  checked : ∀ o, s.current = some o → o.checked → names s.journals o.journal s.epoch
  record : ∀ n ∈ s.journals, n.epoch < s.epoch ∨ n.epoch = s.epoch ∧ n.covered ≤ s.last
  kept : ∀ sel, s.selections.getLast? = some sel → s.journals = sel.journals ∧
    ∀ e ∈ s.given, sel.token < e.capture → replayed s.journals s.epoch e

structure Inv (s : State) : Prop where
  counted : Counted s
  named : Named s

theorem State.Fresh.inv (h : s.Fresh) : Inv s := by
  obtain ⟨hold, heq⟩ := h
  rw [heq]
  refine ⟨⟨by simp, by simp, by simp, rfl, by simp, by simp, by simp, by simp, by simp, by simp,
    by simp⟩, ⟨by simp, by simp, by simp, ?_, by simp⟩⟩
  exact fun n hn => .inl (hold n hn)

/-! ## Placing a capture -/

theorem le_foldl_max (l : List Nat) (a : Nat) : a ≤ l.foldl max a := by
  induction l generalizing a with
  | nil => exact Nat.le_refl _
  | cons x l ih => exact (Nat.le_max_left a x).trans (ih _)

theorem mem_le_foldl_max {x : Nat} (hx : x ∈ l) (a : Nat) : x ≤ l.foldl max a := by
  induction l generalizing a with
  | nil => cases hx
  | cons y l ih =>
    rcases mem_cons.mp hx with rfl | hx
    · exact (Nat.le_max_right a x).trans (le_foldl_max l _)
    · exact ih hx _

theorem foldl_max_lt {a b : Nat} (ha : a < b) (hl : ∀ x ∈ l, x < b) : l.foldl max a < b := by
  induction l generalizing a with
  | nil => exact ha
  | cons y l ih =>
    exact ih (Nat.max_lt.mpr ⟨ha, hl y mem_cons_self⟩) fun x hx => hl x (mem_cons_of_mem _ hx)

theorem mem_placedOne_given {e : Entry} :
    e ∈ (s.placedOne o positions).given ↔
      e ∈ s.given ∨ e.journal = o.journal ∧ e.position ∈ positions ∧ e.capture = s.placed + 1 := by
  simp only [State.placedOne, List.mem_append, List.mem_map]
  constructor
  · rintro (he | ⟨p, hp, rfl⟩)
    · exact .inl he
    · exact .inr ⟨rfl, hp, rfl⟩
  · rintro (he | ⟨hj, hp, hc⟩)
    · exact .inl he
    · exact .inr ⟨_, hp, by rw [← hj, ← hc]⟩

/-- A position that splits the captures still does once a later one is placed above `last`. -/
theorem State.Splits.placedOne {v : Nat} (h : s.Splits t v) (hp : ∀ p ∈ positions, s.last < p) :
    (s.placedOne o positions).Splits t v := by
  have ht := h.token
  have hv := h.below
  refine ⟨Nat.le_succ_of_le ht, hv.trans (le_foldl_max _ _), ?_, ?_⟩
  · intro e he hle
    rcases mem_placedOne_given.mp he with he | ⟨-, -, hc⟩
    · exact h.upto e he hle
    · omega
  · intro e he hlt
    rcases mem_placedOne_given.mp he with he | ⟨-, hpos, -⟩
    · exact h.after e he hlt
    · have := hp _ hpos
      omega

/-- The highest position given so far splits the captures at the one just placed. -/
theorem splits_placed (h : Counted s) (o : Opened) (positions : List Nat) :
    (s.placedOne o positions).Splits (s.placed + 1) (positions.foldl max s.last) := by
  refine ⟨Nat.le_refl _, Nat.le_refl _, ?_, ?_⟩
  · intro e he _
    rcases mem_placedOne_given.mp he with he | ⟨-, hp, -⟩
    · exact (h.given e he).2.trans (le_foldl_max _ _)
    · exact mem_le_foldl_max hp _
  · intro e he hlt
    rcases mem_placedOne_given.mp he with he | ⟨-, -, hc⟩
    · have := (h.given e he).1
      omega
    · omega

/-- With every capture placed, the highest position splits the captures at this moment. -/
theorem Counted.splits_last (h : Counted s) : s.Splits s.placed s.last := by
  refine ⟨Nat.le_refl _, Nat.le_refl _, fun e he _ => (h.given e he).2, ?_⟩
  intro e he hlt
  have := (h.given e he).1
  omega

/-- The covers after a capture is placed: those whose pause waited for it are resolved. -/
theorem placedOne_cover (h : (s.placedOne o positions).covers i = some c') :
    ∃ c, s.covers i = some c ∧ (c' = c ∨
      c' = c.resolve (positions.foldl max s.last) ∧ i ∈ s.waiting ∧ c.token.any (· ≤ s.placed + 1)) := by
  simp only [State.placedOne] at h
  split at h
  · next hi =>
    obtain ⟨c, hc, rfl⟩ := map_eq_some_iff.mp h
    rw [mem_filter, hc] at hi
    exact ⟨c, hc, .inr ⟨rfl, hi.1, hi.2⟩⟩
  · exact ⟨c', h, .inl rfl⟩

theorem placedOne_keeps (h : (s.placedOne o positions).covers i = some c') :
    ∃ c, s.covers i = some c ∧ c'.journal = c.journal ∧ c'.token = c.token ∧ c'.ended = c.ended := by
  obtain ⟨c, hc, rfl | ⟨rfl, -⟩⟩ := placedOne_cover h
  · exact ⟨_, hc, rfl, rfl, rfl⟩
  · exact ⟨c, hc, rfl, rfl, rfl⟩

theorem placedOne_waiting (hi : i ∈ (s.placedOne o positions).waiting) (hc : s.covers i = some c)
    (ht : c.token = some t) :
    i ∈ s.waiting ∧ s.placed + 1 < t ∧ (s.placedOne o positions).covers i = some c := by
  simp only [State.placedOne, mem_filter, decide_eq_true_eq, hc, ht, any_some, not_and,
    not_le] at hi ⊢
  have hlt := hi.2 hi.1
  refine ⟨hi.1, hlt, ?_⟩
  rw [if_neg]
  omega

/-- An entry of a journal the record names, above every position given so far, is replayed. -/
theorem Named.replayed_above (h : Named s) {j : Ident} {e : Entry} (hj : names s.journals j s.epoch)
    (he : e.journal = j) (hp : s.last < e.position) : replayed s.journals s.epoch e := by
  obtain ⟨n, hn, heq⟩ := any_eq_true.mp hj
  rw [Bool.and_eq_true, decide_eq_true_eq, decide_eq_true_eq] at heq
  refine any_eq_true.mpr ⟨n, hn, ?_⟩
  have hle : n.covered ≤ s.last := by
    rcases h.record n hn with hlt | hle
    · omega
    · exact hle.2
  simp only [heq.1, heq.2, he, decide_true, Bool.true_and, decide_eq_true_eq]
  omega

/-! ## The steps keep the invariant -/

namespace Inv

theorem opens {j : Ident} {head : Nat} (h : Inv s) (hok : s.Above (.opens j head))
    (hs : s.opens j head = some s') : Inv s' := by
  obtain ⟨hhead, hsame⟩ := hok
  revert hs
  fun_cases State.opens <;> rintro ⟨⟩
  rename_i hnone
  have hidle : s.batch = none := by
    by_contra hb
    obtain ⟨o, ho, -⟩ := h.counted.busy (isSome_iff_ne_none.mpr hb)
    rw [hnone] at ho
    cases ho
  refine ⟨{ h.counted with head := ?_, ahead := ?_, busy := ?_ },
    { h.named with same := ?_, checked := ?_ }⟩
  · rintro o ⟨⟩
    exact hhead
  · intro o left told _ hb
    rw [hidle] at hb
    cases hb
  · intro hb
    rw [hidle] at hb
    cases hb
  · rintro i c o hc hopen ⟨⟩
    exact hsame i c hc hopen
  · rintro o ⟨⟩ hchecked
    cases hchecked

theorem closes (h : Inv s) (hs : s.closes = some s') : Inv s' := by
  revert hs
  fun_cases State.closes <;> rintro ⟨⟩
  rename_i hidle _
  refine ⟨{ h.counted with head := ?_, ahead := ?_, busy := ?_ },
    { h.named with same := ?_, checked := ?_ }⟩
  · rintro o ⟨⟩
  · rintro o left told ⟨⟩
  · intro hb
    rw [hidle] at hb
    cases hb
  · rintro i c o _ _ ⟨⟩
  · rintro o ⟨⟩

theorem checks (h : Inv s) (hs : s.checks = some s') : Inv s' := by
  obtain ⟨o, ho, hs⟩ := bind_eq_some_iff.mp hs
  obtain ⟨hmay, rfl⟩ := ite_some_none_eq_some.mp hs
  rw [Bool.and_eq_true] at hmay
  refine ⟨{ h.counted with head := ?_, ahead := ?_, busy := ?_ },
    { h.named with same := ?_, checked := ?_ }⟩
  · rintro _ ⟨⟩
    exact h.counted.head o ho
  · rintro _ left told ⟨⟩ hb
    exact h.counted.ahead o left told ho hb
  · exact fun _ => ⟨_, rfl, rfl⟩
  · rintro i c _ hc hopen ⟨⟩
    exact h.named.same i c o hc hopen ho
  · rintro _ ⟨⟩ _
    exact hmay.2

theorem begun {n : Nat} (h : Inv s) (ho : s.current = some o) (hc : o.checked)
    (hn : (s.batch.map Batch.untold).getD 0 = n) :
    Inv { s with captures := s.captures + 1, batch := some (.forming (n + 1)) } := by
  have hcount := h.counted.count
  refine ⟨{ h.counted with told := ?_, count := ?_, ahead := ?_, busy := ?_, tokens := ?_ },
    { h.named with }⟩
  · rintro left told ⟨⟩
  · show s.captures + 1 = s.placed + (n + 1)
    omega
  · rintro _ left told _ ⟨⟩
  · exact fun _ => ⟨o, ho, hc⟩
  · exact fun i c t hi ht => Nat.le_succ_of_le (h.counted.tokens i c t hi ht)

theorem captured (h : Inv s) (hs : s.captured = some s') : Inv s' := by
  unfold State.captured at hs
  split at hs
  case h_1 o ho hb =>
    obtain ⟨hc, rfl⟩ := ite_some_none_eq_some.mp hs
    exact h.begun ho hc (by rw [hb]; rfl)
  case h_2 o n ho hb =>
    obtain ⟨hc, rfl⟩ := ite_some_none_eq_some.mp hs
    exact h.begun ho hc (by rw [hb]; rfl)
  case h_3 => cases hs

theorem places {positions : List (List Nat)} {next : Nat} (h : Inv s)
    (hs : s.places positions next = some s') : Inv s' := by
  unfold State.places at hs
  split at hs
  case h_2 => cases hs
  case h_1 o n ho hb =>
    obtain ⟨hfit, rfl⟩ := ite_some_none_eq_some.mp hs
    obtain ⟨hlen, hnext, hsorted, hpos⟩ := hfit
    have hlast := h.counted.head o ho
    have hcount := h.counted.count
    rw [hb] at hcount
    refine ⟨{ h.counted with told := ?_, count := ?_, head := ?_, ahead := ?_, busy := ?_ },
      { h.named with same := ?_, checked := ?_ }⟩
    · rintro _ _ ⟨⟩ e he
      cases he
    · show s.captures = s.placed + positions.length
      rw [hlen]
      exact hcount
    · rintro _ ⟨⟩
      exact hlast.trans_le hnext
    · rintro _ _ _ ⟨⟩ ⟨⟩
      exact ⟨hsorted, fun p hp => ⟨hlast.trans_le (hpos p hp).1, (hpos p hp).2⟩⟩
    · intro _
      obtain ⟨o', ho', hc⟩ := h.counted.busy (by rw [hb]; rfl)
      rw [ho] at ho'
      cases ho'
      exact ⟨_, rfl, hc⟩
    · rintro i c _ hc hopen ⟨⟩
      exact h.named.same i c o hc hopen ho
    · rintro _ ⟨⟩ hc
      exact h.named.checked o ho hc

theorem tells_counted {left : List (List Nat)} {told : List Entry} (h : Counted s)
    (ho : s.current = some o) (hb : s.batch = some (.placed (positions :: left) told)) :
    Counted { s.placedOne o positions with
      batch := some (.placed left (told ++ positions.map fun p => ⟨o.journal, p, s.placed + 1⟩)) } := by
  obtain ⟨hsorted, hpos⟩ := h.ahead o _ told ho hb
  rw [flatten_cons, pairwise_append] at hsorted
  have hlater : ∀ p ∈ positions, s.last < p := fun p hp => (hpos p (by simp [hp])).1
  have hlast : s.last ≤ positions.foldl max s.last := le_foldl_max _ _
  have hcount := h.count
  rw [hb] at hcount
  refine ⟨?_, ?_, ?_, ?_, ?_, ?_, ?_, ?_, ?_, ?_, ?_⟩
  · -- given
    intro e he
    rcases mem_placedOne_given.mp he with he | ⟨-, hp, hc⟩
    · exact ⟨Nat.le_succ_of_le (h.given e he).1, (h.given e he).2.trans hlast⟩
    · exact ⟨Nat.le_of_eq hc, mem_le_foldl_max hp _⟩
  · exact fun e he => mem_placedOne_given.mpr (.inl (h.answered e he))
  · -- told
    rintro _ _ ⟨⟩ e he
    rcases mem_append.mp he with he | he
    · exact mem_placedOne_given.mpr (.inl (h.told _ told hb e he))
    · exact mem_append_right _ he
  · show s.captures = s.placed + 1 + left.length
    simp only [map_some, getD_some, Batch.untold, length_cons] at hcount
    omega
  · intro o' ho'
    obtain rfl : o = o' := Option.some.inj (ho.symm.trans ho')
    exact foldl_max_lt (h.head o ho) fun p hp => (hpos p (by simp [hp])).2
  · rintro o' _ _ ho' ⟨⟩
    obtain rfl : o = o' := Option.some.inj (ho.symm.trans ho')
    refine ⟨hsorted.2.1, fun p hp => ⟨?_, (hpos p (by simp [hp])).2⟩⟩
    exact foldl_max_lt (hpos p (by simp [hp])).1 fun x hx => hsorted.2.2 x hx p hp
  · exact fun _ => h.busy (by rw [hb]; rfl)
  · -- waiting
    intro i hi
    obtain ⟨c, t, hc, ht, -⟩ := h.waiting i (mem_filter.mp hi).1
    obtain ⟨-, hlt, hc'⟩ := placedOne_waiting (o := o) hi hc ht
    exact ⟨c, t, hc', ht, hlt⟩
  · -- tokens
    intro i c' t hc' ht
    obtain ⟨c, hc, -, htoken, -⟩ := placedOne_keeps (o := o) hc'
    exact h.tokens i c t hc (htoken ▸ ht)
  · -- resolved
    intro i c' v hc' hv
    obtain ⟨c, hc, rfl | ⟨rfl, hwait, hle⟩⟩ := placedOne_cover (o := o) hc'
    · obtain ⟨t, ht, hsplit⟩ := h.resolved i _ v hc hv
      exact ⟨t, ht, hsplit.placedOne hlater⟩
    · -- A pause that waited for exactly this capture.
      obtain ⟨c₀, t, hc₀, ht, hlt⟩ := h.waiting i hwait
      obtain rfl : c = c₀ := Option.some.inj (hc.symm.trans hc₀)
      rw [ht, any_some, decide_eq_true_eq] at hle
      obtain rfl : t = s.placed + 1 := by omega
      refine ⟨_, ht, ?_⟩
      by_cases hcov : c.covered = none
      · simp only [Cover.resolve, hcov, getD_none, Option.some.injEq] at hv
        rw [← hv]
        exact splits_placed h o positions
      · obtain ⟨w, hw⟩ := ne_none_iff_exists'.mp hcov
        obtain ⟨t', ht', hsplit⟩ := h.resolved i c w hc hw
        have hlate : t' ≤ s.placed := hsplit.token
        have : s.placed + 1 = t' := Option.some.inj (ht.symm.trans ht')
        omega
  · -- selections
    intro sel hsel n hn
    rcases h.selections sel hsel n hn with hlt | ⟨heq, hsplit⟩
    · exact .inl hlt
    · exact .inr ⟨heq, hsplit.placedOne hlater⟩

/-- The entries the next commit adds are of the journal that is open, above every position before. -/
theorem tells_named {b : Option Batch} (h : Named s) (ho : s.current = some o) (hchecked : o.checked)
    (hlater : ∀ p ∈ positions, s.last < p) : Named { s.placedOne o positions with batch := b } := by
  refine ⟨?_, ?_, h.checked, ?_, ?_⟩
  · intro i c' o' hc' hopen ho'
    obtain ⟨c, hc, hj, -, hended⟩ := placedOne_keeps (o := o) hc'
    exact hj.trans (h.same i c o' hc (hended ▸ hopen) ho')
  · intro i c' t hc' hopen ht e he hlt
    obtain ⟨c, hc, hj, htoken, hended⟩ := placedOne_keeps (o := o) hc'
    rw [hj]
    rcases mem_placedOne_given.mp he with he | ⟨hej, -, -⟩
    · exact h.follows i c t hc (hended ▸ hopen) (htoken ▸ ht) e he hlt
    · exact hej.trans (h.same i c o hc (hended ▸ hopen) ho).symm
  · intro n hn
    rcases h.record n hn with hlt | ⟨heq, hle⟩
    · exact .inl hlt
    · exact .inr ⟨heq, hle.trans (le_foldl_max _ _)⟩
  · intro sel hsel
    obtain ⟨hj, hkept⟩ := h.kept sel hsel
    refine ⟨hj, fun e he hlt => ?_⟩
    rcases mem_placedOne_given.mp he with he | ⟨hej, hp, -⟩
    · exact hkept e he hlt
    · exact h.replayed_above (h.checked o ho hchecked) hej (hlater _ hp)

section

variable (h : Inv s)

include h

theorem tells (hs : s.tells = some s') : Inv s' := by
  revert hs
  fun_cases State.tells <;> rintro ⟨⟩
  rename_i o positions left told hb ho
  obtain ⟨o', ho', hchecked⟩ := h.counted.busy (by rw [hb]; rfl)
  obtain rfl : o = o' := Option.some.inj (ho.symm.trans ho')
  have hpos := (h.counted.ahead o _ told ho hb).2
  exact ⟨tells_counted h.counted ho hb,
    tells_named h.named ho hchecked fun p hp => (hpos p (by simp [hp])).1⟩

theorem completes {ok : Bool} (hs : s.completes ok = some s') : Inv s' := by
  revert hs
  fun_cases State.completes <;> rintro ⟨⟩
  rename_i told hb
  have hcount := h.counted.count
  rw [hb] at hcount
  refine ⟨{ h.counted with answered := ?_, told := ?_, count := ?_, ahead := ?_, busy := ?_ },
    { h.named with }⟩
  · intro e he
    rcases mem_append.mp he with he | he
    · exact h.counted.answered e he
    · split at he
      · exact h.counted.told [] told hb e he
      · cases he
  · rintro left told ⟨⟩
  · exact hcount
  · rintro o left told _ ⟨⟩
  · rintro ⟨⟩

theorem coverOf (hs : s.coverOf i = some s') : Inv s' := by
  revert hs
  fun_cases State.coverOf <;> rintro ⟨⟩
  rename_i o hfree ho
  refine ⟨{ h.counted with waiting := ?_, tokens := ?_, resolved := ?_ },
    { h.named with same := ?_, follows := ?_ }⟩
  · intro k hk
    obtain ⟨c, t, hc, ht, hlt⟩ := h.counted.waiting k hk
    refine ⟨c, t, ?_, ht, hlt⟩
    rw [← hc]
    refine update_of_ne ?_ _ _
    rintro rfl
    rw [hfree] at hc
    cases hc
  · intro k c t hc ht
    rcases update_some hc with ⟨rfl, rfl⟩ | ⟨-, hc⟩
    · cases ht
    · exact h.counted.tokens k c t hc ht
  · intro k c v hc hv
    rcases update_some hc with ⟨rfl, rfl⟩ | ⟨-, hc⟩
    · cases hv
    · exact h.counted.resolved k c v hc hv
  · intro k c o' hc hopen ho'
    rcases update_some hc with ⟨rfl, rfl⟩ | ⟨-, hc⟩
    · obtain rfl : o = o' := Option.some.inj (ho.symm.trans ho')
      rfl
    · exact h.named.same k c o' hc hopen ho'
  · intro k c t hc hopen ht
    rcases update_some hc with ⟨rfl, rfl⟩ | ⟨-, hc⟩
    · cases ht
    · exact h.named.follows k c t hc hopen ht

/-- A cover is replaced by one of the same journal whose token and position are in order. -/
theorem recover {waiting : List Nat} (hc : s.covers i = some c) (hj : c'.journal = c.journal)
    (hended : c'.ended = false → c.ended = false)
    (htoken : c'.token = c.token ∨ c'.token = some s.captures)
    (hcov : ∀ v, c'.covered = some v → ∃ t, c'.token = some t ∧ s.Splits t v)
    (hwait : ∀ k ∈ waiting, k ≠ i ∧ k ∈ s.waiting ∨ k = i ∧ ∃ t, c'.token = some t ∧ s.placed < t) :
    Inv { s with covers := update s.covers i (some c'), waiting := waiting } := by
  have hplaced : s.placed ≤ s.captures := by
    rw [h.counted.count]
    exact Nat.le_add_right _ _
  refine ⟨{ h.counted with waiting := ?_, tokens := ?_, resolved := ?_ },
    { h.named with same := ?_, follows := ?_ }⟩
  · intro k hk
    rcases hwait k hk with ⟨hne, hk⟩ | ⟨rfl, t, ht, hlt⟩
    · obtain ⟨d, t, hd, ht, hlt⟩ := h.counted.waiting k hk
      exact ⟨d, t, (update_of_ne hne _ _).trans hd, ht, hlt⟩
    · exact ⟨c', t, update_self _ _ _, ht, hlt⟩
  · intro k d t hd ht
    rcases update_some hd with ⟨rfl, rfl⟩ | ⟨-, hd⟩
    · rcases htoken with heq | heq
      · exact h.counted.tokens k c t hc (heq ▸ ht)
      · exact Nat.le_of_eq (Option.some.inj (ht.symm.trans heq))
    · exact h.counted.tokens k d t hd ht
  · intro k d v hd hv
    rcases update_some hd with ⟨rfl, rfl⟩ | ⟨-, hd⟩
    · exact hcov v hv
    · exact h.counted.resolved k d v hd hv
  · intro k d o hd hopen ho
    rcases update_some hd with ⟨rfl, rfl⟩ | ⟨-, hd⟩
    · exact hj.trans (h.named.same k c o hc (hended hopen) ho)
    · exact h.named.same k d o hd hopen ho
  · intro k d t hd hopen ht e he hlt
    rcases update_some hd with ⟨rfl, rfl⟩ | ⟨-, hd⟩
    · rcases htoken with heq | heq
      · rw [hj]
        exact h.named.follows k c t hc (hended hopen) (heq ▸ ht) e he hlt
      · -- No capture has begun after the pause.
        have := (h.counted.given e he).1
        have : t = s.captures := Option.some.inj (ht.symm.trans heq)
        omega
    · exact h.named.follows k d t hd hopen ht e he hlt

theorem paused (hs : s.paused i = some s') : Inv s' := by
  obtain ⟨c, hc, hs⟩ := bind_eq_some_iff.mp hs
  obtain ⟨hfirst, hs⟩ := ite_none_right_eq_some.mp hs
  rw [Bool.and_eq_true, isNone_iff_eq_none] at hfirst
  have hnot : c.covered = none := by
    by_contra hsome
    obtain ⟨v, hv⟩ := ne_none_iff_exists'.mp hsome
    obtain ⟨t, ht, -⟩ := h.counted.resolved i c v hc hv
    rw [hfirst.1] at ht
    cases ht
  have hwas : ∀ k ∈ s.waiting, k ≠ i := by
    rintro k hk rfl
    obtain ⟨d, t, hd, ht, -⟩ := h.counted.waiting k hk
    obtain rfl : c = d := Option.some.inj (hc.symm.trans hd)
    rw [hfirst.1] at ht
    cases ht
  have hcount := h.counted.count
  simp only at hs
  split at hs
  case isTrue hle =>
    cases hs
    refine h.recover hc rfl id (.inr rfl) ?_ fun k hk => .inl ⟨hwas k hk, hk⟩
    intro v hv
    simp only [Cover.resolve, hnot, getD_none, Option.some.injEq] at hv
    refine ⟨s.captures, rfl, ?_⟩
    obtain rfl : s.last = v := hv
    obtain heq : s.captures = s.placed := by omega
    rw [heq]
    exact h.counted.splits_last
  case isFalse hgt =>
    cases hs
    refine h.recover hc rfl id (.inr rfl) ?_ ?_
    · intro v hv
      rw [hnot] at hv
      cases hv
    · intro k hk
      rcases mem_append.mp hk with hk | hk
      · exact .inl ⟨hwas k hk, hk⟩
      · rw [mem_singleton] at hk
        exact .inr ⟨hk, s.captures, rfl, by omega⟩

theorem ended (hc : s.covers i = some c) :
    Inv { s with covers := update s.covers i (some { c with ended := true }) } := by
  refine h.recover hc rfl nofun (.inl rfl)
    (fun v hv => h.counted.resolved i c v hc hv) ?_
  intro k hk
  by_cases hki : k = i
  · subst hki
    obtain ⟨d, t, hd, ht, hlt⟩ := h.counted.waiting k hk
    obtain rfl : c = d := Option.some.inj (hc.symm.trans hd)
    exact .inr ⟨rfl, t, ht, hlt⟩
  · exact .inl ⟨hki, hk⟩

theorem selects (hs : s.selects i = some s') : Inv s' := by
  obtain ⟨c, hc, hs⟩ := bind_eq_some_iff.mp hs
  split at hs <;> cases hs
  rename_i token covered hopen ht hv
  obtain ⟨t, ht', hsplit⟩ := h.counted.resolved i c covered hc hv
  obtain rfl : token = t := Option.some.inj (ht.symm.trans ht')
  have hmem : ∀ n ∈ c.journals s.epoch s.journals covered, n.epoch < s.epoch ∨
      n = ⟨c.journal.disk, c.journal.generation, s.epoch, covered⟩ := by
    intro n hn
    rcases mem_append.mp hn with hn | hn
    · split at hn
      · exact .inl (by simpa using (mem_filter.mp hn).2)
      · cases hn
    · exact .inr (mem_singleton.mp hn)
  have hnow : ⟨c.journal.disk, c.journal.generation, s.epoch, covered⟩ ∈
      c.journals s.epoch s.journals covered :=
    mem_append_right _ mem_cons_self
  have hbase := h.ended hc
  refine ⟨{ hbase.counted with selections := ?_ },
    { hbase.named with checked := ?_, record := ?_, kept := ?_ }⟩
  · intro sel hsel n hn
    rcases mem_append.mp hsel with hsel | hsel
    · exact h.counted.selections sel hsel n hn
    · rw [mem_singleton] at hsel
      subst hsel
      rcases hmem n hn with hlt | rfl
      · exact .inl hlt
      · exact .inr ⟨rfl, hsplit⟩
  · -- The journal open now is the one the checkpoint names.
    intro o ho _
    refine any_eq_true.mpr ⟨_, hnow, ?_⟩
    simp [ident, h.named.same i c o hc hopen ho]
  · intro n hn
    rcases hmem n hn with hlt | rfl
    · exact .inl hlt
    · exact .inr ⟨rfl, hsplit.below⟩
  · intro sel hsel
    rw [getLast?_append, getLast?_singleton, some_or, Option.some.injEq] at hsel
    subst hsel
    refine ⟨rfl, fun e he hlt => ?_⟩
    have hej := h.named.follows i c token hc hopen ht e he hlt
    refine any_eq_true.mpr ⟨_, hnow, ?_⟩
    simp [ident, hej, hsplit.after e he hlt]

theorem givesUp (hs : s.givesUp i = some s') : Inv s' := by
  obtain ⟨c, hc, hs⟩ := bind_eq_some_iff.mp hs
  obtain ⟨-, hs⟩ := ite_none_left_eq_some.mp hs
  cases hs
  exact h.ended hc

end

end Inv

theorem Inv.step {a : Action} (h : Inv s) (hok : s.Above a) (hs : s.step a = some s') : Inv s' := by
  cases a with
  | opens j head => exact h.opens hok hs
  | closes => exact h.closes hs
  | checks => exact h.checks hs
  | captured => exact h.captured hs
  | places positions next => exact h.places hs
  | tells => exact h.tells hs
  | completes ok => exact h.completes hs
  | coverOf i => exact h.coverOf hs
  | paused i => exact h.paused hs
  | selects i => exact h.selects hs
  | givesUp i => exact h.givesUp hs
  | copied =>
    cases hs
    exact ⟨{ h.counted with }, { h.named with }⟩

/-! ## Covered positions -/

/-- The host's journal disk in the runs below. -/
def sampleJournal : Ident := ⟨Control.noDisk, 7⟩

end Sproutfs.HostJournal

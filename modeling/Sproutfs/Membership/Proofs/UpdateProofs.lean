import Sproutfs.Membership.Store
import Sproutfs.Membership.Proofs.ChainProofs

/-!
# Updates of the membership are one chain

A write lands only over the version its caller read, so the versions of the object follow one another by
`Step` however the calls interleave, and a call that returns success returns a version it built from the
one directly below it.
-/

namespace Sproutfs.Cluster

open Machine List Option Function CasStore

/-- What the next version follows, after the versions `l`. -/
def below (l : List (Version Membership Nat)) : Membership :=
  (l.getLast?.map Version.value).getD Membership.empty

@[simp] theorem below_nil : below [] = Membership.empty := rfl

@[simp] theorem below_concat (l : List (Version Membership Nat)) (v : Version Membership Nat) :
    below (l ++ [v]) = v.value := by
  simp [below]

namespace Updates

variable (change : Nat → Membership → Except Error Membership) {call nonce : Nat} {a : UpdateAction}
  {store : Store Membership Nat} {w : Writing}

/-- The histories the membership's object can have. -/
abbrev History (store : Store Membership Nat) : Prop :=
  Sound (fun m => Cluster.step Membership.empty m = .ok ())
    (fun a b => Cluster.step a b = .ok ()) store

/-- A write is the change of its call over what the call read. -/
structure Made (versions : List (Version Membership Nat)) (call : Nat) (w : Writing) : Prop where
  changed : ∃ next nonce, change call w.read = .ok next ∧
    w.next = { next with nonce := some nonce }
  follows : Cluster.step w.read w.next = .ok ()
  absent : w.etag = none → w.read = Membership.empty
  present : ∀ t, w.etag = some t → ∃ v ∈ versions, v.tag = t ∧ v.value = w.read

structure Inv (s : Updates) : Prop where
  history : History s.store
  absent : s.store.stored = none → s.store.versions = []
  lives : ∀ u ∈ s.store.versions, ∀ v ∈ s.store.versions, u.life = v.life
  made : ∀ p ∈ s.made, Made change s.store.versions p.1 p.2
  used : ∀ p ∈ s.made, ∃ n ∈ s.nonces, p.2.next.nonce = some n
  nonces : ∀ p ∈ s.made, ∀ q ∈ s.made, p.2.next.nonce = q.2.next.nonce → p = q
  /-- Every version is a write made over the version below it. -/
  origin : ∀ l v r, s.store.versions = l ++ v :: r →
    ∃ p ∈ s.made, p.2.next = v.value ∧ p.2.read = below l
  writing : ∀ call w, s.calls call = .writing w ∨ s.calls call = .readBack w → (call, w) ∈ s.made
  done : ∀ call m, s.calls call = .done (.stored m) →
    ∃ w, (call, w) ∈ s.made ∧ w.next = m ∧ s.Stored w

variable {change} {s s' : Updates} {size : Membership → Nat}

theorem inv_init : Inv change {} where
  history := sound_empty
  absent _ := rfl
  lives := by simp
  made := by simp
  used := by simp
  nonces := by simp
  origin := by simp
  writing := by simp
  done := by simp

/-- A step that is not a landing takes one call further. -/
structure Turns (s s' : Updates) (a : UpdateAction) (call : Nat) (p : Phase) : Prop where
  store : s'.store = s.store
  calls : s'.calls = Function.update s.calls call p
  unchanged : ∀ m, p = .done (.unchanged m) → m = s.read.1
  made : ∀ q ∈ s'.made, q ∈ s.made ∨ ∃ nonce, a = .read q.1 nonce

theorem turns_set {p : Phase} (hp : ∀ m, p = .done (.unchanged m) → m = s.read.1 := by simp) :
    Turns s (s.set call p) a call p :=
  ⟨rfl, rfl, hp, fun _ hq => .inl hq⟩

theorem turns_begin (call nonce : Nat) (changed : Except Error Membership) :
    ∃ p, Turns s (s.begin call nonce changed) (.read call nonce) call p := by
  unfold Updates.begin
  split
  · refine ⟨_, turns_set fun m hm => ?_⟩
    cases hm
    rfl
  · exact ⟨_, turns_set⟩
  · split
    · exact ⟨_, turns_set⟩
    · refine ⟨_, rfl, rfl, by simp, fun q hq => ?_⟩
      rcases mem_append.mp hq with hq | hq
      · exact .inl hq
      · rw [mem_singleton.mp hq]
        exact .inr ⟨nonce, rfl⟩

theorem step_turns (hs : s.step change size a = some s') :
    (∃ index tag, a = .lands index tag) ∨ ∃ call p, Turns s s' a call p := by
  obtain hl | hnot := em (∃ index tag, a = .lands index tag)
  · exact .inl hl
  refine .inr ?_
  revert hs
  fun_cases Updates.step change size s a <;> first | rintro ⟨⟩ | exact absurd ⟨_, _, rfl⟩ hnot
  next call nonce _ _ => exact ⟨call, turns_begin call nonce _⟩
  next call _ => exact ⟨call, _, turns_set⟩
  next call _ _ => exact ⟨call, _, turns_set⟩
  next call _ _ _ => exact ⟨call, _, turns_set⟩
  next call _ _ _ => exact ⟨call, _, turns_set⟩
  next call _ _ => exact ⟨call, _, turns_set⟩
  next call _ _ =>
    unfold Updates.settle
    split_ifs <;> exact ⟨call, _, turns_set⟩

theorem lands_cases {index tag : Nat} (hs : s.step change size (.lands index tag) = some s') :
    ∃ call w store, s.made[index]? = some (call, w) ∧ Lands s.store w.write store ∧
      s' = { s with store } := by
  simp only [Updates.step] at hs
  split at hs
  · cases hs
  · next call w hp =>
    split_ifs at hs
    obtain ⟨store, hland, rfl⟩ := map_eq_some_iff.mp hs
    exact ⟨call, w, store, hp, (Store.lands_of_land hland).1, rfl⟩

section

variable (h : Inv change s)

include h

theorem Inv.read :
    s.read.1 = below s.store.versions ∧ (s.read.2 = none → s.read.1 = Membership.empty) ∧
      ∀ t, s.read.2 = some t → ∃ v ∈ s.store.versions, v.tag = t ∧ v.value = s.read.1 := by
  unfold Updates.read
  split
  · rename_i hs
    rw [h.absent hs]
    exact ⟨rfl, fun _ => rfl, nofun⟩
  · rename_i v hs
    obtain ⟨hlast, -⟩ := h.history.stored v hs
    refine ⟨by simp [below, hlast], nofun, fun t ht => ?_⟩
    cases ht
    exact ⟨v, mem_of_getLast? hlast, rfl, rfl⟩

theorem Inv.set {p : Phase}
    (hd : ∀ m, p = .done (.stored m) → ∃ w, (call, w) ∈ s.made ∧ w.next = m ∧ s.Stored w := by simp)
    (hw : ∀ w, p = .writing w ∨ p = .readBack w → (call, w) ∈ s.made := by simp) :
    Inv change (s.set call p) :=
  { h with
    writing := by
      intro c w hc
      by_cases hcc : c = call
      · subst hcc
        simp only [Updates.set, update_self] at hc
        exact hw w hc
      · simp only [Updates.set, update_of_ne hcc] at hc
        exact h.writing c w hc
    done := by
      intro c m hc
      by_cases hcc : c = call
      · subst hcc
        simp only [Updates.set, update_self] at hc
        exact hd m hc
      · simp only [Updates.set, update_of_ne hcc] at hc
        exact h.done c m hc }

theorem Inv.send {next : Membership} (hn : nonce ∉ s.nonces) (hc : change call s.read.1 = .ok next)
    (hs : Cluster.step s.read.1 next = .ok ()) :
    Inv change { s.set call (.writing ⟨s.read.1, s.read.2, { next with nonce := some nonce }⟩) with
      made := s.made ++ [(call, ⟨s.read.1, s.read.2, { next with nonce := some nonce }⟩)]
      nonces := nonce :: s.nonces } := by
  obtain ⟨-, habsent, hpresent⟩ := h.read
  -- a nonce drawn before is none of the fresh one
  have hfresh : ∀ p ∈ s.made, p.2.next.nonce ≠ some nonce := by
    intro p hp he
    obtain ⟨n, hmem, hpn⟩ := h.used p hp
    rw [hpn] at he
    cases he
    exact hn hmem
  refine { h with made := ?_, used := ?_, nonces := ?_, origin := ?_, writing := ?_, done := ?_ }
  · intro p hp
    rcases mem_append.mp hp with hp | hp
    · exact h.made p hp
    · cases mem_singleton.mp hp
      exact ⟨⟨next, nonce, hc, rfl⟩, hs, habsent, hpresent⟩
  · intro p hp
    rcases mem_append.mp hp with hp | hp
    · obtain ⟨n, hmem, hpn⟩ := h.used p hp
      exact ⟨n, mem_cons_of_mem _ hmem, hpn⟩
    · cases mem_singleton.mp hp
      exact ⟨nonce, mem_cons_self, rfl⟩
  · intro p hp q hq hpq
    rcases mem_append.mp hp with hp | hp <;> rcases mem_append.mp hq with hq | hq
    · exact h.nonces p hp q hq hpq
    · cases mem_singleton.mp hq
      exact absurd hpq (hfresh p hp)
    · cases mem_singleton.mp hp
      exact absurd hpq.symm (hfresh q hq)
    · rw [mem_singleton.mp hp, mem_singleton.mp hq]
  · intro l v r hl
    obtain ⟨p, hp, hpv⟩ := h.origin l v r hl
    exact ⟨p, mem_append_left _ hp, hpv⟩
  · intro c w hcw
    by_cases hcc : c = call
    · subst hcc
      simp only [Updates.set, update_self] at hcw
      rcases hcw with hcw | hcw
      · cases hcw
        exact mem_append_right _ (mem_singleton_self _)
      · cases hcw
    · simp only [Updates.set, update_of_ne hcc] at hcw
      exact mem_append_left _ (h.writing c w hcw)
  · intro c m hcm
    by_cases hcc : c = call
    · subst hcc
      simp [Updates.set] at hcm
    · simp only [Updates.set, update_of_ne hcc] at hcm
      obtain ⟨w, hw, hwm, hst⟩ := h.done c m hcm
      exact ⟨w, mem_append_left _ hw, hwm, hst⟩

theorem Inv.begin (hn : nonce ∉ s.nonces) : Inv change (s.begin call nonce (change call s.read.1)) := by
  unfold Updates.begin
  split
  · exact h.set
  · exact h.set
  · next next hc =>
    split
    · exact h.set
    · next hs => exact h.send hn hc hs

theorem Inv.lands_top (hp : (call, w) ∈ s.made) (hl : Lands s.store w.write store) :
    ∃ v, store.versions = s.store.versions ++ [v] ∧ v.value = w.next ∧
      w.read = below s.store.versions ∧ store.stored ≠ none ∧
      ∀ u ∈ s.store.versions, u.life = v.life := by
  have hmade := h.made _ hp
  rcases he : w.etag with _ | t
  · simp only [Writing.write, he] at hl
    cases hl with
    | create next tag hs ht =>
      have hnil := h.absent hs
      exact ⟨_, rfl, rfl, by rw [hmade.absent he, hnil]; rfl, by simp, by simp [hnil]⟩
  · simp only [Writing.write, he] at hl
    generalize hw : w.next = next at hl
    cases hl with
    | replace v _ tag hs ht =>
      obtain ⟨hlast, hlife⟩ := h.history.stored v hs
      have hv := mem_of_getLast? hlast
      obtain ⟨u, hu, hut, hur⟩ := hmade.present _ he
      have hread : w.read = v.value := hur ▸ h.history.tags u hu v hv hut
      refine ⟨_, rfl, rfl, by simp [below, hlast, hread], by simp, fun x hx => ?_⟩
      exact (h.lives x hx v hv).trans hlife

theorem Inv.lands (hp : (call, w) ∈ s.made) (hl : Lands s.store w.write store) :
    Inv change { s with store := store } := by
  have hmade := h.made _ hp
  have hobeys : w.write.Obeys (fun m => Cluster.step Membership.empty m = .ok ())
      (fun a b => Cluster.step a b = .ok ()) s.store := by
    rcases he : w.etag with _ | t
    · have hread := hmade.absent he
      have hfollows := hmade.follows
      simp only [Writing.write, he, Write.Obeys]
      exact hread ▸ hfollows
    · obtain ⟨v, hv, htag, hval⟩ := hmade.present t he
      simp only [Writing.write, he, Write.Obeys]
      exact ⟨v, hv, htag, hval ▸ hmade.follows⟩
  obtain ⟨v, hversions, hval, hread, hstored, hlife⟩ := h.lands_top hp hl
  have hmono : ∀ u ∈ s.store.versions, u ∈ store.versions := fun u hu => by
    rw [hversions]
    exact mem_append_left _ hu
  refine { h with
    history := h.history.lands hobeys hl
    absent := fun hs => absurd hs hstored
    lives := ?_, made := ?_, origin := ?_, done := ?_ }
  · intro a ha b hb
    rw [hversions] at ha hb
    rcases mem_append.mp ha with ha | ha <;> rcases mem_append.mp hb with hb | hb
    · exact h.lives a ha b hb
    · rw [mem_singleton.mp hb]
      exact hlife a ha
    · rw [mem_singleton.mp ha]
      exact (hlife b hb).symm
    · rw [mem_singleton.mp ha, mem_singleton.mp hb]
  · intro p hp
    obtain ⟨hc, hf, ha, hpr⟩ := h.made p hp
    refine ⟨hc, hf, ha, fun t ht => ?_⟩
    obtain ⟨u, hu, hut⟩ := hpr t ht
    exact ⟨u, hmono u hu, hut⟩
  · intro l x r hlx
    rw [hversions] at hlx
    rcases eq_nil_or_concat r with rfl | ⟨r', y, rfl⟩
    · obtain ⟨rfl, hx⟩ := append_inj' hlx rfl
      cases hx
      exact ⟨(call, w), hp, hval.symm, hread⟩
    · have hlx' : s.store.versions ++ [v] = (l ++ x :: r') ++ [y] := by simpa using hlx
      obtain ⟨hl', -⟩ := append_inj' hlx' rfl
      exact h.origin l x r' hl'
  · intro c m hc
    obtain ⟨w', hw', hm, u, hu, huw⟩ := h.done c m hc
    exact ⟨w', hw', hm, u, hmono u hu, huw⟩

/-- The object as it reads changes only where a write lands, which was made over what was read
before. -/
theorem Inv.step_read (hs : s.step change size a = some s') :
    s'.read = s.read ∨ ∃ index tag call w, a = .lands index tag ∧
      s.made[index]? = some (call, w) ∧ w.read = s.read.1 ∧ s'.read.1 = w.next := by
  rcases step_turns hs with ⟨index, tag, rfl⟩ | ⟨call, p, ht⟩
  · obtain ⟨call, w, store, hp, hlands, rfl⟩ := lands_cases hs
    have hmem := mem_of_getElem? hp
    obtain ⟨v, hversions, hval, hread, -⟩ := h.lands_top hmem hlands
    refine .inr ⟨index, tag, call, w, rfl, hp, hread.trans h.read.1.symm, ?_⟩
    rw [(h.lands hmem hlands).read.1, hversions, below_concat, hval]
  · unfold Updates.read
    rw [ht.store]
    exact .inl rfl

theorem Inv.nonce_stored (hp : (call, w) ∈ s.made) (hn : s.read.1.nonce = w.next.nonce) :
    s.read.1 = w.next ∧ s.Stored w := by
  obtain ⟨n, -, hused⟩ := h.used _ hp
  unfold Updates.read at hn ⊢
  split at hn
  · rw [hused] at hn
    cases hn
  · rename_i v hs
    have hv := mem_of_getLast? (h.history.stored v hs).1
    obtain ⟨l, r, hl⟩ := append_of_mem hv
    obtain ⟨p, hpm, hpv, -⟩ := h.origin l v r hl
    have hpw : p = (call, w) := h.nonces p hpm _ hp (by rw [hpv]; exact hn)
    subst hpw
    exact ⟨hpv.symm, v, hv, hpv.symm⟩

theorem Inv.settle (hp : (call, w) ∈ s.made) : Inv change (s.settle call w) := by
  unfold Updates.settle
  split_ifs with hn
  · obtain ⟨heq, hst⟩ := h.nonce_stored hp hn
    refine h.set fun m hm => ?_
    cases hm
    exact ⟨w, hp, heq.symm, hst⟩
  · exact h.set
  · exact h.set

theorem Inv.step (hs : s.step change size a = some s') : Inv change s' := by
  obtain ⟨index, tag, rfl⟩ | hnot := em (∃ index tag, a = .lands index tag)
  · obtain ⟨call, w, store, hp, hlands, rfl⟩ := lands_cases hs
    exact h.lands (mem_of_getElem? hp) hlands
  revert hs
  fun_cases Updates.step change size s a <;> first | rintro ⟨⟩ | exact absurd ⟨_, _, rfl⟩ hnot
  next hn => exact h.begin hn
  next => exact h.set
  next => exact h.set
  next call w hc hst =>
    refine h.set fun m hm => ?_
    cases hm
    exact ⟨w, h.writing call w (.inl hc), rfl, hst⟩
  next => exact h.set
  next call w hc =>
    refine h.set (by simp) fun w' hw => ?_
    rcases hw with hw | hw <;> cases hw
    exact h.writing call w (.inl hc)
  next call w hc => exact h.settle (h.writing call w (.inr hc))

theorem Inv.read_stored : s.read.1 = Membership.empty ∨ ∃ v ∈ s.store.versions, v.value = s.read.1 := by
  cases ht : s.read.2 with
  | none => exact .inl (h.read.2.1 ht)
  | some t =>
    obtain ⟨v, hv, -, hval⟩ := h.read.2.2 t ht
    exact .inr ⟨v, hv, hval⟩

end

theorem Inv.lands_versions (h : Inv change s) {index tag : Nat}
    (hs : s.step change size (.lands index tag) = some s') :
    s'.calls = s.calls ∧ s'.made = s.made ∧
      ∃ v, s'.store.versions = s.store.versions ++ [v] ∧ v.value = s'.read.1 := by
  have hread := (h.step hs).read.1
  obtain ⟨call, w, store, hp, hlands, rfl⟩ := lands_cases hs
  obtain ⟨v, hversions, -⟩ := h.lands_top (mem_of_getElem? hp) hlands
  refine ⟨rfl, rfl, v, hversions, ?_⟩
  rw [hread, hversions, below_concat]

theorem Inv.of_runs (h : Runs (Updates.step change size) (fun _ _ => True) {} s) :
    Inv change s :=
  Runs.invariant (fun _ _ _ hi _ hs => hi.step hs) inv_init h

theorem Inv.distinct (h : Inv change s) {l r : List (Version Membership Nat)}
    {v : Version Membership Nat} (hv : s.store.versions = l ++ v :: r) :
    ∀ u ∈ l ++ r, u.value ≠ v.value := by
  have hlt := h.history.pairwise (R := fun a b => a.generation < b.generation)
    (fun _ _ _ => lt_trans) fun a b hs => by rw [(step_ok hs).1]; exact Nat.lt_succ_self _
  have hlives := h.lives
  rw [hv] at hlt hlives
  obtain ⟨-, hvr, hlv⟩ := pairwise_append.mp hlt
  intro u hu he
  rcases mem_append.mp hu with hu | hu
  · have := hlv u hu v (by simp) (hlives u (by simp [hu]) v (by simp))
    rw [he] at this
    exact lt_irrefl _ this
  · have := (pairwise_cons.mp hvr).1 u hu (hlives v (by simp) u (by simp [hu]))
    rw [he] at this
    exact lt_irrefl _ this

/-- However calls of `Update` interleave, the versions of the object follow one another by `Step`,
each written by a call over the version directly below it, which that call read; and a call that
returned success returned a version its change made over the one directly below, stored once. -/
theorem updates_make_one_chain
    (h : Machine.Runs (Updates.step change size) (fun _ _ => True) {} s) :
    (∀ l v r, s.store.versions = l ++ v :: r →
      Cluster.step (below l) v.value = .ok () ∧
      v.value.generation = (below l).generation + 1 ∧
      ∃ call w, (call, w) ∈ s.made ∧ w.next = v.value ∧ w.read = below l) ∧
    ∀ call m, s.calls call = .done (.stored m) →
      ∃ l v r, s.store.versions = l ++ v :: r ∧ v.value = m ∧ (∀ u ∈ l ++ r, u.value ≠ m) ∧
        ∃ next, change call (below l) = .ok next ∧ m = { next with nonce := m.nonce } := by
  have hi := Inv.of_runs h
  constructor
  · intro l v r hv
    obtain ⟨p, hp, hpv, hpr⟩ := hi.origin l v r hv
    have hs : Cluster.step (below l) v.value = .ok () := hpr ▸ hpv ▸ (hi.made p hp).follows
    exact ⟨hs, (step_ok hs).1, p.1, p.2, hp, hpv, hpr⟩
  · intro call m hm
    obtain ⟨w, hw, rfl, v, hv, hvw⟩ := hi.done call m hm
    obtain ⟨l, r, hl⟩ := append_of_mem hv
    refine ⟨l, v, r, hl, hvw, hvw ▸ hi.distinct hl, ?_⟩
    obtain ⟨p, hp, hpv, hpr⟩ := hi.origin l v r hl
    -- the write the version came from is the call's own
    have hpw : p = (call, w) := hi.nonces p hp _ hw (by rw [hpv, hvw])
    subst hpw
    obtain ⟨next, nonce, hc, hn⟩ := (hi.made _ hp).changed
    rw [hpr] at hc
    exact ⟨next, hc, by rw [hn]⟩

/-- Call 0 sets a disk's weight to 9 and call 1 to 3; every other call adds the disk. -/
def sampleChange : Nat → Membership → Except Error Membership
  | 0, m => m.weigh 5 9
  | 1, m => m.weigh 5 3
  | _, m => m.add { id := 5, weight := 3 }

/-- The first weighing lands and its caller is told that its condition failed; another caller weighs
the disk back; the first weighs it again. -/
def weighsTwice : List UpdateAction :=
  [.read 2 0, .lands 0 100, .succeeds 2, .read 0 1, .lands 1 101, .read 1 2, .lands 2 102,
    .succeeds 1, .precondition 0, .read 0 3, .lands 3 103, .succeeds 0]

def weighedTwice : Option Updates :=
  Machine.exec (Updates.step sampleChange fun _ => 0) (fun _ _ => true) {} weighsTwice

theorem weighedTwice_isSome : weighedTwice.isSome := by decide

def weighed : Updates := weighedTwice.get weighedTwice_isSome

/-- A change whose call returned success may have taken effect twice: its first write landed and was
reported as a failed condition. -/
theorem change_takes_effect_twice :
    ∃ s, Machine.Runs (Updates.step sampleChange fun _ => 0) (fun _ _ => True) {} s ∧
      ∃ m w w', s.calls 0 = .done (.stored m) ∧ (0, w) ∈ s.made ∧ (0, w') ∈ s.made ∧ w ≠ w' ∧
        s.Stored w ∧ s.Stored w' := by
  refine ⟨weighed,
    exec_runs (fun _ _ _ => trivial) (some_get weighedTwice_isSome).symm,
    (weighed.made.get ⟨3, by decide⟩).2.next, (weighed.made.get ⟨1, by decide⟩).2,
    (weighed.made.get ⟨3, by decide⟩).2, by decide, by decide, by decide, by decide, by decide,
    by decide⟩

theorem updates_make_one_chain_sample :
    weighed.store.versions.length = 4 ∧
      ∃ l v r, weighed.store.versions = l ++ v :: r ∧
        v.value = (weighed.made.get ⟨3, by decide⟩).2.next := by
  have hruns : Runs (Updates.step sampleChange fun _ => 0) (fun _ _ => True) {} weighed :=
    exec_runs (fun _ _ _ => trivial) (some_get weighedTwice_isSome).symm
  obtain ⟨l, v, r, hl, hv, -⟩ := (updates_make_one_chain hruns).2 0
    (weighed.made.get ⟨3, by decide⟩).2.next (by decide)
  exact ⟨by decide, l, v, r, hl, hv⟩

end Updates

end Sproutfs.Cluster

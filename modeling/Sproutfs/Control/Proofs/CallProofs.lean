import Sproutfs.Control.Invariant

/-!
# Every call takes lawful turns

First what each write makes of the record it replaces, then, call by call, that what a call sends and
keeps follows from what it knew and what it was answered.
-/

namespace Sproutfs.Control

open Option CasStore

/-! ## Records -/

namespace Record

variable {q epoch wanted : Nat} {o : Opening} {v : RecordVersion} {e : Error}
  {handles : Nat → Option Handle} {journals : List Journal}

theorem mem_withPin {r : Record} {x : Nat} : x ∈ r.withPin q ↔ x = q ∨ x ∈ r.pinned := by
  unfold withPin
  by_cases hq : q ∈ r.pinned
  · simp only [isPinned, hq, decide_true, if_true]
    constructor
    · exact .inr
    · rintro (rfl | h)
      · exact hq
      · exact h
  · simp only [isPinned, hq, decide_false, Bool.false_eq_true, if_false, List.mem_append,
      List.mem_cons]
    rw [or_left_comm, ← List.mem_append, List.takeWhile_append_dropWhile]

theorem mine_iff {r : Record} {nonce : Nonce} : r.mine epoch nonce ↔ r.epoch = epoch ∧ r.nonce = nonce := by
  simp [mine]

variable {r' next record current : Record}

theorem equal_iff {r : Record} : r.equal r' ↔ r = r' := by simp [equal]

theorem Next.of_eq_fields {r : Record} (hvm : r'.vm = r.vm) (hepoch : r'.epoch = r.epoch)
    (hnonce : r'.nonce = r.nonce) (hsel : r'.selected = r.selected) (hpin : ∀ q ∈ r.pinned, q ∈ r'.pinned)
    (hv : r'.valid) : r.Next r' :=
  ⟨hvm, hv, hepoch.ge, fun _ => hnonce, .inl hsel, hpin⟩

end Record

theorem Opening.next_next (o : Opening) {r : Record} (hv : (o.next r).valid) :
    r.Next (o.next r) where
  vm := rfl
  valid := hv
  epoch := Nat.le_succ _
  nonce h := absurd h (Nat.succ_ne_self _)
  selected := .inl rfl
  pinned _ h := h

theorem pinNext_next {r : Record} (hv : (pinNext q r).valid) : r.Next (pinNext q r) :=
  .of_eq_fields rfl rfl rfl rfl (fun _ h => Record.mem_withPin.mpr (.inr h)) hv

theorem releaseNext_next {r : Record} (hv : (releaseNext q r).valid) : r.Next (releaseNext q r) :=
  .of_eq_fields rfl rfl rfl rfl (fun _ h => h) hv

/-- What a mutation leaves alone, and what it makes of the selection. -/
structure Mutated (m : Mutation) (e : Nat) (r r' : Record) : Prop where
  vm : r'.vm = r.vm
  epoch : r'.epoch = r.epoch
  nonce : r'.nonce = r.nonce
  selected : r'.selected = r.selected ∨ (r.selected ≤ r'.selected ∧ epochOf r'.selected = e)
  pinned : ∀ q ∈ r.pinned, q ∈ r'.pinned
  done : m.Done r'

theorem withJournals_ok {r : Record} (h : withJournals r journals = .ok r') :
    r' = { r with journals := journals } := by
  unfold withJournals at h
  split at h
  · exact (Except.ok.inj h).symm
  · cases h

theorem selecting_selected {sequence : Nat} {r : Record}
    (h₁ : ¬ (!validSequence epoch sequence && decide (sequence ≠ r.selected)) = true)
    (h₂ : ¬ sequence < r.selected) :
    sequence = r.selected ∨ (r.selected ≤ sequence ∧ epochOf sequence = epoch) := by
  by_cases hs : sequence = r.selected
  · exact .inl hs
  · have hv : validSequence epoch sequence = true := by simpa [hs] using h₁
    have he : epochOf sequence = epoch := by
      simp only [validSequence, Bool.and_eq_true, decide_eq_true_eq] at hv
      exact hv.1.2
    exact .inr ⟨Nat.le_of_not_lt h₂, he⟩

theorem Mutation.apply_mutated {m : Mutation} {r : Record} (h : m.apply epoch r = .ok r') :
    Mutated m epoch r r' := by
  cases m with
  | select sequence kept journals =>
    simp only [Mutation.apply, selecting] at h
    split at h
    · cases h
    split at h
    · cases h
    have hsel := selecting_selected ‹_› ‹_›
    cases kept with
    | none =>
      rw [withJournals_ok h]
      exact ⟨rfl, rfl, rfl, hsel, fun _ hq => hq, trivial⟩
    | some k =>
      dsimp only at h
      cases hk : r.withKept k with
      | error e => rw [hk] at h; cases h
      | ok kept =>
        rw [hk] at h
        rw [withJournals_ok h]
        exact ⟨rfl, rfl, rfl, hsel, fun _ hq => hq, trivial⟩
  | pin sequence =>
    simp only [Mutation.apply, pinning] at h
    split at h
    · cases h
    cases ha : r.admits sequence with
    | error e => rw [ha] at h; cases h
    | ok u =>
      rw [ha] at h
      cases h
      exact ⟨rfl, rfl, rfl, .inl rfl, fun _ hq => Record.mem_withPin.mpr (.inr hq),
        Record.mem_withPin.mpr (.inl rfl)⟩

theorem Mutated.next {m : Mutation} {r : Record} (h : Mutated m r.epoch r r') (hv : r'.valid) :
    r.Next r' where
  vm := h.vm
  valid := hv
  epoch := h.epoch.ge
  nonce _ := h.nonce
  selected := h.selected.imp_right fun ⟨hle, he⟩ => ⟨hle, he.trans h.epoch.symm⟩
  pinned := h.pinned

/-! ## Turns -/

section Turns

variable {vm : List Char} {s : System} {id : Nat}

theorem Turn.Lawful.of_call {c : Call} (h : c.Knows s id) :
    Turn.Lawful vm s id { call := c } :=
  ⟨h, fun _ hq => (some_ne_none _ hq.symm).elim,
    fun _ _ hh => (some_ne_none _ hh.symm).elim⟩

theorem fails_lawful (e : Error) : (fails e).Lawful vm s id := .of_call trivial

theorem putRequest_some {via : Option Nat} {w : RecordWrite} {q : Request}
    (h : putRequest via next w = some q) : next.valid ∧ q = ⟨via, w⟩ := by
  unfold putRequest at h
  split at h
  · exact ⟨‹_›, (Option.some.inj h).symm⟩
  · cases h

theorem Turn.Lawful.of_put {c : Call} (hc : c.Knows s id) (hv : v ∈ s.store.versions)
    (hnext : next.valid → v.value.Next next)
    (hn : (id, next.nonce) ∈ s.nonces ∨ v.value.nonce = next.nonce) :
    Turn.Lawful vm s id { call := c, request := putRequest none next (.replace v.tag next) } where
  call := hc
  request q hq := by
    obtain ⟨hvalid, rfl⟩ := putRequest_some hq
    exact ⟨⟨v, hv, rfl, hnext hvalid⟩, hn.imp_right fun h => ⟨v, hv, rfl, h⟩,
      fun h hh => (some_ne_none h hh.symm).elim⟩
  handle _ _ hh := (some_ne_none _ hh.symm).elim

theorem Turn.Lawful.of_handle {r : Result} (hr : (Call.returned r).Knows s id) (hv : v ∈ s.store.versions)
    (hn : (id, v.value.nonce) ∈ s.nonces) :
    Turn.Lawful vm s id
      { call := .returned r, handle := some (id, newHandle v.value v.tag v.life) } where
  call := hr
  request _ hq := (some_ne_none _ hq.symm).elim
  handle h hd hh := by
    cases hh
    exact ⟨⟨rfl, hn, ⟨v, hv, rfl, rfl⟩, fun _ => hv⟩, .inr ⟨rfl, r, rfl⟩⟩

theorem create_lawful {selected : Nat} {published : Bool} {nonce : Nonce}
    (hn : (id, nonce) ∈ s.nonces) : (create vm selected published nonce).Lawful vm s id := by
  unfold create
  split
  · exact fails_lawful _
  · refine ⟨hn, fun q hq => ?_, fun _ _ hh => (some_ne_none _ hh.symm).elim⟩
    obtain ⟨hvalid, rfl⟩ := putRequest_some hq
    exact ⟨⟨rfl, hvalid, rfl⟩, hn, fun h hh => (some_ne_none h hh.symm).elim⟩

theorem startOpen_lawful (hn : (id, o.nonce) ∈ s.nonces) : (startOpen vm o).Lawful vm s id := by
  fun_cases startOpen vm o
  case case3 => exact .of_call hn
  all_goals exact fails_lawful _

/-- What a read reports is a version. -/
def Seen (s : System) (r : Except Error RecordVersion) : Prop := ∀ v, r = .ok v → v ∈ s.store.versions

variable {r : Except Error RecordVersion}

theorem createReread_lawful {refused : Bool} (hn : (id, record.nonce) ∈ s.nonces) (hr : Seen s r) :
    (createReread id record refused r).Lawful vm s id := by
  fun_cases createReread id record refused r
  case case2 v hm => exact .of_handle trivial (hr v rfl) ((Record.mine_iff.mp hm).2 ▸ hn)
  all_goals exact fails_lawful _

theorem openRead_lawful (hn : (id, o.nonce) ∈ s.nonces) (hr : Seen s r) :
    (openRead o r).Lawful vm s id := by
  fun_cases openRead o r
  case case5 v _ _ _ => exact .of_put ⟨hn, rfl⟩ (hr v rfl) o.next_next (.inl hn)
  all_goals exact fails_lawful _

theorem openReread_lawful (hn : (id, o.nonce) ∈ s.nonces) (hr : Seen s r) :
    (openReread id o next r).Lawful vm s id := by
  fun_cases openReread id o next r
  · exact fails_lawful _
  · next v hm => exact .of_handle trivial (hr v rfl) ((Record.mine_iff.mp hm).2 ▸ hn)
  · exact .of_call hn
  · exact fails_lawful _

theorem removeRead_lawful (hr : Seen s r) : (removeRead r).Lawful vm s id := by
  cases r with
  | error e => exact fails_lawful _
  | ok v =>
    refine ⟨hr v rfl, fun q hq => ?_, fun _ _ hh => (some_ne_none _ hh.symm).elim⟩
    cases hq
    exact ⟨trivial, trivial, fun h hh => (some_ne_none h hh.symm).elim⟩

theorem removeReread_lawful {current : RecordVersion} (hc : current ∈ s.store.versions) :
    (removeReread current r).Lawful vm s id := by
  fun_cases removeReread current r
  · exact .of_call hc
  · exact fails_lawful _
  · exact fails_lawful _
  · exact .of_call trivial

theorem pinRead_lawful (hr : Seen s r) : (pinRead q r).Lawful vm s id := by
  fun_cases pinRead q r
  case case2 v _ hp => exact .of_call ⟨v, hr v rfl, rfl, of_decide_eq_true hp⟩
  case case5 v _ _ _ _ => exact .of_put trivial (hr v rfl) pinNext_next (.inr rfl)
  all_goals exact fails_lawful _

theorem pinReread_lawful (hr : Seen s r) : (pinReread q wanted current r).Lawful vm s id := by
  fun_cases pinReread q wanted current r
  · exact fails_lawful _
  · next v hp => exact .of_call ⟨v, hr v rfl, rfl, of_decide_eq_true hp⟩
  · exact fails_lawful _
  · exact .of_call trivial

theorem releaseRead_lawful (hr : Seen s r) : (releaseRead q r).Lawful vm s id := by
  fun_cases releaseRead q r
  case case4 v _ _ => exact .of_put trivial (hr v rfl) releaseNext_next (.inr rfl)
  all_goals exact fails_lawful _

theorem releaseReread_lawful : (releaseReread q current r).Lawful vm s id := by
  fun_cases releaseReread q current r
  · exact fails_lawful _
  · exact .of_call trivial
  · exact fails_lawful _
  · exact .of_call trivial

/-! ## The updates of a handle -/

variable {h : Nat} {hd : Handle} {m : Mutation}

theorem finish_lawful {res : Result} (hres : (Call.returned res).Knows s id)
    (ht : hd.Tracks s h) (hh : s.Holds h hd.epoch) : (finish h hd res).Lawful vm s id := by
  refine ⟨hres, fun _ hq => (some_ne_none _ hq.symm).elim, fun h' hd' he => ?_⟩
  cases he
  exact ⟨{ ht with }, .inl hh⟩

theorem settle_tracks (hv : v ∈ s.store.versions) (he : v.value.epoch = hd.epoch)
    (hn : (h, v.value.nonce) ∈ s.nonces) :
    (hd.settle v.value v.tag v.life).Tracks s h where
  epoch := he
  nonce := hn
  version := ⟨v, hv, rfl, rfl⟩
  exact _ := hv

theorem Handle.Tracks.fence (ht : hd.Tracks s h) (etag : ETag) : (hd.fence etag).Tracks s h where
  epoch := ht.epoch
  nonce := ht.nonce
  version := ht.version
  exact hf := by cases hf

theorem update_lawful (ht : hd.Tracks s h) (hh : s.Holds h hd.epoch) :
    (update h hd m).Lawful vm s id := by
  unfold update
  by_cases hf : hd.fenced
  · rw [if_pos hf]
    exact finish_lawful trivial ht hh
  rw [if_neg hf]
  have hv := ht.exact (Bool.not_eq_true _ ▸ hf)
  split
  · exact finish_lawful trivial ht hh
  cases hm : m.apply hd.epoch hd.record with
  | error e => exact finish_lawful trivial ht hh
  | ok next =>
    have hmut := Mutation.apply_mutated hm
    dsimp only
    split
    · rename_i he
      rw [Record.equal_iff] at he
      exact finish_lawful ⟨he ▸ hmut.done, _, hv, rfl, rfl⟩ ht hh
    · have hepoch : next.epoch = hd.epoch := hmut.epoch.trans ht.epoch
      refine ⟨⟨hepoch ▸ hh, hmut.nonce ▸ ht.nonce, hmut.done⟩, fun q hq => ?_, fun h' hd' he => ?_⟩
      · obtain ⟨hvalid, rfl⟩ := putRequest_some hq
        refine ⟨⟨_, hv, rfl, (ht.epoch ▸ hmut).next hvalid⟩, .inr ⟨_, hv, rfl, hmut.nonce.symm⟩,
          fun h' hh' => ?_⟩
        cases hh'
        exact ⟨_, _, rfl, _, hv, rfl, ht.epoch ▸ hh⟩
      · cases he
        exact ⟨{ ht with }, .inl hh⟩

theorem updateReread_lawful (ht : hd.Tracks s h) (hh : s.Holds h hd.epoch)
    (hk : (Call.updateReread h m next).Knows s id) (he : next.epoch = hd.epoch) (hr : Seen s r) :
    (updateReread h hd m next r).Lawful vm s id := by
  fun_cases updateReread h hd m next r
  · exact finish_lawful trivial ht hh
  · next v hvn =>
    rw [Record.equal_iff] at hvn
    refine finish_lawful ⟨hvn ▸ hk.2.2, v, hr v rfl, rfl, rfl⟩ ?_ hh
    exact settle_tracks (hr v rfl) (hvn ▸ he) (hvn ▸ hk.2.1)
  · next v _ hvr =>
    rw [Record.equal_iff] at hvr
    refine finish_lawful trivial ?_ hh
    rw [← hvr]
    exact settle_tracks (hr v rfl) (hvr ▸ ht.epoch) (hvr ▸ ht.nonce)
  · next v _ _ hm =>
    obtain ⟨hme, hmn⟩ := Record.mine_iff.mp hm
    exact update_lawful (settle_tracks (hr v rfl) hme (hmn ▸ hk.2.1)) hh
  · next v _ _ _ => exact finish_lawful trivial (ht.fence v.tag) hh

end Turns

/-! ## A call stays what it is -/

theorem withJournals_error {r : Record} (h : withJournals r journals = .error e) : e.ofOpen = false := by
  unfold withJournals at h
  split at h
  · cases h
  · cases h; rfl

theorem Record.admits_error {r : Record} (h : r.admits q = .error e) : e.ofOpen = false := by
  unfold Record.admits at h
  split at h
  · cases h; rfl
  · cases h

theorem Record.withKept_error {r : Record} {k : Kept} (h : r.withKept k = .error e) : e.ofOpen = false := by
  unfold Record.withKept at h
  split at h
  · cases h
  split at h
  · cases h; rfl
  · cases h

theorem Mutation.apply_error {m : Mutation} {r : Record} (h : m.apply epoch r = .error e) :
    e.ofOpen = false := by
  cases m with
  | select sequence kept journals =>
    simp only [Mutation.apply, selecting] at h
    split at h
    · cases h; rfl
    split at h
    · cases h; rfl
    cases kept with
    | none => exact withJournals_error h
    | some k =>
      dsimp only at h
      cases hk : r.withKept k with
      | error e' =>
        rw [hk] at h
        cases h
        exact Record.withKept_error hk
      | ok kept =>
        rw [hk] at h
        exact withJournals_error h
  | pin sequence =>
    simp only [Mutation.apply, pinning] at h
    split at h
    · cases h; rfl
    cases ha : r.admits sequence with
    | error e' =>
      rw [ha] at h
      cases h
      exact Record.admits_error ha
    | ok u => rw [ha] at h; cases h

section Stays

variable {f : Family} {t : Turn}

theorem Turn.Stays.of_fails (h : e.ofOpen = false) : (fails e).Stays f :=
  .inr ⟨e, rfl, fun he => by cases he.symm.trans h⟩

theorem update_stays (h : Nat) (hd : Handle) (m : Mutation) : (update h hd m).Stays .update := by
  unfold update
  split
  · exact .inr ⟨_, rfl, nofun⟩
  split
  · exact .inr ⟨_, rfl, nofun⟩
  cases hm : m.apply hd.epoch hd.record with
  | error e => exact .inr ⟨e, rfl, fun he => by cases he.symm.trans (Mutation.apply_error hm)⟩
  | ok next =>
    dsimp only
    split
    · exact .inl rfl
    · exact .inl rfl

/-- What a read reports is no error of an open. -/
def Plain (r : Except Error RecordVersion) : Prop := ∀ e, r = .error e → e.ofOpen = false

theorem readRecord_plain (vm : List Char) (v : Option RecordVersion) : Plain (readRecord vm v) := by
  intro e he
  unfold readRecord at he
  split at he
  · cases he; rfl
  split at he
  · cases he; rfl
  · cases he

variable {r : Except Error RecordVersion}

theorem createReread_stays {id : Nat} {refused : Bool} (hr : Plain r) :
    (createReread id record refused r).Stays .create := by
  fun_cases createReread id record refused r
  · next e =>
    split
    · exact .of_fails rfl
    · exact .of_fails (hr e rfl)
  · exact .inl rfl
  · exact .of_fails rfl

theorem openRead_stays : (openRead o r).Stays (.opening o) := by
  fun_cases openRead o r <;> first | exact .inl rfl | exact .inr ⟨_, rfl, fun _ => ⟨o, rfl⟩⟩

theorem openReread_stays {id : Nat} : (openReread id o next r).Stays (.opening o) := by
  fun_cases openReread id o next r <;> first | exact .inl rfl | exact .of_fails rfl

theorem removeRead_stays (hr : Plain r) : (removeRead r).Stays .remove := by
  cases r with
  | error e => exact .of_fails (hr e rfl)
  | ok v => exact .inl rfl

theorem removeReread_stays {current : RecordVersion} : (removeReread current r).Stays .remove := by
  fun_cases removeReread current r <;> first | exact .inl rfl | exact .of_fails rfl

theorem pinRead_stays (hr : Plain r) : (pinRead q r).Stays .pin := by
  fun_cases pinRead q r
  · next e => exact .of_fails (hr e rfl)
  · exact .inl rfl
  · exact .of_fails rfl
  · next ha => exact .of_fails (Record.admits_error ha)
  · exact .inl rfl

theorem pinReread_stays : (pinReread q wanted current r).Stays .pin := by
  fun_cases pinReread q wanted current r <;> first | exact .inl rfl | exact .of_fails rfl

theorem releaseRead_stays (hr : Plain r) : (releaseRead q r).Stays (.release q) := by
  fun_cases releaseRead q r
  · next e => exact .of_fails (hr e rfl)
  · exact .of_fails rfl
  · exact .of_fails rfl
  · exact .inl rfl

theorem releaseReread_stays : (releaseReread q current r).Stays (.release q) := by
  fun_cases releaseReread q current r <;> first | exact .inl rfl | exact .of_fails rfl

theorem updateReread_stays {h : Nat} {hd : Handle} {m : Mutation} :
    (updateReread h hd m next r).Stays .update := by
  fun_cases updateReread h hd m next r
  case case2 => exact .inl rfl
  case case4 => exact update_stays _ _ _
  all_goals exact .inr ⟨_, rfl, nofun⟩

theorem onRead_stays {c : Call} {id : Nat} (hr : Plain r) (ht : c.onRead id handles r = some t) :
    ∃ f, c.family = some f ∧ t.Stays f := by
  cases c with
  | createRead record refused => cases ht; exact ⟨_, rfl, createReread_stays hr⟩
  | openRead o => cases ht; exact ⟨_, rfl, openRead_stays⟩
  | openReread o next => cases ht; exact ⟨_, rfl, openReread_stays⟩
  | removeRead => cases ht; exact ⟨_, rfl, removeRead_stays hr⟩
  | removeReread current => cases ht; exact ⟨_, rfl, removeReread_stays⟩
  | pinRead q => cases ht; exact ⟨_, rfl, pinRead_stays hr⟩
  | pinReread q wanted current => cases ht; exact ⟨_, rfl, pinReread_stays⟩
  | releaseRead q => cases ht; exact ⟨_, rfl, releaseRead_stays hr⟩
  | releaseReread q current => cases ht; exact ⟨_, rfl, releaseReread_stays⟩
  | updateReread h m next =>
    obtain ⟨hd, -, rfl⟩ := map_eq_some_iff.mp ht
    exact ⟨_, rfl, updateReread_stays⟩
  | createPut record => cases ht
  | openPut o etag next => cases ht
  | removeDelete current => cases ht
  | pinPut q wanted current => cases ht
  | releasePut q current => cases ht
  | updateLock h m => cases ht
  | updatePut h m etag next => cases ht
  | returned res => cases ht

theorem onReply_stays {c : Call} {id : Nat} {rep : Reply} (ht : c.onReply id handles rep = some t) :
    ∃ f, c.family = some f ∧ t.Stays f := by
  cases c with
  | updatePut h m etag next =>
    rcases rep with (_ | v) | _ | _
    · cases ht
    · obtain ⟨hd, -, rfl⟩ := map_eq_some_iff.mp ht
      exact ⟨_, rfl, .inl rfl⟩
    · cases ht; exact ⟨_, rfl, .inl rfl⟩
    · cases ht; exact ⟨_, rfl, .inl rfl⟩
  | _ => rcases rep with (_ | v) | _ | _ <;> cases ht <;> exact ⟨_, rfl, .inl rfl⟩

end Stays

end Sproutfs.Control

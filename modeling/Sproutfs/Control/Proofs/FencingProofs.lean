import Sproutfs.Control.Proofs.SystemProofs

/-!
# Fencing

What the versions of one control record show, over every interleaving of its writers and every way a
reply can be lost.
-/

namespace Sproutfs.Control

open CasStore

/-- The epoch of a handle is one the record had in this life. -/
def Handle.InLife (s : System) (hd : Handle) (life : Nat) : Prop :=
  ∃ v ∈ s.store.versions, v.life = life ∧ v.value.mine hd.epoch hd.record.nonce

structure Fencing (s : System) : Prop where
  epochs : s.store.versions.Pairwise fun u v => u.life = v.life → u.value.epoch ≤ v.value.epoch
  /-- A returned handle holds an epoch the record had. -/
  held : ∀ h hd, s.handles h = some hd → hd.InLife s hd.life
  /-- No two returned handles hold the same epoch of one life. -/
  owners : ∀ h hd h' hd' life, s.handles h = some hd → s.handles h' = some hd' → h ≠ h' →
    hd.InLife s life → hd'.InLife s life → hd.epoch ≠ hd'.epoch
  /-- A write issued through a handle takes effect only over a record of the handle's epoch, in a
  life that has had no later one. -/
  writes : ∀ id q h store', (id, q) ∈ s.sent → q.via = some h → Lands s.store q.write store' →
    ∃ hd v, s.handles h = some hd ∧ s.store.stored = some v ∧ v.value.epoch = hd.epoch ∧
      ∀ u ∈ s.store.versions, u.life = v.life → u.value.epoch ≤ hd.epoch
  selections : s.store.versions.Pairwise fun u v =>
    u.life = v.life → u.value.selected ≤ v.value.selected
  /-- A version selects a sequence of its own epoch, or what an earlier version of its life did. -/
  selected : ∀ l v r, s.store.versions = l ++ v :: r → epochOf v.value.selected = v.value.epoch ∨
    ∃ u ∈ l, u.life = v.life ∧ u.value.selected = v.value.selected
  valid : ∀ v ∈ s.store.versions, v.value.valid
  /-- The record and the validator of a handle that is not fenced are those of one version. -/
  tracked : ∀ h hd, s.handles h = some hd → hd.fenced = false →
    ⟨hd.life, hd.record, hd.etag⟩ ∈ s.store.versions

section Fencing

variable {vm : List Char} {s : System}

section

variable (hI : Inv vm s)

include hI

theorem Inv.epochs : s.store.versions.Pairwise fun u v => u.life = v.life → u.value.epoch ≤ v.value.epoch :=
  hI.store.pairwise_le Record.epoch fun _ _ h => h.epoch

theorem Inv.nonce_of_epoch {u v : RecordVersion} (hu : u ∈ s.store.versions) (hv : v ∈ s.store.versions)
    (hl : u.life = v.life) (he : u.value.epoch = v.value.epoch) : u.value.nonce = v.value.nonce := by
  let R : Record → Record → Prop := fun r r' =>
    r.epoch ≤ r'.epoch ∧ (r.epoch = r'.epoch → r.nonce = r'.nonce)
  have htrans : ∀ a b c, R a b → R b c → R a c := by
    rintro a b c ⟨hab, nab⟩ ⟨hbc, nbc⟩
    refine ⟨hab.trans hbc, fun hac => ?_⟩
    have hab' : a.epoch = b.epoch := le_antisymm hab (hac ▸ hbc)
    exact (nab hab').trans (nbc (hab'.symm.trans hac))
  have hp := hI.store.pairwise htrans fun _ _ h => ⟨h.epoch, fun he => (h.nonce he.symm).symm⟩
  -- Which of the two is the older does not matter to what they share.
  let S : RecordVersion → RecordVersion → Prop := fun x y =>
    x.life = y.life → x.value.epoch = y.value.epoch → x.value.nonce = y.value.nonce
  have hS : s.store.versions.Pairwise S := hp.imp fun hxy hl he => (hxy hl).2 he
  have hsymm : Std.Symm S := ⟨fun x y hxy hl he => (hxy hl.symm he.symm).symm⟩
  exact hS.forall_of_forall (fun _ _ _ _ => rfl) hu hv hl he

theorem Inv.owners {h h' : Nat} {hd hd' : Handle} {life : Nat} (hh : s.handles h = some hd)
    (hh' : s.handles h' = some hd') (hne : h ≠ h') (hl : hd.InLife s life) (hl' : hd'.InLife s life) :
    hd.epoch ≠ hd'.epoch := by
  intro he
  obtain ⟨u, hu, hul, hum⟩ := hl
  obtain ⟨v, hv, hvl, hvm⟩ := hl'
  obtain ⟨hue, hun⟩ := Record.mine_iff.mp hum
  obtain ⟨hve, hvn⟩ := Record.mine_iff.mp hvm
  have hn := hI.nonce_of_epoch hu hv (hul.trans hvl.symm) (by rw [hue, hve, he])
  have hnonce : hd.record.nonce = hd'.record.nonce := by rw [← hun, ← hvn, hn]
  exact hne ((hI.nonces _ (hI.handles h hd hh).nonce _ (hI.handles h' hd' hh').nonce).mpr hnonce)

theorem Inv.writes {id h : Nat} {q : Request} {store' : Store Record ETag} (hq : (id, q) ∈ s.sent)
    (hvia : q.via = some h) (hl : Lands s.store q.write store') :
    ∃ hd v, s.handles h = some hd ∧ s.store.stored = some v ∧ v.value.epoch = hd.epoch ∧
      ∀ u ∈ s.store.versions, u.life = v.life → u.value.epoch ≤ hd.epoch := by
  obtain ⟨etag, next, hw, v, hv, ht, hd, hh, he⟩ := (hI.sent _ hq).via h hvia
  rw [hw] at hl
  cases hl with
  | replace w _ t hs hmay =>
    have hvw : v.value = w.value := hI.store.tags v hv w (hI.store.mem_versions hs) ht
    refine ⟨hd, w, hh, hs, by rw [he, hvw], fun u hu hul => ?_⟩
    have hle : u.value.epoch ≤ w.value.epoch :=
      hI.store.newest (R := fun a b : Record => a.epoch ≤ b.epoch) (fun _ => le_rfl)
        (fun _ _ _ => le_trans) (fun _ _ h => h.epoch) hs hu hul
    rwa [he, hvw]

theorem Inv.selected {l r : List RecordVersion} {v : RecordVersion} (hs : s.store.versions = l ++ v :: r) :
    epochOf v.value.selected = v.value.epoch ∨
      ∃ u ∈ l, u.life = v.life ∧ u.value.selected = v.value.selected := by
  rcases hI.store.origin hs with hf | ⟨u, hu, hul, hn⟩
  · exact .inl hf.selected
  · rcases hn.selected with heq | ⟨-, he⟩
    · exact .inr ⟨u, hu, hul, heq.symm⟩
    · exact .inl he

theorem Inv.selections : s.store.versions.Pairwise fun u v =>
    u.life = v.life → u.value.selected ≤ v.value.selected :=
  hI.store.pairwise_le Record.selected fun _ _ h =>
    h.selected.elim (fun he => he.ge) fun hs => hs.1

theorem Inv.valid : ∀ v ∈ s.store.versions, v.value.valid :=
  hI.store.forall (fun _ h => h.valid) fun _ _ h _ => h.valid

end

end Fencing

/-- Over every interleaving of creations, opens, selections, keeps, pins, releases and removals, with
any reply lost, late or reported as a refusal, the record is fenced by its epoch. -/
theorem control_record_fenced (vm : List Char) (s : System) (h : Reaches vm s) : Fencing s := by
  have hI := h.inv
  refine ⟨hI.epochs, fun n hd hh => ?_, fun n hd n' hd' life => hI.owners, fun id q n store' =>
    hI.writes, hI.selections, fun l v r => hI.selected, hI.valid, fun n hd hh =>
    (hI.handles n hd hh).exact⟩
  obtain ⟨v, hv, hl, he⟩ := (hI.handles n hd hh).version
  exact ⟨v, hv, hl, Record.mine_iff.mpr ⟨he ▸ (hI.handles n hd hh).epoch, he ▸ rfl⟩⟩

/-! ## A takeover -/

def sampleVM : List Char := ['v', 'm']
def sampleNonce (n : UInt8) : Nonce := List.replicate nonceSize n

def sampleRecord : Record :=
  { vm := sampleVM, epoch := 1, nonce := sampleNonce 0, selected := sequence 1 1, created := true }

def takenRecord : Record := { sampleRecord with epoch := 2, nonce := sampleNonce 1 }

/-- Call 0 creates the VM, call 1 opens it, and both have their handles. -/
def takenOver : List Action :=
  [.create 0 (sequence 1 1) true (sampleNonce 0), .land 0 10,
    .reply 0 (.ok (some ⟨1, sampleRecord, 10⟩)),
    .opens 1 ⟨0, none, sampleNonce 1⟩, .read 1, .land 1 11,
    .reply 1 (.ok (some ⟨1, takenRecord, 11⟩))]

/-- Then a selection through the first handle is refused, and reads the record back. -/
def firstFenced : List Action :=
  takenOver ++ [.update 2 0 (.select (sequence 1 2) none []), .lock 2, .reply 2 .refused, .read 2]

theorem takenOver_runs : (System.run sampleVM {} takenOver).isSome := rfl
theorem firstFenced_runs : (System.run sampleVM {} firstFenced).isSome := rfl

theorem control_record_fenced_sample :
    ∃ s, Reaches sampleVM s ∧ (s.handles 0).map (·.epoch) = some 1 ∧
      (s.handles 1).map (·.epoch) = some 2 ∧ Fencing s :=
  ⟨_, System.run_leads takenOver_runs, rfl, rfl,
    control_record_fenced sampleVM _ (System.run_leads takenOver_runs)⟩

/-- A fenced handle keeps its own record beside the validator of the version that fenced it. -/
theorem fenced_handle_names_no_version :
    ∃ s h hd, Reaches sampleVM s ∧ s.handles h = some hd ∧
      ¬ ∃ v ∈ s.store.versions, v.value = hd.record ∧ v.tag = hd.etag := by
  refine ⟨_, 0, _, System.run_leads firstFenced_runs, rfl, ?_⟩
  decide

end Sproutfs.Control

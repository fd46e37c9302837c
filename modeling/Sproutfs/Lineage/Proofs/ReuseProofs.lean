import Sproutfs.Lineage.Proofs.DanglingProofs

/-!
# Identities that are used again

A deletion lists everything stored under the identity and spares what the record it removed pinned, which
is nothing of an earlier life. What keeps an earlier life's checkpoints is that no record is created over
them: `Create` asks whether anything is stored; a `CreateIfAbsent` and a `Fork` do not.
-/

namespace Sproutfs.Lineage

open Machine List Option Function Control

variable {s t : System} {id : List Char} {h n epoch : Nat}

/-- Nothing else than the root a create put is stored under an identity when a record is created
there, a fork finds nothing stored at all, and no deletion of the identity is under way meanwhile. -/
def System.Vacant (s : System) : Action → Prop
  | .createRoot n _ => ∀ c, s.creating n = some c → s.Undeleted c.id
  | .createRecord n _ _ => ∀ c root, s.creating n = some c → c.root = some root →
      s.Undeleted c.id ∧ s.Whole root ∧ root.life = s.lives c.id + 1 ∧
        ∀ i ∈ s.indexes, i.ref.vm = c.id → i ≠ root → s.Gone i.ref
  | .fork _ id _ _ _ => s.Undeleted id ∧ ∀ i ∈ s.indexes, i.ref.vm = id → s.Gone i.ref
  | _ => True

/-- What is stored under an identity with a record is of the record's life, and what a deletion finds
is of the life of the record it removed. -/
structure LifeInv (s : System) : Prop where
  stored : ∀ id r, s.records id = some r → ∀ i ∈ s.indexes, i.ref.vm = id → ¬ s.Gone i.ref →
    i.life = s.lives id
  deleting : ∀ id life spared, Sweep.deleteVM id life spared ∈ s.sweeps → life = s.lives id ∧
    ∀ i ∈ s.indexes, i.ref.vm = id → ¬ s.Gone i.ref → i.life = life
  deleted : ∀ d ∈ s.gone, ∀ id life spared, d.2 = .deleteVM id life spared →
    ∃ i ∈ s.indexes, i.ref = d.1 ∧ i.ref.vm = id ∧ i.life = life

theorem LifeInv.frame (hl : LifeInv s) (hi : t.indexes = s.indexes) (hg : t.gone = s.gone)
    (hlives : t.lives = s.lives)
    (hrec : ∀ id r, t.records id = some r → ∃ r', s.records id = some r')
    (hsw : ∀ id life spared, Sweep.deleteVM id life spared ∈ t.sweeps →
      Sweep.deleteVM id life spared ∈ s.sweeps) : LifeInv t := by
  have hgone : ∀ r, t.Gone r ↔ s.Gone r := fun r => by unfold System.Gone; rw [hg]
  refine ⟨fun id r hr => ?_, fun id life spared hin => ?_, ?_⟩
  · obtain ⟨r', hr'⟩ := hrec id r hr
    rw [hi, hlives]
    exact fun i hmem hvm hnot => hl.stored id r' hr' i hmem hvm (fun h => hnot ((hgone _).mpr h))
  · obtain ⟨hlife, hall⟩ := hl.deleting id life spared (hsw id life spared hin)
    rw [hi, hlives]
    exact ⟨hlife, fun i hmem hvm hnot => hall i hmem hvm (fun h => hnot ((hgone _).mpr h))⟩
  · rw [hi, hg]
    exact hl.deleted

theorem exists_of_update {records : List Char → Option Record} {id' : List Char} {r r₀ r' : Record}
    (hr₀ : records id = some r₀) (h : update records id (some r) id' = some r') :
    ∃ r'', records id' = some r'' := by
  rcases update_some h with ⟨rfl, -⟩ | ⟨-, h⟩
  · exact ⟨r₀, hr₀⟩
  · exact ⟨r', h⟩

theorem LifeInv.publish (hl : LifeInv s) {i : Index} (hi : t.indexes = s.indexes ++ [i]) (hg : t.gone = s.gone)
    (hlives : t.lives = s.lives) (hrec : t.records = s.records) (hsw : t.sweeps = s.sweeps)
    (hlife : i.life = s.lives i.ref.vm ∨ (s.records i.ref.vm = none ∧ s.Undeleted i.ref.vm)) :
    LifeInv t := by
  have hgone : ∀ r, t.Gone r ↔ s.Gone r := fun r => by unfold System.Gone; rw [hg]
  have hmem : ∀ j, j ∈ t.indexes → j ∈ s.indexes ∨ j = i := fun j hj => by
    rw [hi] at hj
    simpa using hj
  refine ⟨fun id r hr j hj hvm hnot => ?_, fun id life spared hin => ?_, fun d hd id life spared h => ?_⟩
  · rw [hrec] at hr
    rw [hlives]
    rcases hmem j hj with hj | rfl
    · exact hl.stored id r hr j hj hvm (fun h => hnot ((hgone _).mpr h))
    · rcases hlife with hlife | ⟨hnone, -⟩
      · rw [hlife, hvm]
      · rw [hvm, hr] at hnone
        cases hnone
  · rw [hsw] at hin
    obtain ⟨hlife', hall⟩ := hl.deleting id life spared hin
    rw [hlives]
    refine ⟨hlife', fun j hj hvm hnot => ?_⟩
    rcases hmem j hj with hj | rfl
    · exact hall j hj hvm (fun h => hnot ((hgone _).mpr h))
    · rcases hlife with hlife | ⟨-, hundel⟩
      · rw [hlife, hvm, hlife']
      · rw [hvm] at hundel
        exact absurd hin (hundel life spared)
  · rw [hg] at hd
    obtain ⟨j, hj, hrest⟩ := hl.deleted d hd id life spared h
    exact ⟨j, by rw [hi]; exact mem_append_left _ hj, hrest⟩

/-- A new record over an identity that holds nothing, or nothing but a root of its own life. -/
theorem LifeInv.enter (hl : LifeInv s) {r : Record} (hundel : s.Undeleted r.vm)
    (hstored : ∀ i ∈ s.indexes, i.ref.vm = r.vm → ¬ s.Gone i.ref → i.life = s.lives r.vm + 1)
    (ht : t.indexes = s.indexes ∧ t.gone = s.gone ∧ t.sweeps = s.sweeps ∧
      t.lives = update s.lives r.vm (s.lives r.vm + 1) ∧
      t.records = update s.records r.vm (some r)) : LifeInv t := by
  obtain ⟨hi, hg, hsw, hlives, hrec⟩ := ht
  have hgone : ∀ x, t.Gone x ↔ s.Gone x := fun x => by unfold System.Gone; rw [hg]
  have hother : ∀ id, id ≠ r.vm → t.lives id = s.lives id := fun id hne => by
    rw [hlives]
    exact update_of_ne hne ..
  refine ⟨fun id q hq i hmem hvm hnot => ?_, fun id life spared hin => ?_, ?_⟩
  · rw [hi] at hmem
    rw [hrec] at hq
    have hnot : ¬ s.Gone i.ref := fun h => hnot ((hgone _).mpr h)
    rcases update_some hq with ⟨rfl, -⟩ | ⟨hne, hq⟩
    · rw [hstored i hmem hvm hnot, hlives]
      rw [update_self]
    · rw [hl.stored id q hq i hmem hvm hnot, hother id hne]
  · rw [hsw] at hin
    have hne : id ≠ r.vm := fun heq => hundel life spared (heq ▸ hin)
    obtain ⟨hlife, hall⟩ := hl.deleting id life spared hin
    rw [hother id hne, hi]
    exact ⟨hlife, fun i hmem hvm hnot => hall i hmem hvm (fun h => hnot ((hgone _).mpr h))⟩
  · rw [hi, hg]
    exact hl.deleted

/-! ## Steps -/

theorem LifeInv.remove (hl : LifeInv s) (hs : s.remove id = some t) : LifeInv t := by
  obtain ⟨r, hr, rfl⟩ := map_eq_some_iff.mp hs
  refine ⟨fun id' r' hr' => hl.stored id' r' (update_none hr').2, ?_, hl.deleted⟩
  intro id' life spared hin
  rcases mem_append.mp hin with hin | hin
  · exact hl.deleting id' life spared hin
  · obtain ⟨l, -, heq⟩ := map_eq_some_iff.mp (mem_toList.mp hin)
    cases heq
    exact ⟨rfl, hl.stored id r hr⟩

theorem LifeInv.sweep (hl : LifeInv s) {k : Nat} {r : Ref} (hs : s.sweep k r = some t) :
    LifeInv t := by
  obtain ⟨sw, hsw, hs⟩ := bind_eq_some_iff.mp hs
  obtain ⟨hg, rfl⟩ := ite_some_none_eq_some.mp hs
  obtain ⟨⟨hkill, hfind⟩, hnot⟩ :
      (sw.kills r = true ∧ (s.indexes.find r).isSome = true) ∧ ¬ s.Gone r := by simpa using hg
  have hgone : ∀ x, s.Gone x → ({ s with gone := s.gone ++ [(r, sw)] } : System).Gone x := by
    rintro x ⟨d, hd, rfl⟩
    exact ⟨d, mem_append_left _ hd, rfl⟩
  refine ⟨fun id r' hr' i hmem hvm hn => hl.stored id r' hr' i hmem hvm (fun h => hn (hgone _ h)),
    fun id life spared hin => ?_, fun d hd id life spared heq => ?_⟩
  · obtain ⟨hlife, hall⟩ := hl.deleting id life spared hin
    exact ⟨hlife, fun i hmem hvm hn => hall i hmem hvm (fun h => hn (hgone _ h))⟩
  · rcases mem_append.mp hd with hd | hd
    · exact hl.deleted d hd id life spared heq
    · rw [mem_singleton.mp hd] at heq ⊢
      obtain ⟨i, hi⟩ := isSome_iff_exists.mp hfind
      obtain ⟨hmem, href⟩ := Catalogue.find_mem hi
      have hvm : i.ref.vm = id := by
        rw [show sw = .deleteVM id life spared from heq] at hkill
        rw [href]
        simpa [Sweep.kills] using (Bool.and_eq_true_iff.mp hkill).1
      refine ⟨i, hmem, href, hvm, ?_⟩
      have hin : Sweep.deleteVM id life spared ∈ s.sweeps := by
        rw [← show sw = .deleteVM id life spared from heq]
        exact mem_of_getElem? hsw
      exact (hl.deleting id life spared hin).2 i hmem hvm (by rw [href]; exact hnot)

/-- Where a record goes with no sweep, or a handle changes, nothing stored changes its life. -/
theorem LifeInv.pinBy (hl : LifeInv s) {v : VM} {q : Nat} (hs : s.pinBy v q = some t) :
    LifeInv t := by
  unfold System.pinBy at hs
  split at hs
  case isTrue =>
    cases hs
    exact hl
  case isFalse =>
    obtain ⟨r, hr, hs⟩ := bind_eq_some_iff.mp hs
    split at hs
    case h_1 => cases hs
    case h_2 =>
      cases hs
      exact hl.frame rfl rfl rfl (fun _ _ => exists_of_update (held_iff.mp hr).1) fun _ _ _ h => h

theorem mem_decide_reclaim {dead : Option (List Ref)} {life : Nat} {spared : List Nat}
    (h : Sweep.deleteVM id life spared ∈ (s.decide? (dead.map .reclaim)).sweeps) :
    Sweep.deleteVM id life spared ∈ s.sweeps := by
  rcases mem_append.mp h with h | h
  · exact h
  · obtain ⟨l, -, heq⟩ := map_eq_some_iff.mp (mem_toList.mp h)
    cases heq

theorem LifeInv.select (hl : LifeInv s) {k : Keeping} {journals : List Journal} {known : Bool}
    (hs : s.select h k journals known = some t) : LifeInv t := by
  obtain ⟨v, hv, hs⟩ := bind_eq_some_iff.mp hs
  obtain ⟨p, hp, hs⟩ := bind_eq_some_iff.mp hs
  obtain ⟨index, hc, hs⟩ := bind_eq_some_iff.mp hs
  obtain ⟨r, hr, hs⟩ := bind_eq_some_iff.mp hs
  split at hs
  case h_1 => cases hs
  case h_2 =>
    have hrec := (held_iff.mp hr).1
    cases known with
    | false =>
      cases hs
      exact hl.frame rfl rfl rfl (fun _ _ => exists_of_update hrec) fun _ _ _ h => h
    | true =>
      cases hs
      exact hl.frame rfl rfl rfl (fun _ _ => exists_of_update hrec) fun _ _ _ => mem_decide_reclaim

theorem LifeInv.createRoot (hl : LifeInv s) (hvacant : s.Vacant (.createRoot n epoch))
    (hs : s.createRoot n epoch = some t) : LifeInv t := by
  obtain ⟨c, hc, hs⟩ := bind_eq_some_iff.mp hs
  obtain ⟨-, rfl⟩ := ite_some_none_eq_some.mp hs
  refine hl.publish rfl rfl rfl rfl rfl ?_
  cases hr : s.records c.id with
  | none => exact .inr ⟨rfl, hvacant c hc⟩
  | some r => exact .inl rfl

theorem LifeInv.createRecord (hl : LifeInv s) {nonce : Nonce}
    (hvacant : s.Vacant (.createRecord n h nonce)) (hs : s.createRecord n h nonce = some t) :
    LifeInv t := by
  obtain ⟨c, hc, hs⟩ := bind_eq_some_iff.mp hs
  obtain ⟨root, hroot, hs⟩ := bind_eq_some_iff.mp hs
  obtain ⟨-, hs⟩ := ite_none_right_eq_some.mp hs
  obtain ⟨r, hr, rfl⟩ := map_eq_some_iff.mp hs
  obtain ⟨hundel, -, hlife, hgone⟩ := hvacant c root hc hroot
  have hvm : r.vm = c.id := by rw [createdRecord_eq hr]
  refine hl.enter (r := r) (by rw [hvm]; exact hundel) (fun i hmem hivm hnot => ?_)
    ⟨rfl, rfl, rfl, rfl, rfl⟩
  by_cases heq : i = root
  · rw [heq, hvm, hlife]
  · exact absurd (hgone i hmem (hivm.trans hvm) heq) hnot

theorem LifeInv.fork (hl : LifeInv s) {point : Nat} {nonce : Nonce}
    (hvacant : s.Vacant (.fork h id point epoch nonce)) (hs : s.fork h id point epoch nonce = some t) :
    LifeInv t := by
  obtain ⟨pt, hpt, hs⟩ := bind_eq_some_iff.mp hs
  obtain ⟨-, hs⟩ := ite_none_right_eq_some.mp hs
  obtain ⟨r, hr, rfl⟩ := map_eq_some_iff.mp hs
  obtain ⟨hundel, hgone⟩ := hvacant
  have hvm : r.vm = id := by rw [createdRecord_eq hr]
  exact hl.enter (r := r) (by rw [hvm]; exact hundel)
    (fun i hmem hivm hnot => absurd (hgone i hmem (hivm.trans hvm)) hnot) ⟨rfl, rfl, rfl, rfl, rfl⟩

theorem LifeInv.step (hl : LifeInv s) {a : Action} (hvacant : s.Vacant a)
    (hs : s.step a = some t) : LifeInv t := by
  cases a with
  | create n id takeOver =>
    obtain ⟨-, rfl⟩ := ite_some_none_eq_some.mp hs
    exact { hl with }
  | createRoot n epoch => exact hl.createRoot hvacant hs
  | createRecord n h nonce => exact hl.createRecord hvacant hs
  | opens h id o =>
    obtain ⟨r, hr, hs⟩ := bind_eq_some_iff.mp hs
    obtain ⟨-, hs⟩ := ite_none_right_eq_some.mp hs
    obtain ⟨r', -, hs⟩ := bind_eq_some_iff.mp hs
    obtain ⟨index, -, rfl⟩ := map_eq_some_iff.mp hs
    exact hl.frame rfl rfl rfl (fun _ _ => exists_of_update hr) fun _ _ _ h => h
  | capture h keep =>
    obtain ⟨v, hv, hs⟩ := bind_eq_some_iff.mp hs
    obtain ⟨-, rfl⟩ := ite_some_none_eq_some.mp hs
    exact { hl with }
  | commit h named =>
    obtain ⟨v, hv, hs⟩ := bind_eq_some_iff.mp hs
    obtain ⟨p, hp, hs⟩ := bind_eq_some_iff.mp hs
    obtain ⟨_, hs⟩ := dite_none_right_eq_some.mp hs
    obtain ⟨-, rfl⟩ := ite_some_none_eq_some.mp hs
    exact hl.publish rfl rfl rfl rfl rfl (.inl rfl)
  | select h k journals known => exact hl.select hs
  | abandon h =>
    obtain ⟨v, hv, rfl⟩ := map_eq_some_iff.mp hs
    exact { hl with }
  | forkPoint h unpublished known =>
    obtain ⟨v, hv, hs⟩ := bind_eq_some_iff.mp hs
    obtain ⟨-, hs⟩ := ite_none_right_eq_some.mp hs
    obtain ⟨u, hu, rfl⟩ := map_eq_some_iff.mp hs
    have hl := hl.pinBy hu
    cases known <;> exact { hl with }
  | publishPoint h =>
    obtain ⟨v, hv, hs⟩ := bind_eq_some_iff.mp hs
    obtain ⟨w, hw, hs⟩ := bind_eq_some_iff.mp hs
    obtain ⟨-, rfl⟩ := ite_some_none_eq_some.mp hs
    exact { hl with }
  | pinPoint h =>
    obtain ⟨v, hv, hs⟩ := bind_eq_some_iff.mp hs
    obtain ⟨k, hk, hs⟩ := bind_eq_some_iff.mp hs
    obtain ⟨u, hu, rfl⟩ := map_eq_some_iff.mp hs
    exact { hl.pinBy hu with }
  | pin id q =>
    obtain ⟨r, hr, hs⟩ := bind_eq_some_iff.mp hs
    obtain ⟨⟨wanted, r'⟩, -, rfl⟩ := map_eq_some_iff.mp hs
    exact hl.frame rfl rfl rfl (fun _ _ => exists_of_update hr) fun _ _ _ h => h
  | inherit ref =>
    obtain ⟨-, hs⟩ := ite_none_right_eq_some.mp hs
    obtain ⟨index, -, rfl⟩ := map_eq_some_iff.mp hs
    exact { hl with }
  | fork h id point epoch nonce => exact hl.fork hvacant hs
  | forkFails h =>
    obtain ⟨v, hv, hs⟩ := bind_eq_some_iff.mp hs
    obtain ⟨-, rfl⟩ := ite_some_none_eq_some.mp hs
    exact hl.frame rfl rfl rfl (fun _ r h => ⟨r, (update_none h).2⟩) fun _ _ _ h => h
  | remove id => exact hl.remove hs
  | release id q =>
    obtain ⟨r, hr, hs⟩ := bind_eq_some_iff.mp hs
    obtain ⟨r', -, rfl⟩ := map_eq_some_iff.mp hs
    exact hl.frame rfl rfl rfl (fun _ _ => exists_of_update hr) fun _ _ _ => mem_decide_reclaim
  | sweep k r => exact hl.sweep hs
  | sweepEnds k =>
    obtain ⟨-, rfl⟩ := ite_some_none_eq_some.mp hs
    exact hl.frame rfl rfl rfl (fun _ r h => ⟨r, h⟩) fun _ _ _ h => mem_of_mem_eraseIdx h

/-- No deletion of the identity is under way, as a test. -/
def undeleted (s : System) (id : List Char) : Bool :=
  s.sweeps.all fun
    | .deleteVM vm _ _ => vm ≠ id
    | .reclaim _ => true

end Sproutfs.Lineage

import Sproutfs.Control.Proofs.FencingProofs

/-!
# What a refused open leaves

`open` reads the record again after a precondition failure, which may be about its own put: the store's
client repeats a conditional put whose attempt expired, and the repeat is refused by what the first
attempt wrote. The open then goes on over its own epoch.
-/

namespace Sproutfs.Control

open Option CasStore

/-- An open under way, or one that returned in a way the results below speak of. -/
def Call.opens : Call → Bool
  | .openRead _ => true
  | .openPut _ _ _ => true
  | .openReread _ _ => true
  | .returned (.opened _) => true
  | .returned (.failed e) => e.ofOpen
  | _ => false

/-- An open that has yet to learn what became of a put. -/
def Call.openWaits : Call → Bool
  | .openPut _ _ _ => true
  | .openReread _ _ => true
  | _ => false

/-- What happens leaves no open in the wrong about its puts: one takes effect only while its open
waits to learn what became of a put, and no other before it; after that the open is told of no
precondition failure, and what it reads back is still its own. -/
def System.attributable (s : System) : Action → Bool
  | .land index _ =>
    match s.sent[index]? with
    | some (id, _) =>
      match s.calls id with
      | some c => !c.opens || ((s.landed id).isEmpty && c.openWaits)
      | none => true
    | none => true
  | .reply id .refused =>
    match s.calls id with
    | some (.openPut _ _ _) => (s.landed id).isEmpty
    | _ => true
  | .read id =>
    match s.calls id with
    | some (.openReread o next) =>
      (s.landed id).isEmpty || s.store.stored.any fun v => v.value.mine next.epoch o.nonce
    | _ => true
  | _ => true

/-- A run in which every open can tell its own puts. -/
def AttributableReaches (vm : List Char) : System → Prop :=
  Relation.ReflTransGen (fun s s' => ∃ a, Step vm s a s' ∧ s.attributable a) {}

/-- Refused opens have written nothing, and a migration's open has added its journal once. -/
structure OpensOnce (s : System) : Prop where
  moved : ∀ id, s.calls id = some (.returned (.failed .moved)) → s.landed id = []
  tooManyJournals : ∀ id, s.calls id = some (.returned (.failed .tooManyJournals)) → s.landed id = []
  joined : ∀ id o j, s.calls id = some (.returned (.opened o)) → o.joining = some j →
    ∃ l b v, s.landed id = [l] ∧ l.before = some b ∧ l.after = some v ∧
      v.value.journals = b.value.journals ++ [{ j with epoch := v.value.epoch }]

variable {c : Call}

theorem Call.opens_iff : c.opens ↔
    (∃ o, c.family = some (.opening o)) ∨ ∃ e, c = .returned (.failed e) ∧ e.ofOpen := by
  cases c with
  | returned r => cases r <;> simp [Call.opens, Call.family]
  | _ => simp [Call.opens, Call.family]

theorem Turn.Stays.opens {f : Family} {t : Turn} (h : t.Stays f) (hf : c.family = some f) (hc : ¬ c.opens) :
    t.call.opens = false := by
  have hne : ∀ o, f ≠ .opening o := fun o he => hc (Call.opens_iff.mpr (.inl ⟨o, he ▸ hf⟩))
  refine Bool.eq_false_iff.mpr fun ht => ?_
  rcases Call.opens_iff.mp ht with ⟨o, ho⟩ | ⟨e, he, hopen⟩
  · rcases h with h | ⟨e, he, -⟩
    · exact hne o (Option.some.inj (h.symm.trans ho))
    · rw [he] at ho
      cases ho
  · rcases h with h | ⟨e', he', himp⟩
    · rw [he] at h
      cases h
    · cases he.symm.trans he'
      obtain ⟨o, ho⟩ := himp hopen
      exact hne o ho

/-! ## What an open knows of its puts -/

/-- Every write of call `id` puts in place of a record what the open makes of it. -/
abbrev Opening.Wrote (o : Opening) (s : System) (id : Nat) : Prop :=
  s.Derives id fun r r' => r' = o.next r

/-- Nothing that an open wrote is unaccounted for where it is. -/
def Call.OpenKnows (s : System) (id : Nat) : Call → Prop
  | .openRead o => o.Wrote s id ∧ s.landed id = []
  | .openPut o _ _ => o.Wrote s id ∧ (s.landed id).length ≤ 1
  | .openReread o _ => o.Wrote s id ∧ (s.landed id).length ≤ 1
  | .returned (.opened o) => o.Wrote s id ∧ (s.landed id).length = 1
  | .returned (.failed e) => e.ofOpen → s.landed id = []
  | _ => True

def OpenInv (s : System) : Prop := ∀ id c, s.calls id = some c → c.OpenKnows s id

section OpenInv

variable {vm : List Char} {s s' : System} {id : Nat} {o : Opening} {t : Turn}
  {r : Except Error RecordVersion}

theorem openKnows_of_not_opens (h : c.opens = false) : c.OpenKnows s id := by
  cases c with
  | openRead o => cases h
  | openPut o etag next => cases h
  | openReread o next => cases h
  | returned r =>
    cases r with
    | opened o => cases h
    | failed e =>
      intro he
      cases he.symm.trans h
    | _ => trivial
  | _ => trivial

theorem Call.OpenKnows.frame (h : c.OpenKnows s id) (hl : s'.landed id = s.landed id)
    (hs : ∀ p ∈ s'.sent, p.1 = id → p ∈ s.sent) (hv : ∀ v ∈ s.store.versions, v ∈ s'.store.versions) :
    c.OpenKnows s' id := by
  cases c with
  | openRead o => exact ⟨h.1.frame hl hs hv, hl.trans h.2⟩
  | openPut o etag next => exact ⟨h.1.frame hl hs hv, hl ▸ h.2⟩
  | openReread o next => exact ⟨h.1.frame hl hs hv, hl ▸ h.2⟩
  | returned r =>
    cases r with
    | opened o => exact ⟨h.1.frame hl hs hv, hl ▸ h.2⟩
    | failed e => exact fun he => hl.trans (h he)
    | _ => trivial
  | _ => trivial

theorem openInv_turn (hO : OpenInv s) (ht : t.call.OpenKnows (s.turn id t) id) :
    OpenInv (s.turn id t) := by
  intro id' c hc
  by_cases hi : id' = id
  · subst hi
    cases (Function.update_self ..).symm.trans hc
    exact ht
  · refine (hO id' c ((Function.update_of_ne hi ..).symm.trans hc)).frame rfl ?_ fun _ h => h
    intro p hp hid
    rcases System.mem_turn_sent hp with hp | ⟨q, -, rfl⟩
    · exact hp
    · exact absurd hid.symm hi

theorem openInv_draw (hO : OpenInv s) (nonce : Nonce) : OpenInv (s.draw id nonce) :=
  fun id' c hc => (hO id' c hc).frame rfl (fun _ hp _ => hp) fun _ h => h

theorem startOpen_knows (hI : Inv vm s) (hid : s.calls id = none) :
    (startOpen vm o).call.OpenKnows ((s.draw id o.nonce).turn id (startOpen vm o)) id := by
  unfold startOpen
  split
  · exact openKnows_of_not_opens rfl
  split
  · exact openKnows_of_not_opens rfl
  · have hw : o.Wrote (s.draw id o.nonce) id :=
      (hI.derives_nothing hid).frame rfl (fun _ hp _ => hp) fun _ h => h
    exact ⟨hw.turn fun q hq => (some_ne_none q hq.symm).elim, hI.landed_eq_nil hid⟩

/-- The first read of an open: it is refused having written nothing, or sends its put. -/
theorem openRead_knows (hr : Seen s r) (hk : (Call.openRead o).OpenKnows s id) :
    (openRead o r).call.OpenKnows (s.turn id (openRead o r)) id := by
  obtain ⟨hsent, hland⟩ := hk
  cases r with
  | error e => exact fun _ => hland
  | ok v =>
    simp only [openRead]
    split
    · exact fun _ => hland
    split
    · exact fun _ => hland
    split
    · exact fun _ => hland
    · refine ⟨hsent.turn fun q hq => ?_, ?_⟩
      · obtain ⟨-, rfl⟩ := putRequest_some hq
        exact ⟨v, hr v rfl, _, rfl, rfl⟩
      · show (s.landed id).length ≤ 1
        rw [hland]
        exact Nat.zero_le _

theorem Opening.Wrote.turn_quiet {h : Option (Nat × Handle)} (hw : o.Wrote s id) :
    o.Wrote (s.turn id { call := c, handle := h }) id :=
  hw.turn fun q hq => (some_ne_none q hq.symm).elim

theorem landed_once (hle : (s.landed id).length ≤ 1) {l : Landing} (hl : l ∈ s.landed id) :
    (s.landed id).length = 1 :=
  le_antisymm hle (List.length_pos_of_mem hl)

/-- The reread of an open finds its own record only if its put landed. -/
theorem openReread_knows {next : Record} (hI : Inv vm s) (hr : Seen s r) (hn : (id, o.nonce) ∈ s.nonces)
    (hk : (Call.openReread o next).OpenKnows s id)
    (hown : ∀ v, r = .ok v → ¬ v.value.mine next.epoch o.nonce → s.landed id = []) :
    (openReread id o next r).call.OpenKnows (s.turn id (openReread id o next r)) id := by
  obtain ⟨hsent, hle⟩ := hk
  cases r with
  | error e => exact openKnows_of_not_opens rfl
  | ok v =>
    simp only [openReread]
    split
    · rename_i hm
      obtain ⟨l, hl, hln⟩ := hI.authors v (hr v rfl)
      rw [(Record.mine_iff.mp hm).2] at hln
      have hid : l.call = id := (hI.nonces _ hln _ hn).mpr rfl
      exact ⟨hsent.turn_quiet, landed_once hle (mem_landed hl hid)⟩
    · rename_i hm
      have hland := hown v rfl hm
      split
      · exact ⟨hsent.turn_quiet, hland⟩
      · exact openKnows_of_not_opens rfl

theorem onReply_knows {r : Reply} (hk : c.OpenKnows s id) (hc : c.opens) (hr : s.MayReply id c r)
    (ht : c.onReply id s.handles r = some t) (hown : r = .refused → c.openWaits → s.landed id = []) :
    t.call.OpenKnows (s.turn id t) id := by
  cases c with
  | openPut o etag next =>
    obtain ⟨hsent, hle⟩ := hk
    rcases r with (_ | v) | _ | _
    · cases ht
    · cases ht
      obtain ⟨l, hl, hid, -⟩ := hr
      exact ⟨hsent.turn_quiet, landed_once hle (mem_landed hl hid)⟩
    · cases ht
      exact ⟨hsent.turn_quiet, hown rfl rfl⟩
    · cases ht
      exact ⟨hsent.turn_quiet, hle⟩
  | openRead o => cases ht
  | openReread o next => cases ht
  | returned res => cases ht
  | _ => cases hc

theorem openInv_land {q : Request} {store' : Store Record ETag} (hI : Inv vm s) (hO : OpenInv s)
    (hq : (id, q) ∈ s.sent) (hl : Lands s.store q.write store')
    (hown : ∀ c, s.calls id = some c → c.opens → s.landed id = [] ∧ c.openWaits) :
    OpenInv (s.landing id q store') := by
  intro id' c hc
  have hk := hO id' c hc
  by_cases hi : id = id'
  · subst hi
    by_cases hopen : c.opens
    · obtain ⟨hland, hwait⟩ := hown c hc hopen
      have hone : ((s.landing id q store').landed id).length ≤ 1 := by
        rw [System.landed_landing, hland, if_pos rfl]
        exact le_rfl
      cases c with
      | openPut o etag next => exact ⟨hk.1.landing hI hq hl, hone⟩
      | openReread o next => exact ⟨hk.1.landing hI hq hl, hone⟩
      | _ => cases hwait
    · exact openKnows_of_not_opens (Bool.not_eq_true _ ▸ hopen)
  · refine hk.frame ?_ (fun _ hp _ => hp) fun _ => hl.mem_versions
    rw [System.landed_landing, if_neg hi, List.append_nil]

theorem openInv_step {a : Action} (hI : Inv vm s) (hO : OpenInv s) (h : Step vm s a s')
    (ha : s.attributable a) : OpenInv s' := by
  cases h with
  | create id selected published nonce hid hn hsize =>
    refine openInv_turn (openInv_draw hO nonce) (openKnows_of_not_opens ?_)
    unfold create
    split <;> rfl
  | opens id o hid hn hsize => exact openInv_turn (openInv_draw hO o.nonce) (startOpen_knows hI hid)
  | remove id hid => exact openInv_turn hO (openKnows_of_not_opens rfl)
  | pin id q hid => exact openInv_turn hO (openKnows_of_not_opens rfl)
  | release id q hid hq => exact openInv_turn hO (openKnows_of_not_opens rfl)
  | update id h m hid => exact openInv_turn hO (openKnows_of_not_opens rfl)
  | lock id h m hd hc hh hfree =>
    exact openInv_turn hO (openKnows_of_not_opens
      ((update_stays h hd m).opens (c := .updateLock h m) rfl fun he => by cases he))
  | read id c t hc ht =>
    refine openInv_turn hO ?_
    have hk := hO id c hc
    by_cases hopen : c.opens
    · cases c with
      | openRead o => cases ht; exact openRead_knows hI.seen hk
      | openReread o next =>
        cases ht
        refine openReread_knows hI hI.seen (hI.calls id _ hc) hk fun v hv hmine => ?_
        rcases Bool.or_eq_true_iff.mp (by simpa only [System.attributable, hc] using ha) with he | he
        · exact List.isEmpty_iff.mp he
        · rw [readRecord_ok hv] at he
          exact absurd he hmine
      | openPut o etag next => cases ht
      | returned res => cases ht
      | _ => cases hopen
    · obtain ⟨f, hf, hs⟩ := onRead_stays (readRecord_plain vm s.store.stored) ht
      exact openKnows_of_not_opens (hs.opens hf hopen)
  | readFails id c t hc ht =>
    refine openInv_turn hO ?_
    have hk := hO id c hc
    by_cases hopen : c.opens
    · cases c with
      | openRead o => cases ht; exact openRead_knows nofun hk
      | openReread o next => cases ht; exact openKnows_of_not_opens rfl
      | openPut o etag next => cases ht
      | returned res => cases ht
      | _ => cases hopen
    · obtain ⟨f, hf, hs⟩ := onRead_stays (fun e he => by cases he; rfl) ht
      exact openKnows_of_not_opens (hs.opens hf hopen)
  | reply id c r t hc hr ht =>
    refine openInv_turn hO ?_
    by_cases hopen : c.opens
    · refine onReply_knows (hO id c hc) hopen hr ht fun href hwait => ?_
      subst href
      cases c with
      | openPut o etag next => simpa [System.attributable, hc] using ha
      | openReread o next => cases ht
      | _ => cases hwait
    · obtain ⟨f, hf, hs⟩ := onReply_stays ht
      exact openKnows_of_not_opens (hs.opens hf hopen)
  | land index tag id q store' hq hl htag =>
    refine openInv_land hI hO (List.mem_of_getElem? hq) hl fun c hc hopen => ?_
    simpa [System.attributable, hq, hc, hopen] using ha
  | close h hd hh =>
    exact fun id c hc => (hO id c hc).frame rfl (fun _ hp _ => hp) fun _ h => h

theorem AttributableReaches.openInv (h : AttributableReaches vm s) : Inv vm s ∧ OpenInv s := by
  induction h with
  | refl => exact ⟨inv_empty, by simp [OpenInv]⟩
  | tail _ hstep ih =>
    obtain ⟨a, ha, hok⟩ := hstep
    exact ⟨inv_step ih.1 ha, openInv_step ih.1 ih.2 ha hok⟩

end OpenInv

/-- In a run in which every open can tell its own puts, a refused open has changed nothing, and a
migration's open that succeeded has added its journal once. -/
theorem refused_open_writes_nothing (vm : List Char) (s : System) (h : AttributableReaches vm s) :
    OpensOnce s := by
  obtain ⟨-, hO⟩ := h.openInv
  refine ⟨fun id hc => hO id _ hc rfl, fun id hc => hO id _ hc rfl, ?_⟩
  intro id o j hc hj
  obtain ⟨hw, hlen⟩ := hO id _ hc
  obtain ⟨l, hone⟩ := List.length_eq_one_iff.mp hlen
  obtain ⟨b, v, hb, hv, hval⟩ := hw.landed l (by rw [hone]; exact List.mem_singleton_self l)
  refine ⟨l, b, v, hone, hb, hv, ?_⟩
  rw [hval]
  simp only [Opening.next, hj, map_some, toList_some]

/-! ## An open that takes itself for another -/

/-- A journal of a migration's destination. -/
def sampleJoining : Journal := ⟨⟨List.replicate 16 1, by decide⟩, 1, 0, 0⟩

def sampleMigration : List Action :=
  [.create 0 (sequence 1 1) true (sampleNonce 0), .land 0 10,
    .reply 0 (.ok (some ⟨1, sampleRecord, 10⟩)),
    .opens 1 ⟨0, some sampleJoining, sampleNonce 1⟩, .read 1, .land 1 11, .reply 1 .lost, .read 1]

theorem sampleMigration_runs :
    (({} : System).runWhile sampleVM System.attributable sampleMigration).isSome := rfl

theorem refused_open_writes_nothing_sample :
    ∃ s, AttributableReaches sampleVM s ∧
      s.calls 1 = some (.returned (.opened ⟨0, some sampleJoining, sampleNonce 1⟩)) ∧ OpensOnce s :=
  have hrun := System.runWhile_steps (some_get sampleMigration_runs).symm
  ⟨_, hrun, rfl, refused_open_writes_nothing sampleVM _ hrun⟩

/-- An open after epoch 1 whose put lands, and which the repeat of that put is then refused to. -/
def selfRefused : List Action :=
  [.create 0 (sequence 1 1) true (sampleNonce 0), .land 0 10,
    .reply 0 (.ok (some ⟨1, sampleRecord, 10⟩)),
    .opens 1 ⟨1, none, sampleNonce 1⟩, .read 1, .land 1 11, .reply 1 .refused, .read 1]

/-- The same of a migration's open, whose second round adds its journal again. -/
def selfJoined : List Action :=
  [.create 0 (sequence 1 1) true (sampleNonce 0), .land 0 10,
    .reply 0 (.ok (some ⟨1, sampleRecord, 10⟩)),
    .opens 1 ⟨0, some sampleJoining, sampleNonce 1⟩, .read 1, .land 1 11, .reply 1 .refused,
    .read 1, .land 2 12, .reply 1 .lost, .read 1]

theorem selfRefused_runs : (System.run sampleVM {} selfRefused).isSome := rfl
theorem selfJoined_runs : (System.run sampleVM {} selfJoined).isSome := rfl

/-- `OpenAfter` returns `ErrMoved` over the epoch it advanced itself, and `OpenMigration` succeeds
with its journal in the record twice. -/
theorem open_refused_by_itself :
    (∃ s v, Reaches sampleVM s ∧ s.calls 1 = some (.returned (.failed .moved)) ∧
      s.store.stored = some v ∧ v.value.epoch = 2 ∧ (s.landed 1).length = 1) ∧
    ∃ s v o, Reaches sampleVM s ∧ s.calls 1 = some (.returned (.opened o)) ∧
      o.joining = some sampleJoining ∧ s.store.stored = some v ∧
      v.value.journals = [{ sampleJoining with epoch := 2 }, { sampleJoining with epoch := 3 }] :=
  ⟨⟨_, _, System.run_leads selfRefused_runs, rfl, rfl, rfl, rfl⟩,
    ⟨_, _, _, System.run_leads selfJoined_runs, rfl, rfl, rfl, rfl⟩⟩

end Sproutfs.Control

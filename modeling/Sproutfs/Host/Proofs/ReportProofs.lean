import Sproutfs.Host.JournalDisks
import Sproutfs.Membership.Proofs.ChainProofs

/-!
# What a host's empty report says

A report of its own disk as empty is true, and stays so, as long as no registered VM's admission ends
between the two reads of a report, and the host opens a released disk again only while it has no VM.
Without the first the report misses a VM that was being let in and was registered in between; without
the second a VM let in while the disk is out of the table writes to it once it is back.
-/

namespace Sproutfs.Host

open List Option Cluster Machine

variable {c : Config} {s s' : State} {id : Identity} {d e : Disk} {o : Open} {i j : Nat}

/-! ## The membership -/

theorem Config.assigned_eq (h : c.assigned i id = some d) : (c.m i).Assigned id d ∧ d.id = id := by
  obtain ⟨hd, hok⟩ := filter_eq_some_iff.mp h
  have hs : d.state.assigned := by
    simp only [decide_eq_true_eq] at hok
    exact hok.2.2
  exact ⟨⟨hd, hs⟩, Membership.disk_id hd⟩

/-- A disk releasing under an assignment is releasing as long as it is under it. -/
theorem Config.stays (h : Chain c.m c.last) (hij : i ≤ j) (hj : j ≤ c.last)
    (hd : c.assigned i id = some d) (hs : d.state = .releasing) (he : c.assigned j id = some e)
    (hsame : e.assigned = d.assigned) : e.state = .releasing := by
  have hdA := (Config.assigned_eq hd).1
  have heA := (Config.assigned_eq he).1
  rcases h.history hij hj hdA with hstay | ⟨-, hlater⟩
  · obtain ⟨b, hb, -, -, hle⟩ := hstay j hij le_rfl
    have hbe : b = e := Option.some.inj (hb.1.symm.trans heA.1)
    have hassigned := heA.2
    rw [hs] at hle
    cases hst : b.state <;> simp_all [DiskState.toNat, DiskState.assigned]
  · exact absurd hsame (hlater e heA).ne'

/-! ## The invariant -/

/-- The generation the disks in the table were last looked up in, at the latest. -/
def State.since (s : State) : Nat :=
  match s.passing with
  | .idle => s.view
  | .looking generation _ _ | .closing generation _ _ _ | .reopening generation _ _ _
  | .opening generation _ => generation

theorem State.since_sees {generation : Nat} (h : s.since ≤ s.view) (hlt : s.view < generation) :
    s.since ≤ ({ s with view := generation } : State).since ∧
      ({ s with view := generation } : State).since ≤ generation := by
  cases hp : s.passing <;> simp only [State.since, hp] at h ⊢ <;> omega

/-- What the pass is about to open is what the membership it goes by assigns here. -/
def Passing.Sound (c : Config) : Passing → Prop
  | .idle | .looking _ _ _ => True
  | .closing generation _ _ want | .reopening generation _ _ want =>
    c.assigned generation want.id = some want ∧ want.state = .releasing
  | .opening generation left =>
    ∀ want ∈ left, c.assigned generation want.id = some want ∧ want.state ≠ .releasing

structure Inv (c : Config) (s : State) : Prop where
  since : s.since ≤ s.view
  last : s.view ≤ c.last
  passing : s.passing.Sound c
  seen : ∀ id n, (id, n) ∈ s.reported →
    ∃ i ≤ s.since, ∃ d, c.assigned i id = some d ∧ d.assigned = n ∧ d.state = .releasing
  opened : ∀ o ∈ s.opened,
    ∃ i ≤ s.since, ∃ d, c.assigned i o.id = some d ∧ d.assigned = o.assigned ∧ d.state = o.state
  state : ∀ o ∈ s.opened, (o.id, o.assigned) ∈ s.reported → o.state = .releasing
  unique : ∀ o ∈ s.opened, ∀ x ∈ s.opened, o.id = x.id → o = x
  /-- Who runs was being let in when a report under way found nobody running. -/
  counted : false ∈ s.counted → ∀ vm ∈ s.running, vm ∈ s.admitting
  quiet : ∀ o ∈ s.opened, o.own → (o.id, o.assigned) ∈ s.reported → s.running = [] ∧ s.admitting = []

theorem inv_init : Inv c {} := by
  refine ⟨le_rfl, Nat.zero_le _, trivial, ?_, ?_, ?_, ?_, ?_, ?_⟩ <;> intros <;> simp_all

/-- The view and the pass go on. -/
theorem Inv.moves (h : Inv c s) (view : Nat) (p : Passing)
    (hp : s.since ≤ ({ s with view := view, passing := p } : State).since)
    (hview : ({ s with view := view, passing := p } : State).since ≤ view) (hlast : view ≤ c.last)
    (hsound : p.Sound c) : Inv c { s with view := view, passing := p } := by
  refine ⟨hview, hlast, hsound, ?_, ?_, h.state, h.unique, h.counted, h.quiet⟩
  · intro id n hr
    obtain ⟨i, hi, rest⟩ := h.seen id n hr
    exact ⟨i, hi.trans hp, rest⟩
  · intro o ho
    obtain ⟨i, hi, rest⟩ := h.opened o ho
    exact ⟨i, hi.trans hp, rest⟩

/-- The pass goes on in the generation it goes by. -/
theorem Inv.pass (h : Inv c s) (p : Passing) (hp : ({ s with passing := p } : State).since = s.since)
    (hsound : p.Sound c) : Inv c { s with passing := p } :=
  h.moves s.view p hp.ge (hp.trans_le h.since) h.last hsound

/-- An entry the table may take. -/
structure Entry (c : Config) (s : State) (o : Open) : Prop where
  assigned : ∃ d, c.assigned s.since o.id = some d ∧ d.assigned = o.assigned ∧ d.state = o.state
  state : (o.id, o.assigned) ∈ s.reported → o.state = .releasing
  quiet : o.own → (o.id, o.assigned) ∈ s.reported → s.running = [] ∧ s.admitting = []

theorem Inv.table (h : Inv c s) {opened : List Open} (hmem : ∀ o ∈ opened, o ∈ s.opened ∨ Entry c s o)
    (hunique : ∀ o ∈ opened, ∀ x ∈ opened, o.id = x.id → o = x) : Inv c { s with opened := opened } := by
  refine ⟨h.since, h.last, h.passing, h.seen, fun o ho => ?_, fun o ho => ?_, hunique, h.counted, fun o ho => ?_⟩
  · rcases hmem o ho with ho | ho
    · exact h.opened o ho
    · exact ⟨s.since, le_rfl, ho.assigned⟩
  · exact (hmem o ho).elim (h.state o) Entry.state
  · exact (hmem o ho).elim (h.quiet o) Entry.quiet

theorem Inv.drop (h : Inv c s) (f : Open → Bool) : Inv c { s with opened := s.opened.filter f } :=
  have hmem := fun o (ho : o ∈ s.opened.filter f) => mem_of_mem_filter ho
  h.table (fun o ho => .inl (hmem o ho)) fun o ho x hx => h.unique o (hmem o ho) x (hmem x hx)

theorem Inv.opens (h : Inv c s) (want : Disk) (hwant : c.assigned s.since want.id = some want)
    (hstate : (want.id, want.assigned) ∈ s.reported → want.state = .releasing)
    (hquiet : c.owns want → (want.id, want.assigned) ∈ s.reported → s.running = [] ∧ s.admitting = []) :
    Inv c (s.open_ c want) := by
  have hapart : ∀ o ∈ (s.open_ c want).opened, o ∈ s.opened ∧ o.id ≠ want.id ∨
      o = { id := want.id, assigned := want.assigned, state := want.state, own := c.owns want } := by
    intro o ho
    rcases mem_append.mp ho with ho | ho
    · exact .inl (by simpa using mem_filter.mp ho)
    · exact .inr (mem_singleton.mp ho)
  refine h.table (fun o ho => ?_) fun o ho x hx hid => ?_
  · rcases hapart o ho with ⟨ho, -⟩ | rfl
    · exact .inl ho
    · exact .inr ⟨⟨want, hwant, rfl, rfl⟩, hstate, hquiet⟩
  · rcases hapart o ho with ⟨ho, hne⟩ | rfl
    · rcases hapart x hx with ⟨hx, -⟩ | rfl
      · exact h.unique o ho x hx hid
      · exact absurd hid hne
    · rcases hapart x hx with ⟨-, hne⟩ | rfl
      · exact absurd hid.symm hne
      · rfl

theorem Inv.look (h : Inv c s) (hchain : Chain c.m c.last) {generation : Nat} {were left : List Identity}
    {lease : Bool} (hpass : s.passing = .looking generation were (id :: left)) :
    Inv c (s.look c generation were left id lease) := by
  have hsince : s.since = generation := by simp [State.since, hpass]
  have hgoes : Inv c { s with passing := .looking generation were left } := h.pass _ hsince.symm trivial
  have hcloses : Inv c { s.close id with passing := .looking generation were left } := hgoes.drop _
  unfold State.look
  split
  · exact hgoes
  · next held hheld =>
    have hin := mem_of_find?_eq_some hheld
    have hid : held.id = id := by simpa using find?_some hheld
    split
    · exact hcloses
    · next want hwant =>
      have hwid := (Config.assigned_eq hwant).2
      split
      · exact hcloses
      · next hsame =>
        have hsame : want.assigned = held.assigned := not_not.mp hsame
        split
        · next hrel =>
          have hgoes : Inv c { s with passing := .closing generation were left want } :=
            h.pass _ hsince.symm ⟨hwid.symm ▸ hwant, hrel.1⟩
          exact hgoes.drop _
        · split
          · -- the entry takes its state from the generation the pass goes by
            refine hgoes.table (fun o ho => ?_) fun o ho x hx hox => ?_
            · obtain ⟨x, hx, rfl⟩ := mem_map.mp ho
              by_cases hxh : x = held
              · subst hxh
                rw [if_pos rfl]
                refine .inr ⟨⟨want, by rw [hid]; exact hwant, hsame, rfl⟩, fun hr => ?_, h.quiet x hin⟩
                obtain ⟨i, hi, d, hd, hn, hs⟩ := h.seen x.id x.assigned hr
                rw [hid] at hd
                exact Config.stays hchain (hsince ▸ hi) (hsince ▸ h.since.trans h.last) hd hs hwant
                  (hsame.trans hn.symm)
              · rw [if_neg hxh]
                exact .inl hx
            · obtain ⟨y, hy, rfl⟩ := mem_map.mp ho
              obtain ⟨z, hz, rfl⟩ := mem_map.mp hx
              have hyz : y.id = z.id := by
                split_ifs at hox <;> exact hox
              rw [h.unique y hy z hz hyz]
          · exact hcloses

/-! ## Steps -/

/-- No registered VM's admission ends while a report that found none running is under way, and a disk
of the host's own is opened again only while there is no VM here. -/
def Settled (c : Config) (s : State) : Action → Prop
  | .admitted vm => vm ∈ s.running → false ∉ s.counted
  | .reopens _ ok => match s.passing with
    | .reopening _ _ _ want => ok ∧ c.owns want → s.running = [] ∧ s.admitting = []
    | _ => True
  | _ => True

instance (c : Config) (s : State) : DecidablePred (Settled c s) := fun a => by
  cases a with
  | admitted vm => exact inferInstanceAs (Decidable (_ → _))
  | reopens read ok =>
    unfold Settled
    cases s.passing <;> dsimp only <;> infer_instance
  | _ => exact inferInstanceAs (Decidable True)

theorem Inv.people (h : Inv c s) (running admitting : List String) (counted : List Bool)
    (hcounted : false ∈ counted → ∀ vm ∈ running, vm ∈ admitting)
    (hquiet : ∀ o ∈ s.opened, o.own → (o.id, o.assigned) ∈ s.reported → running = [] ∧ admitting = []) :
    Inv c { s with running := running, admitting := admitting, counted := counted } :=
  { h with counted := hcounted, quiet := hquiet }

theorem Inv.refuses (h : Inv c s) (ho : o ∈ s.opened) (hown : o.own)
    (hr : (o.id, o.assigned) ∈ s.reported) : s.released = true := by
  have hstate := h.state o ho hr
  exact any_eq_true.mpr ⟨o, ho, by simp [hown, hstate]⟩

theorem Inv.report_true (h : Inv c s) {running : Bool} (hc : running ∈ s.counted) (hown : o.own)
    (hempty : s.empty running o) : s.live o.id = [] ∧ s.running = [] ∧ s.admitting = [] := by
  simp only [State.empty, hown, Bool.and_eq_true, decide_eq_true_eq, Bool.not_true, Bool.false_or,
    Bool.not_eq_true'] at hempty
  obtain ⟨hlive, ⟨-, rfl⟩, hadmitting⟩ := hempty
  refine ⟨hlive, ?_, hadmitting⟩
  -- who ran would still be among those let in
  have hrunning := h.counted hc
  rw [hadmitting] at hrunning
  exact eq_nil_iff_forall_not_mem.mpr fun vm hvm => by simpa using hrunning vm hvm

theorem Inv.reports (h : Inv c s) {running : Bool} (hc : running ∈ s.counted) :
    Inv c { s with
      counted := s.counted.erase running
      reported := ((s.opened.filter fun o => o.own && s.empty running o).map
        fun o => (o.id, o.assigned)) ++ s.reported } := by
  have hnew : ∀ id n, (id, n) ∈ (s.opened.filter fun o => o.own && s.empty running o).map
      (fun o => (o.id, o.assigned)) → ∃ o ∈ s.opened, o.id = id ∧ o.assigned = n ∧
        o.state = .releasing ∧ s.running = [] ∧ s.admitting = [] := by
    intro id n hmem
    obtain ⟨o, ho, heq⟩ := mem_map.mp hmem
    obtain ⟨ho, hok⟩ := mem_filter.mp ho
    obtain ⟨hown, hempty⟩ := Bool.and_eq_true_iff.mp hok
    obtain ⟨-, hnobody⟩ := h.report_true hc hown hempty
    simp only [State.empty, hown, Bool.and_eq_true, decide_eq_true_eq, Bool.not_true,
      Bool.false_or] at hempty
    exact ⟨o, ho, congrArg Prod.fst heq, congrArg Prod.snd heq, hempty.2.1.1, hnobody⟩
  refine { h with seen := ?_, state := ?_, counted := ?_, quiet := ?_ }
  · intro id n hr
    rcases mem_append.mp hr with hr | hr
    · obtain ⟨o, ho, rfl, rfl, hstate, -⟩ := hnew id n hr
      obtain ⟨i, hi, d, hd, hn, hs⟩ := h.opened o ho
      exact ⟨i, hi, d, hd, hn, hs.trans hstate⟩
    · exact h.seen id n hr
  · intro o ho hr
    rcases mem_append.mp hr with hr | hr
    · obtain ⟨x, hx, hid, -, hstate, -⟩ := hnew o.id o.assigned hr
      exact h.unique x hx o ho hid ▸ hstate
    · exact h.state o ho hr
  · exact fun hf => h.counted (mem_of_mem_erase hf)
  · intro o ho hown hr
    rcases mem_append.mp hr with hr | hr
    · obtain ⟨-, -, -, -, -, hnobody⟩ := hnew o.id o.assigned hr
      exact hnobody
    · exact h.quiet o ho hown hr

theorem Inv.step (h : Inv c s) (hchain : Chain c.m c.last) {a : Action} (hok : Settled c s a)
    (hs : step c s a = some s') : Inv c s' := by
  have hsound := h.passing
  revert hs
  fun_cases Host.step c s a <;> rintro ⟨⟩
  next generation hnew =>
    obtain ⟨hsince, hview⟩ := State.since_sees h.since hnew.1
    exact h.moves generation s.passing hsince hview hnew.2 h.passing
  next hpass _ => exact h.pass _ (by simp [State.since, hpass]) trivial
  next hpass => exact h.look hchain hpass
  next hpass _ => exact h.pass _ (by simp [State.since, hpass]) trivial
  next hpass _ =>
    rw [hpass] at hsound
    exact h.pass _ (by simp [State.since, hpass]) hsound
  next generation were left want hpass _ =>
    rw [hpass] at hsound
    have hsince : s.since = generation := by simp [State.since, hpass]
    simp only [Settled, hpass] at hok
    exact (h.opens want (hsince ▸ hsound.1) (fun _ => hsound.2) fun hown _ => hok ⟨trivial, hown⟩).pass _
      hsince.symm trivial
  next hpass _ => exact h.pass _ (by simp [State.since, hpass]) trivial
  next generation want left hpass _ =>
    rw [hpass] at hsound
    have hsince : s.since = generation := by simp [State.since, hpass]
    obtain ⟨hwant, hstate⟩ := hsound want mem_cons_self
    -- a disk reported empty is releasing in every generation since
    have hnot : (want.id, want.assigned) ∉ s.reported := by
      intro hr
      obtain ⟨i, hi, d, hd, hn, hst⟩ := h.seen want.id want.assigned hr
      exact hstate (Config.stays hchain (hsince ▸ hi) (hsince ▸ h.since.trans h.last) hd hst hwant hn.symm)
    exact (h.opens want (hsince ▸ hwant) (fun hr => absurd hr hnot) fun _ hr => absurd hr hnot).pass _
      hsince.symm fun x hx => hsound x (mem_cons_of_mem _ hx)
  next hpass _ =>
    rw [hpass] at hsound
    exact h.pass _ (by simp [State.since, hpass]) fun x hx => hsound x (mem_cons_of_mem _ hx)
  next hpass =>
    refine h.pass _ (by simp [State.since, hpass]) fun want hwant => ?_
    obtain ⟨hmem, hok⟩ := mem_filter.mp hwant
    simp only [Bool.and_eq_true, decide_eq_true_eq, ne_eq] at hok
    obtain ⟨⟨hsome, -⟩, hstate⟩ := hok
    obtain ⟨d, hd⟩ := isSome_iff_exists.mp hsome
    -- the disk of its identity is the disk
    have hdw : d = want :=
      Option.some.inj ((Config.assigned_eq hd).1.1.symm.trans (Membership.disk_of_mem hmem))
    exact ⟨hdw ▸ hd, hstate⟩
  next => exact h.moves s.view .idle h.since le_rfl h.last trivial
  next vm hreleased =>
    exact h.people s.running (vm :: s.admitting) s.counted
      (fun hf x hx => mem_cons_of_mem _ (h.counted hf x hx))
      fun o ho hown hr => absurd (h.refuses ho hown hr) hreleased
  next vm hin =>
    refine h.people (vm :: s.running) s.admitting s.counted ?_ ?_
    · intro hf x hx
      rcases mem_cons.mp hx with rfl | hx
      · exact hin.1
      · exact h.counted hf x hx
    · exact fun o ho hown hr => absurd hin.1 (by simp [(h.quiet o ho hown hr).2])
  next vm hin =>
    refine h.people s.running (s.admitting.erase vm) s.counted ?_ ?_
    · intro hf x hx
      have hne : x ≠ vm := by
        rintro rfl
        exact hok hx hf
      exact (mem_erase_of_ne hne).mpr (h.counted hf x hx)
    · exact fun o ho hown hr => absurd hin (by simp [(h.quiet o ho hown hr).2])
  next vm hin =>
    refine h.people (s.running.erase vm) s.admitting s.counted ?_ ?_
    · exact fun hf x hx => h.counted hf x (mem_of_mem_erase hx)
    · exact fun o ho hown hr => absurd hin (by simp [(h.quiet o ho hown hr).1])
  next => exact { h with }
  next => exact { h with }
  next => exact { h with }
  next =>
    refine h.people s.running s.admitting _ ?_ h.quiet
    intro hf x hx
    rcases mem_cons.mp hf with hnone | hf
    · rw [eq_comm, decide_eq_false_iff_not, not_not] at hnone
      rw [hnone] at hx
      cases hx
    · exact h.counted hf x hx
  next hc => exact h.reports hc

/-- In every run that meets the condition a report of the host's own disk as empty finds no live entry,
no VM registered and none being let in; and while the disk is open under an assignment it was reported
empty under, there is no VM here and none is let in. -/
theorem empty_report_is_true (c : Config) (hchain : Chain c.m c.last) (s : State)
    (h : Runs (Host.step c) (Settled c) {} s) :
    (∀ running ∈ s.counted, ∀ o ∈ s.opened, o.own → s.empty running o →
      s.live o.id = [] ∧ s.running = [] ∧ s.admitting = []) ∧
    ∀ o ∈ s.opened, o.own → (o.id, o.assigned) ∈ s.reported →
      s.running = [] ∧ s.admitting = [] ∧ ∀ vm, Host.step c s (.admits vm) = none := by
  have hinv : Inv c s :=
    Runs.invariant (fun s a s' hi hok hs => hi.step hchain hok hs) inv_init h
  refine ⟨fun running hc o _ hown hempty => hinv.report_true hc hown hempty, ?_⟩
  intro o ho hown hr
  obtain ⟨hrunning, hadmitting⟩ := hinv.quiet o ho hown hr
  refine ⟨hrunning, hadmitting, fun vm => ?_⟩
  simp [Host.step, hinv.refuses ho hown hr]

/-! ## A report that misses a VM -/

/-- Host 7 serves the journal disk 5 reserved for its machine, and is drained. -/
def sampleDrain : List (List Member × List Disk) :=
  let seven : Member := { id := 7, address := "a", state := .active }
  let d : Disk :=
    { id := 5, member := 7, state := .attaching, assigned := 1, kind := .journal, machine := "a" }
  [([], []), ([{ seven with state := .joining }], [d]), ([seven], [{ d with state := .serving }]),
    ([{ seven with state := .draining }], [{ d with state := .releasing }])]

def sampleHost : Config := { self := 7, machine := "a", m := generations sampleDrain, last := 3 }

/-- The host opens its disk, lets a VM in, and sees the disk released. -/
def sampleAdmits : List Action :=
  [.sees 2, .passBegins, .turns, .opens 2 true, .turns, .admits "v", .sees 3, .passBegins, .looks true,
    .turns, .turns]

/-- The VM is registered and its admission ends after the report looked for running VMs. -/
def sampleMissed : Option State :=
  exec (Host.step sampleHost) (fun _ _ => true) {}
    (sampleAdmits ++ [.counts, .registers "v", .admitted "v"])

theorem sampleMissed_isSome : sampleMissed.isSome := by decide +kernel

/-- A host reports its own disk empty while a VM that was let in runs here. -/
theorem empty_report_misses_a_vm :
    Chain sampleHost.m sampleHost.last ∧
    ∃ s, Runs (Host.step sampleHost) (fun _ _ => True) {} s ∧
      ∃ running ∈ s.counted, ∃ o ∈ s.opened, o.own ∧ s.empty running o ∧ s.running = ["v"] := by
  refine ⟨by decide +kernel, sampleMissed.get sampleMissed_isSome,
    exec_runs (fun _ _ _ => trivial) (some_get sampleMissed_isSome).symm, ?_⟩
  refine ⟨false, by decide +kernel, { id := 5, assigned := 1, state := .releasing, own := true }, ?_⟩
  decide +kernel

/-- The VM leaves before the report. -/
def sampleLeft : Option State :=
  exec (Host.step sampleHost) (fun s a => decide (Settled sampleHost s a)) {}
    (sampleAdmits ++ [.registers "v", .admitted "v", .leaves "v", .counts, .reports false])

theorem sampleLeft_isSome : sampleLeft.isSome := by decide +kernel

theorem empty_report_is_true_sample :
    ∃ s, Runs (Host.step sampleHost) (Settled sampleHost) {} s ∧ (5, 1) ∈ s.reported ∧
      ∀ vm, Host.step sampleHost s (.admits vm) = none := by
  have hrun : Runs (Host.step sampleHost) (Settled sampleHost) {} (sampleLeft.get sampleLeft_isSome) :=
    exec_runs (fun _ _ h => of_decide_eq_true h) (some_get sampleLeft_isSome).symm
  refine ⟨sampleLeft.get sampleLeft_isSome, hrun, by decide +kernel, ?_⟩
  exact ((empty_report_is_true sampleHost (by decide +kernel) _ hrun).2
    { id := 5, assigned := 1, state := .releasing, own := true } (by decide +kernel) rfl
    (by decide +kernel)).2.2

end Sproutfs.Host

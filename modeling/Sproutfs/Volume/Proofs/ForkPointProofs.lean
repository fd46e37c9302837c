import Sproutfs.Volume.ForkPoint

/-!
# The seal behind a fork point

The mark belongs to one retirement, which is on its way until it has taken the flag down. It needs the
retirement to be neither cancelled nor refused a volume: the mark is set before the wait, so a retirement
that gives up leaves nobody to end the seal.
-/

namespace Sproutfs.Volume

open Option

/-- The retirement is under way and has not taken the flag down yet. -/
def Retiring.active : Retiring → Bool
  | .waiting => true
  | .giving .. => true
  | _ => false

namespace ForkPoint

variable {vs : List Nat} {s s' : ForkPoint} {call : Nat} {r : Retiring} {t : ForkPoint}
  {published failed : Bool}

/-- What a call knows of the point. -/
def Knows (s : ForkPoint) : Retiring → Prop
  | .idle => True
  | .waiting => s.retired ∧ s.ends = 0
  | .giving rest _ failed => s.retired ∧ s.ends = 0 ∧ failed = false ∧ ∀ v ∈ s.standing, v ∈ rest
  | .storing failed => failed = false ∧ s.ends = 1
  | .returned ok last => ok ∧ (last → s.ends = 1)

/-- The state of a point that sealed the volumes `vs`. -/
structure Inv (vs : List Nat) (s : ForkPoint) : Prop where
  checkpoint : s.checkpoint = some vs
  err : s.err = false
  knows : ∀ d, s.Knows (s.calls d)
  unmarked : s.retired = false → s.ends = 0 ∧ s.standing = vs
  sealed : s.ends = 0 → s.sealed ∧ s.captures = 0 ∧ s.forks = 0
  once : s.ends ≠ 0 → s.ends = 1 ∧ s.standing = []
  /-- The one retirement of a marked point is on its way until the flag is down. -/
  alone : s.retired → s.ends = 0 → ∃ d, ∀ e, (s.calls e).active ↔ e = d
  covered : ∀ v ∈ s.standing, v ∈ vs
  unheld : s.retired → s.holders = 0

@[simp] theorem setCall_calls (s : ForkPoint) (call d : Nat) (r : Retiring) :
    (s.setCall call r).calls d = if d = call then r else s.calls d := by
  simp [setCall, Function.update_apply]

/-- An active call is one of a marked point whose seal stands. -/
theorem Knows.of_active (h : s.Knows r) (ha : r.active) : s.retired ∧ s.ends = 0 := by
  cases r with
  | waiting => exact h
  | giving rest published failed => exact ⟨h.1, h.2.1⟩
  | _ => cases ha

/-- A call that is not active knows nothing that a seal still standing could take from it. -/
theorem Knows.of_not_active (h : s.Knows r) (ha : ¬ r.active) (he : s.ends = 1 → t.ends = 1) :
    t.Knows r := by
  cases r with
  | idle => trivial
  | waiting => exact absurd rfl ha
  | giving rest published failed => exact absurd rfl ha
  | storing failed => exact ⟨h.1, he h.2⟩
  | returned ok last => exact ⟨h.1, fun hl => he (h.2 hl)⟩

theorem Inv.others (h : Inv vs s) (ha : (s.calls call).active) {d : Nat} (hd : d ≠ call) :
    ¬ (s.calls d).active := by
  obtain ⟨hr, he⟩ := (h.knows call).of_active ha
  obtain ⟨e, hall⟩ := h.alone hr he
  intro hact
  exact hd (((hall d).mp hact).trans ((hall call).mp ha).symm)

/-- What a call knows is of the mark, the count and the standing volumes alone. -/
theorem Knows.congr (h : s.Knows r) (hr : t.retired = s.retired := by rfl)
    (he : t.ends = s.ends := by rfl) (hs : t.standing = s.standing := by rfl) : t.Knows r := by
  cases r with
  | idle => trivial
  | waiting => exact ⟨hr ▸ h.1, he ▸ h.2⟩
  | giving rest published failed => exact ⟨hr ▸ h.1, he ▸ h.2.1, h.2.2.1, hs ▸ h.2.2.2⟩
  | storing failed => exact ⟨h.1, he ▸ h.2⟩
  | returned ok last => exact ⟨h.1, he ▸ h.2⟩

theorem knows_setCall (hk : t.Knows r) (hothers : ∀ d, d ≠ call → t.Knows (t.calls d)) (d : Nat) :
    (t.setCall call r).Knows ((t.setCall call r).calls d) := by
  rw [setCall_calls]
  by_cases hd : d = call
  · rw [if_pos hd]
    exact hk.congr
  · rw [if_neg hd]
    exact (hothers d hd).congr

section

variable (h : Inv vs s)

include h

theorem Inv.alone_setCall (hc : t.calls = s.calls) (ha : (s.calls call).active) (hr : r.active) :
    ∃ d, ∀ e, ((t.setCall call r).calls e).active ↔ e = d := by
  refine ⟨call, fun e => ?_⟩
  rw [setCall_calls]
  by_cases he : e = call
  · rw [if_pos he]
    exact ⟨fun _ => he, fun _ => hr⟩
  · rw [if_neg he, hc]
    exact ⟨fun hact => absurd hact (h.others ha he), fun heq => absurd heq he⟩

theorem Inv.returned (hna : ¬ (s.calls call).active) :
    Inv vs ({ s with holders := s.holders - 1 }.setCall call (.returned true false)) := by
  refine { h with
    knows := knows_setCall ⟨rfl, nofun⟩ fun d _ => (h.knows d).congr
    alone := fun hr he => ?_
    unheld := fun hr => ?_ }
  · obtain ⟨d, hall⟩ := h.alone hr he
    refine ⟨d, fun e => ?_⟩
    rw [setCall_calls, ← hall e]
    by_cases hce : e = call
    · rw [if_pos hce, hce]
      exact ⟨nofun, fun hact => absurd hact hna⟩
    · rw [if_neg hce]
  · show s.holders - 1 = 0
    rw [h.unheld hr]

/-- The last hold goes: the mark is set, and the call that set it waits. -/
theorem Inv.marks (hr : s.retired = false) (hlast : s.holders - 1 = 0) :
    Inv vs ({ s with holders := s.holders - 1, retired := true }.setCall call .waiting) := by
  obtain ⟨he, hstand⟩ := h.unmarked hr
  have hnone : ∀ d, ¬ (s.calls d).active := by
    intro d hact
    cases hr.symm.trans ((h.knows d).of_active hact).1
  refine { h with
    knows := knows_setCall ⟨rfl, he⟩ fun d _ => (h.knows d).of_not_active (hnone d) id
    unmarked := nofun
    alone := fun _ _ => ⟨call, fun e => ?_⟩
    unheld := fun _ => hlast }
  rw [setCall_calls]
  by_cases hce : e = call
  · rw [if_pos hce]
    exact ⟨fun _ => hce, fun _ => rfl⟩
  · rw [if_neg hce]
    exact ⟨fun hact => absurd hact (hnone e), fun heq => absurd heq hce⟩

theorem Inv.goes (hw : s.calls call = .waiting) (published : Bool) :
    Inv vs (s.setCall call (.giving vs published false)) := by
  have ha : (s.calls call).active := by rw [hw]; rfl
  obtain ⟨hr, he⟩ := (h.knows call).of_active ha
  exact { h with
    knows := knows_setCall ⟨hr, he, rfl, h.covered⟩ fun d _ => h.knows d
    alone := fun _ _ => h.alone_setCall rfl ha rfl }

theorem Inv.gives {v : Nat} {rest : List Nat} (hg : s.calls call = .giving (v :: rest) published failed) :
    Inv vs ({ s with standing := s.standing.filter (· ≠ v) }.setCall call
      (.giving rest published failed)) := by
  have ha : (s.calls call).active := by rw [hg]; rfl
  have hk := h.knows call
  rw [hg] at hk
  obtain ⟨hr, he, hfailed, hrest⟩ := hk
  refine { h with
    knows := knows_setCall ⟨hr, he, hfailed, fun w hw => ?_⟩ fun d hd =>
      (h.knows d).of_not_active (h.others ha hd) id
    unmarked := fun hf => (by cases hr.symm.trans hf)
    once := fun hne => absurd he hne
    alone := fun _ _ => h.alone_setCall rfl ha rfl
    covered := fun w hw => h.covered w (List.mem_filter.mp hw).1 }
  obtain ⟨hin, hne⟩ := List.mem_filter.mp hw
  exact (List.mem_cons.mp (hrest w hin)).resolve_left (of_decide_eq_true hne)

theorem Inv.unseals (hg : s.calls call = .giving [] published failed) :
    Inv vs ({ s with sealed := false, ends := s.ends + 1 }.setCall call (.storing failed)) := by
  have ha : (s.calls call).active := by rw [hg]; rfl
  have hk := h.knows call
  rw [hg] at hk
  obtain ⟨hr, he, hfailed, hrest⟩ := hk
  have hempty : s.standing = [] := List.eq_nil_iff_forall_not_mem.mpr fun v hv => by cases hrest v hv
  have hone : s.ends + 1 = 1 := by rw [he]
  exact { h with
    knows := knows_setCall ⟨hfailed, hone⟩ fun d hd =>
      (h.knows d).of_not_active (h.others ha hd) fun _ => hone
    unmarked := fun hf => (by cases hr.symm.trans hf)
    sealed := fun hz => absurd hz (Nat.succ_ne_zero _)
    once := fun _ => ⟨hone, hempty⟩
    alone := fun _ hz => absurd hz (Nat.succ_ne_zero _) }

theorem Inv.stores (hg : s.calls call = .storing failed) :
    Inv vs ({ s with err := failed }.setCall call (.returned (!failed) true)) := by
  have hk := h.knows call
  rw [hg] at hk
  obtain ⟨rfl, hone⟩ := hk
  exact { h with
    err := rfl
    knows := knows_setCall ⟨rfl, fun _ => hone⟩ fun d _ => (h.knows d).congr
    alone := fun _ hz => absurd (hone.symm.trans hz) Nat.one_ne_zero }

theorem Inv.step {a : ForkAction} (hok : Steady a) (hs : s.step a = some s') : Inv vs s' := by
  revert hs
  fun_cases ForkPoint.step s a <;> rintro ⟨⟩
  next hopen =>
    exact { h with knows := fun d => (h.knows d).congr, unheld := fun hr => absurd hr hopen }
  next hidle _ _ =>
    rw [show (!s.err) = true by rw [h.err]; rfl]
    exact h.returned (by rw [hidle]; exact Bool.false_ne_true)
  next hnone => cases h.checkpoint.symm.trans hnone
  next hlast _ =>
    have hr : s.retired = false := Bool.eq_false_iff.mpr fun hr => hlast (.inr hr)
    exact h.marks hr (Nat.le_zero.mp (Nat.not_lt.mp fun hpos => hlast (.inl hpos)))
  next => exact hok.elim
  next published _ hw =>
    rw [h.checkpoint]
    exact h.goes hw published
  next hg =>
    cases hok
    rw [Bool.not_true, Bool.or_false]
    exact h.gives hg
  next hg => exact h.unseals hg
  next hg => exact h.stores hg
  next => exact { h with knows := fun d => (h.knows d).congr }
  next hdown =>
    exact { h with
      knows := fun d => (h.knows d).congr
      sealed := fun he => absurd (h.sealed he).1 hdown }
  next hdown =>
    exact { h with
      knows := fun d => (h.knows d).congr
      sealed := fun he => absurd (h.sealed he).1 hdown }

end

end ForkPoint

end Sproutfs.Volume

import Sproutfs.HostJournal.Pages
import Mathlib.Tactic

/-!
# What each change to a page leaves as it was

No change but a store moves a page's version or its bytes.
-/

namespace Sproutfs.HostJournal.Page

variable {B β δ : Type} {g : Page B β δ} {k : Sealed B β} {known list : Bool}

@[simp] theorem version_trap : (g.trap known).version = g.version := by
  unfold trap noteStored
  split_ifs <;> rfl

@[simp] theorem history_trap : (g.trap known).history = g.history := by
  unfold trap noteStored
  split_ifs <;> rfl

@[simp] theorem dirty_trap : (g.trap known).dirty = (g.held && g.dirty || !g.held) := by
  unfold trap noteStored
  split_ifs with h h' <;> simp [h, *]

@[simp] theorem held_trap : (g.trap known).held = false := by
  unfold trap noteStored
  split_ifs with h <;> simp [h]

@[simp] theorem unjournaled_trap : (g.trap known).unjournaled = true := by
  unfold trap noteStored
  split_ifs <;> rfl

@[simp] theorem digests_trap : (g.trap known).digests = g.digests := by
  unfold trap noteStored
  split_ifs <;> rfl

@[simp] theorem version_sealedPage : g.sealedPage.version = g.version := by
  unfold sealedPage
  simp only
  split_ifs <;> rfl

@[simp] theorem history_sealedPage : g.sealedPage.history = g.history := by
  unfold sealedPage
  simp only
  split_ifs <;> rfl

@[simp] theorem dirty_sealedPage : g.sealedPage.dirty = g.dirty := by
  unfold sealedPage
  simp only
  split_ifs with h <;> simp [h]

theorem held_sealedPage (h : g.held = false) : g.sealedPage.held = g.dirty := by
  unfold sealedPage
  simp only
  split_ifs with hd <;> simp [hd, h]

@[simp] theorem writable_sealedPage : g.sealedPage.writable = false := by
  unfold sealedPage writable
  simp only
  split_ifs with h <;> simp [h]

@[simp] theorem digests_sealedPage :
    g.sealedPage.digests = if g.unjournaled then .dropped else g.digests := by
  unfold sealedPage
  simp only
  split_ifs <;> rfl

@[simp] theorem writable_markCaptured : g.markCaptured.writable = false := by
  unfold markCaptured writable
  cases g.dirty <;> cases g.held <;> simp

section

variable (hash : β → δ)

include hash

@[simp] theorem version_recordCaptured : (g.recordCaptured hash).version = g.version := by
  unfold recordCaptured
  split_ifs <;> rfl

@[simp] theorem history_recordCaptured : (g.recordCaptured hash).history = g.history := by
  unfold recordCaptured
  split_ifs <;> rfl

@[simp] theorem dirty_recordCaptured : (g.recordCaptured hash).dirty = g.dirty := by
  unfold recordCaptured
  split_ifs <;> rfl

@[simp] theorem held_recordCaptured : (g.recordCaptured hash).held = g.held := by
  unfold recordCaptured
  split_ifs <;> rfl

@[simp] theorem unjournaled_recordCaptured : (g.recordCaptured hash).unjournaled = g.unjournaled := by
  unfold recordCaptured
  split_ifs <;> rfl

@[simp] theorem writable_recordCaptured : (g.recordCaptured hash).writable = g.writable := by
  unfold recordCaptured
  split_ifs <;> rfl

@[simp] theorem origin_recordCaptured : (g.recordCaptured hash).origin = g.origin := by
  unfold recordCaptured
  split_ifs <;> rfl

end

@[simp] theorem version_giveBack : g.giveBack.version = g.version := rfl

@[simp] theorem history_giveBack : g.giveBack.history = g.history := rfl

@[simp] theorem held_giveBack : g.giveBack.held = g.held := rfl

@[simp] theorem unjournaled_giveBack : g.giveBack.unjournaled = true := rfl

@[simp] theorem writable_giveBack : g.giveBack.writable = g.writable := rfl

@[simp] theorem version_retired : g.retired.version = g.version := by
  unfold retired
  split_ifs <;> rfl

@[simp] theorem history_retired : g.retired.history = g.history := by
  unfold retired
  split_ifs <;> rfl

@[simp] theorem held_retired : g.retired.held = false := by
  unfold retired
  split_ifs with h <;> simp [h]

@[simp] theorem dirty_retired : g.retired.dirty = (g.dirty && !g.held) := by
  unfold retired
  split_ifs with h <;> simp [h]

@[simp] theorem unjournaled_retired : g.retired.unjournaled = g.unjournaled := by
  unfold retired
  split_ifs <;> rfl

@[simp] theorem writable_retired : g.retired.writable = g.writable := by
  unfold retired writable
  split_ifs with h <;> simp [h]

@[simp] theorem version_published : (g.published list).version = g.version := by
  unfold published
  split_ifs <;> simp

@[simp] theorem history_published : (g.published list).history = g.history := by
  unfold published
  split_ifs <;> simp

@[simp] theorem held_published : (g.published list).held = false := by
  unfold published
  split_ifs <;> simp

@[simp] theorem unjournaled_published : (g.published list).unjournaled = g.unjournaled := by
  unfold published
  split_ifs <;> simp

@[simp] theorem writable_published : (g.published list).writable = g.writable := by
  unfold published
  split_ifs
  · rw [← writable_retired (g := g)]
    rfl
  · exact writable_retired

@[simp] theorem version_restored : (g.restored k).version = g.version := by
  unfold restored
  split_ifs <;> rfl

@[simp] theorem history_restored : (g.restored k).history = g.history := by
  unfold restored
  split_ifs <;> rfl

@[simp] theorem held_restored : (g.restored k).held = false := by
  unfold restored
  split_ifs with h <;> simp [h]

@[simp] theorem unjournaled_restored : (g.restored k).unjournaled = g.unjournaled := by
  unfold restored
  split_ifs <;> rfl

theorem writable_restored (h : (g.restored k).writable) :
    g.writable ∨ g.held ∧ k.isProtected = false := by
  unfold restored at h
  split_ifs at h with hh
  · simp only [writable, Bool.not_false, Bool.and_true, Bool.and_eq_true, Bool.not_eq_true'] at h
    exact .inr ⟨hh, h.2⟩
  · exact .inl h

@[simp] theorem version_abandoned : (g.abandoned k).version = g.version := by
  unfold abandoned
  split_ifs <;> simp

@[simp] theorem history_abandoned : (g.abandoned k).history = g.history := by
  unfold abandoned
  split_ifs <;> simp

@[simp] theorem held_abandoned : (g.abandoned k).held = false := by
  unfold abandoned
  split_ifs <;> simp

@[simp] theorem unjournaled_abandoned :
    (g.abandoned k).unjournaled = (k.list || g.unjournaled) := by
  unfold abandoned
  split_ifs with h <;> simp [h]

theorem writable_abandoned (h : (g.abandoned k).writable) :
    g.writable ∨ g.held ∧ k.isProtected = false := by
  unfold abandoned at h
  split_ifs at h
  · exact writable_restored (writable_giveBack (g := g.restored k) ▸ h)
  · exact writable_restored h

end Sproutfs.HostJournal.Page
